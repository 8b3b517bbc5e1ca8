/-
# The heap

Objects are arrays or structs of a numbered type; both are a fixed number of
slots. An object is found by its address. Addresses are handed out in order and
never again, and the heap counts what it has handed out, in all and since the
last collection.

* `Heap.get?`: the object at an address, the view that all laws are about;
* `Heap.alloc`, `Heap.put`, `Heap.free`, `Heap.keep`: the four ways in which a
  heap changes, each with its effect on `get?`;
* `Heap.setElem`, `Heap.setField`: writes in place. They look before they write, so
  that one that fails leaves the heap as it was (`Heap.store_cases`).
-/
import StackMachine.Fault

namespace StackMachine

/-- What an object is. It never changes. -/
inductive Kind where
  | array
  | struct (type : Int64)
  deriving DecidableEq, Repr

/-- An object: its kind and its slots. -/
structure Obj where
  kind : Kind
  slots : List Value
  deriving DecidableEq, Repr

/-- The slot of an index that may be negative or too large. -/
def slot? (i : Int64) (size : Nat) : Option Nat :=
  (Instr.place? i).filter (· < size)

theorem lt_of_slot? {i : Int64} {size k : Nat} (h : slot? i size = some k) : k < size := by
  simpa using (Option.filter_eq_some_iff.mp h).2

namespace Obj

/-- An array whose elements are zero. -/
def newArray (size : Nat) : Obj := ⟨.array, Value.zeros size⟩

/-- A struct whose fields are zero. -/
def newStruct (type : Int64) (size : Nat) : Obj := ⟨.struct type, Value.zeros size⟩

def shape (o : Obj) : Shape :=
  match o.kind with
  | .array => .array
  | .struct _ => .struct

/-- The addresses an object refers to. -/
def refs (o : Obj) : List Addr := o.slots.filterMap Value.addr?

/-- The text of an object. -/
def display (o : Obj) : String :=
  let label :=
    match o.kind with
    | .array => "array"
    | .struct t => "struct#" ++ decimal t.toInt
  label ++ "[" ++ String.intercalate ", " (o.slots.map Value.display) ++ "]"

/-- The slot of an array's element. -/
def elemSlot (op : Opcode) (o : Obj) (i : Int64) : Except Fault Nat :=
  match o.kind with
  | .array =>
    match slot? i o.slots.length with
    | some k => .ok k
    | none => .error (.indexOutOfBounds i o.slots.length)
  | .struct _ => .error (.wrongShape op .array .struct)

/-- The slot of a struct's field. -/
def fieldSlot (op : Opcode) (o : Obj) (i : Int64) : Except Fault Nat :=
  match o.kind with
  | .struct _ =>
    match slot? i o.slots.length with
    | some k => .ok k
    | none => .error (.noSuchSlot .field i o.slots.length)
  | .array => .error (.wrongShape op .struct .array)

/-- The value in a slot. -/
def slot (o : Obj) (k : Nat) : Value := o.slots.getD k .zero

/-- Change the value in a slot. -/
def setSlot (o : Obj) (k : Nat) (v : Value) : Obj := { o with slots := o.slots.set k v }

def elem (o : Obj) (i : Int64) : Except Fault Value :=
  (o.elemSlot .loadElem i).map o.slot

def field (o : Obj) (i : Int64) : Except Fault Value :=
  (o.fieldSlot .loadField i).map o.slot

@[simp] theorem kind_setSlot (o : Obj) (k : Nat) (v : Value) : (o.setSlot k v).kind = o.kind := rfl

@[simp] theorem length_setSlot (o : Obj) (k : Nat) (v : Value) :
    (o.setSlot k v).slots.length = o.slots.length := List.length_set

end Obj

/-- Objects by address, newest first, and the counts. -/
structure Heap where
  objects : List (Addr × Obj) := []
  next : Addr := 0
  sinceCollection : Nat := 0
  total : Nat := 0
  deriving DecidableEq, Repr

namespace Heap

/-- The object at an address. -/
def get? (h : Heap) (a : Addr) : Option Obj := h.objects.lookup a

/-- Whether there is an object at an address. -/
def contains (h : Heap) (a : Addr) : Bool := (h.get? a).isSome

/-- The number of objects. -/
def size (h : Heap) : Nat := h.objects.length

/-- The object at an address, or the fault that there is none. -/
def get (h : Heap) (a : Addr) : Except Fault Obj :=
  match h.get? a with
  | some o => .ok o
  | none => .error (.noSuchObject a)

/-- The heap with a new object; its address is the old `next`. -/
def alloc (h : Heap) (o : Obj) : Heap :=
  { objects := (h.next, o) :: h.objects
    next := h.next + 1
    sinceCollection := h.sinceCollection + 1
    total := h.total + 1 }

/-- Change the object at an address; where there is none, nothing changes. -/
def put (h : Heap) (a : Addr) (o : Obj) : Heap :=
  { h with objects := h.objects.map fun e => if e.1 = a then (a, o) else e }

/-- Remove the object at an address. -/
def free (h : Heap) (a : Addr) : Heap :=
  { h with objects := h.objects.filter fun e => e.1 ≠ a }

/-- Keep only the objects at these addresses. -/
def keep (h : Heap) (live : List Addr) : Heap :=
  { h with objects := h.objects.filter fun e => live.contains e.1 }

/-- Write a slot of the object at an address, in place. The object is looked up and
`find` looks for the slot; then the slot is written. -/
def store (a : Addr) (find : Obj → Except Fault Nat) (v : Value) : EStateM Fault Heap Unit := do
  let o ← (← getThe Heap).get a
  let k ← find o
  modify fun h => h.put a (o.setSlot k v)

/-- Write an element of an array. -/
def setElem (a : Addr) (i : Int64) (v : Value) : EStateM Fault Heap Unit :=
  store a (fun o => o.elemSlot .storeElem i) v

/-- Write a field of a struct. -/
def setField (a : Addr) (i : Int64) (v : Value) : EStateM Fault Heap Unit :=
  store a (fun o => o.fieldSlot .storeField i) v

section Store

variable {h : Heap} {a : Addr} {find : Obj → Except Fault Nat} {v : Value} {o : Obj}

theorem store_missing (ho : h.get? a = none) :
    store a find v h = .error (.noSuchObject a) h := by
  have hget : h.get a = .error (.noSuchObject a) := by rw [get, ho]
  show EStateM.bind (liftM (h.get a)) _ h = _
  rw [hget]
  rfl

theorem store_refused {e : Fault} (ho : h.get? a = some o) (he : find o = .error e) :
    store a find v h = .error e h := by
  have hget : h.get a = .ok o := by rw [get, ho]
  show EStateM.bind (liftM (h.get a)) _ h = _
  rw [hget]
  show EStateM.bind (liftM (find o)) _ h = _
  rw [he]
  rfl

theorem store_found {k : Nat} (ho : h.get? a = some o) (hk : find o = .ok k) :
    store a find v h = .ok () (h.put a (o.setSlot k v)) := by
  have hget : h.get a = .ok o := by rw [get, ho]
  show EStateM.bind (liftM (h.get a)) _ h = _
  rw [hget]
  show EStateM.bind (liftM (find o)) _ h = _
  rw [hk]
  rfl

/-- **All that a write does.** It fails because there is no object or no such slot, and
then nothing is written; or the slot is written and nothing else. -/
theorem store_cases (h : Heap) (a : Addr) (find : Obj → Except Fault Nat) (v : Value) :
    (∃ e, store a find v h = .error e h ∧
      (h.get? a = none ∧ e = .noSuchObject a ∨ ∃ o, h.get? a = some o ∧ find o = .error e)) ∨
    ∃ o k, h.get? a = some o ∧ find o = .ok k ∧
      store a find v h = .ok () (h.put a (o.setSlot k v)) := by
  cases ho : h.get? a with
  | none => exact .inl ⟨_, store_missing ho, .inl ⟨rfl, rfl⟩⟩
  | some o =>
    cases hk : find o with
    | error e => exact .inl ⟨e, store_refused ho hk, .inr ⟨o, rfl, hk⟩⟩
    | ok k => exact .inr ⟨o, k, rfl, hk, store_found ho hk⟩

end Store

/-! ### What the operations do to the view -/

theorem get?_alloc (h : Heap) (o : Obj) (a : Addr) :
    (h.alloc o).get? a = if a = h.next then some o else h.get? a := by
  unfold get? alloc
  by_cases ha : a = h.next
  · simp [ha]
  · simp [List.lookup_cons, ha, beq_eq_false_iff_ne.mpr ha]

theorem get?_put (h : Heap) (a b : Addr) (o : Obj) :
    (h.put a o).get? b = if b = a then (h.get? b).map fun _ => o else h.get? b := by
  obtain ⟨objs, n, s, t⟩ := h
  simp only [get?, put]
  induction objs with
  | nil => simp
  | cons e es ih =>
    obtain ⟨k, x⟩ := e
    by_cases hk : k = a <;> by_cases hb : b = k <;> simp_all [List.lookup_cons] <;> grind

theorem get?_keep (h : Heap) (live : List Addr) (a : Addr) :
    (h.keep live).get? a = if a ∈ live then h.get? a else none := by
  obtain ⟨objs, n, s, t⟩ := h
  simp only [get?, keep]
  induction objs with
  | nil => simp
  | cons e es ih =>
    obtain ⟨k, x⟩ := e
    by_cases hk : k ∈ live <;> by_cases hb : a = k <;> simp_all [List.lookup_cons] <;> grind

theorem get?_free (h : Heap) (a b : Addr) :
    (h.free a).get? b = if b = a then none else h.get? b := by
  obtain ⟨objs, n, s, t⟩ := h
  simp only [get?, free]
  induction objs with
  | nil => simp
  | cons e es ih =>
    obtain ⟨k, x⟩ := e
    by_cases hk : k = a <;> by_cases hb : b = k <;> simp_all [List.lookup_cons] <;> grind

end Heap

end StackMachine
