/-
# What becomes of addresses and objects

A heap changes in four ways: an object is made, a slot of one is written, objects are
freed one by one, or the collector sweeps them. Whatever is done, in whatever order
and with whatever arguments, an address stands for one object for good: it is handed
out once, and while the object is there its kind and its length stay as they were.

* `Memory.handed`: what was handed out in a history, with the shape asked for;
* `Heap.Alters`: all that an action may do to the heap (`Memory.perform_alters`). From
  it come what one action keeps of an object (`Heap.Alters.get?`) and of the record
  (`Heap.Recorded.alter`), and so what a history keeps (`Memory.get?_after`,
  `Memory.recorded_after`);
* `Memory.addresses_fresh`: the history of addresses and shapes.
-/
import Mathlib
import StackMachine.Memory
import StackMachine.Proofs.Survivors

namespace StackMachine

namespace Memory

/-- The kind and the length of the object that an action asks for. -/
def Action.shape? : Action → Option (Kind × Nat)
  | newArray size => some (.array, size)
  | newStruct type size => some (.struct type, size)
  | _ => none

/-- What one action hands out: an address, with the kind and the length asked for. -/
def receipt (m : Memory) (act : Action) : Option (Addr × Kind × Nat) := do
  let shape ← act.shape?
  let a ← (m.perform act).1.toOption.join
  return (a, shape)

/-- What some actions hand out, in order. -/
def handed (m : Memory) : List Action → List (Addr × Kind × Nat)
  | [] => []
  | act :: acts => (m.receipt act).toList ++ (m.perform act).2.handed acts

/-- An action frees the object at `a`, if there is one: outright, or as not marked when
the heap is swept, or as out of reach when it is collected. -/
def Frees (m : Memory) (a : Addr) : Action → Prop
  | .free b => a = b
  | .sweep => a ∉ m.collector.marks
  | .collect roots => ¬ m.heap.Reaches roots a
  | _ => False

end Memory

/-! ### What an action may do to the heap -/

namespace Heap

variable {h h' : Heap} {a : Addr} {log : List (Addr × Kind × Nat)} {new : Option (Addr × Kind × Nat)}

/-- Nothing is done to a heap, or a slot of one object is written. -/
inductive Rewrites (h : Heap) : Heap → Prop
  | none : Rewrites h h
  | slot {a : Addr} {o : Obj} (found : h.get? a = some o) (k : Nat) (v : Value) :
      Rewrites h (h.put a (o.setSlot k v))

theorem Rewrites.contains (hw : h.Rewrites h') (a : Addr) : h'.contains a = h.contains a := by
  cases hw with
  | none => rfl
  | slot found k v => exact contains_put

/-- All that an action may do to a heap, with what it hands out. -/
inductive Alters (h : Heap) : Option (Addr × Kind × Nat) → Heap → Prop
  | alloc (o : Obj) : Alters h (some (h.next, o.kind, o.slots.length)) (h.alloc o)
  | rewrite {h' : Heap} (rewrites : h.Rewrites h') : Alters h none h'
  | free (a : Addr) : Alters h none (h.free a)
  | keep (live : List Addr) (since : Nat) :
      Alters h none { h.keep live with sinceCollection := since }

/-- **What one action keeps of an object.** An object is new, or was there before with
the kind and the length it has now. -/
theorem Alters.get? (halt : h.Alters new h') {o' : Obj} (hget : h'.get? a = some o') :
    new = some (a, o'.kind, o'.slots.length) ∨
      ∃ o, h.get? a = some o ∧ o.kind = o'.kind ∧ o.slots.length = o'.slots.length := by
  cases halt with
  | alloc o =>
    rw [get?_alloc] at hget
    split_ifs at hget with ha
    · cases hget
      exact Or.inl (by rw [ha])
    · exact Or.inr ⟨o', hget, rfl, rfl⟩
  | rewrite rewrites =>
    cases rewrites with
    | none => exact Or.inr ⟨o', hget, rfl, rfl⟩
    | @slot b o found k v =>
      rw [get?_put] at hget
      split_ifs at hget with hab
      · subst hab
        rw [found, Option.map_some, Option.some.injEq] at hget
        subst hget
        exact Or.inr ⟨o, found, rfl, (o.length_setSlot k v).symm⟩
      · exact Or.inr ⟨o', hget, rfl, rfl⟩
  | free b =>
    rw [get?_free] at hget
    split_ifs at hget
    exact Or.inr ⟨o', hget, rfl, rfl⟩
  | keep live since =>
    change (h.keep live).get? a = some o' at hget
    rw [get?_keep] at hget
    split_ifs at hget
    exact Or.inr ⟨o', hget, rfl, rfl⟩

/-- The address handed out is the next one, and the one after it is next. -/
theorem Alters.next (halt : h.Alters new h') :
    h'.next = h.next + new.toList.length ∧ ∀ e ∈ new, e.1 = h.next := by
  cases halt with
  | alloc o =>
    refine ⟨rfl, fun e he => ?_⟩
    cases he
    rfl
  | rewrite rewrites => cases rewrites <;> exact ⟨rfl, by simp⟩
  | free | keep => exact ⟨rfl, by simp⟩

/-- The heap agrees with the record of what was handed out: addresses are numbered as
they come, no address has two objects, and every object has the shape on record for
its address. -/
structure Recorded (h : Heap) (log : List (Addr × Kind × Nat)) : Prop where
  next : h.next = log.length
  addrs : log.map Prod.fst = List.range log.length
  keyed : h.Keyed
  shape : ∀ a o, h.get? a = some o → (a, o.kind, o.slots.length) ∈ log

theorem Recorded.lt_next (hrec : h.Recorded log) {o : Obj} (hget : h.get? a = some o) : a < h.next := by
  have hmem : a ∈ log.map Prod.fst := List.mem_map_of_mem (hrec.shape a o hget)
  rw [hrec.addrs, List.mem_range] at hmem
  rwa [hrec.next]

theorem keyed_put (hk : h.Keyed) (a : Addr) (o : Obj) : (h.put a o).Keyed := by
  have hfst : (h.put a o).objects.map Prod.fst = h.objects.map Prod.fst := by
    rw [put, List.map_map]
    apply List.map_congr_left
    intro e _
    by_cases he : e.1 = a
    · simp [he]
    · simp [he]
  rwa [Keyed, hfst]

theorem Recorded.keyed_alter (hrec : h.Recorded log) (halt : h.Alters new h') : h'.Keyed := by
  cases halt with
  | alloc o =>
    refine List.nodup_cons.mpr ⟨fun hmem => ?_, hrec.keyed⟩
    obtain ⟨o', ho'⟩ := contains_iff.mp (contains_iff_mem.mpr hmem)
    exact (hrec.lt_next ho').false
  | rewrite rewrites =>
    cases rewrites with
    | none => exact hrec.keyed
    | slot found k v => exact keyed_put hrec.keyed _ _
  | free b => exact hrec.keyed.sublist (List.filter_sublist.map Prod.fst)
  | keep live since => exact keyed_keep hrec.keyed live

/-- **What one action keeps of the record.** What it hands out is added to it. -/
theorem Recorded.alter (hrec : h.Recorded log) (halt : h.Alters new h') :
    h'.Recorded (log ++ new.toList) := by
  obtain ⟨hnext, hnew⟩ := halt.next
  refine ⟨by simp [hnext, hrec.next], ?_, hrec.keyed_alter halt, fun a o' hget => ?_⟩
  · cases new with
    | none => simpa using hrec.addrs
    | some e =>
      have he : e.1 = log.length := (hnew e rfl).trans hrec.next
      simp [hrec.addrs, he, List.range_succ]
  · rcases halt.get? hget with rfl | ⟨o, ho, hkind, hlen⟩
    · simp
    · rw [← hkind, ← hlen]
      exact List.mem_append_left _ (hrec.shape a o ho)

end Heap

/-! ### Histories -/

namespace Memory

variable {m : Memory} {a : Addr} {log : List (Addr × Kind × Nat)}

/-- A write fails and leaves the memory as it was, or the slot that it finds is written. -/
theorem write_store_cases (m : Memory) (b : Addr) (find : Obj → Except Fault Nat) (v : Value) :
    (∃ e, m.write (Heap.store b find v) = (.error e, m)) ∨
      ∃ o k, m.heap.get? b = some o ∧ find o = .ok k ∧
        m.write (Heap.store b find v) = (.ok none, { m with heap := m.heap.put b (o.setSlot k v) }) := by
  unfold write
  rcases m.heap.store_cases b find v with ⟨e, hs, -⟩ | ⟨o, k, ho, hk, hs⟩
  · rw [hs]
    exact .inl ⟨e, rfl⟩
  · rw [hs]
    exact .inr ⟨o, k, ho, hk, rfl⟩

theorem write_store_rewrites (m : Memory) (b : Addr) (find : Obj → Except Fault Nat) (v : Value) :
    m.heap.Rewrites (m.write (Heap.store b find v)).2.heap := by
  rcases m.write_store_cases b find v with ⟨e, hw⟩ | ⟨o, k, ho, -, hw⟩
  · rw [hw]
    exact .none
  · rw [hw]
    exact .slot ho k v

/-- **All that an action does to the heap.** -/
theorem perform_alters (m : Memory) (act : Action) :
    m.heap.Alters (m.receipt act) (m.perform act).2.heap := by
  cases act with
  | newArray size =>
    have halloc := Heap.Alters.alloc (h := m.heap) (.newArray size)
    simp only [Obj.newArray, Value.length_zeros] at halloc
    exact halloc
  | newStruct type size =>
    have halloc := Heap.Alters.alloc (h := m.heap) (.newStruct type size)
    simp only [Obj.newStruct, Value.length_zeros] at halloc
    exact halloc
  | setElem b i v => exact .rewrite (m.write_store_rewrites b _ v)
  | setField b i v => exact .rewrite (m.write_store_rewrites b _ v)
  | free b => exact .free b
  | mark roots => exact .rewrite .none
  | sweep => exact .keep _ _
  | collect roots => exact .keep _ 0

/-- What some actions keep of the record. -/
theorem recorded_after (hrec : m.heap.Recorded log) (acts : List Action) :
    (m.after acts).heap.Recorded (log ++ m.handed acts) := by
  induction acts generalizing m log with
  | nil => simpa [after, handed] using hrec
  | cons act acts ih =>
    have hnext := ih (hrec.alter (m.perform_alters act))
    rw [List.append_assoc] at hnext
    exact hnext

/-- What some actions keep of an object. If there is one at an address that was handed
out before them, it was there before them, with the kind and the length it has now. -/
theorem get?_after (hlt : a < m.heap.next) {acts : List Action} {o' : Obj}
    (hget : (m.after acts).heap.get? a = some o') :
    ∃ o, m.heap.get? a = some o ∧ o.kind = o'.kind ∧ o.slots.length = o'.slots.length := by
  induction acts generalizing m with
  | nil => exact ⟨o', hget, rfl, rfl⟩
  | cons act acts ih =>
    have halt := m.perform_alters act
    obtain ⟨hnext, hnew⟩ := halt.next
    have hlt' : a < (m.perform act).2.heap.next := hnext ▸ Nat.lt_add_right _ hlt
    obtain ⟨o, ho, hkind, hlen⟩ := ih hlt' hget
    rcases halt.get? ho with he | ⟨o₀, ho₀, hkind₀, hlen₀⟩
    · -- What is new has the next address, and `a` is below it.
      exact absurd (hnew _ he) hlt.ne
    · exact ⟨o₀, ho₀, hkind₀.trans hkind, hlen₀.trans hlen⟩

/-- An action that fails changes nothing. -/
theorem perform_of_error {act : Action} {e : Fault} (h : (m.perform act).1 = .error e) :
    (m.perform act).2 = m := by
  have hwrite : ∀ b find v, (m.write (Heap.store b find v)).1 = .error e →
      (m.write (Heap.store b find v)).2 = m := by
    intro b find v hr
    rcases m.write_store_cases b find v with ⟨e', hw⟩ | ⟨o, k, -, -, hw⟩
    · rw [hw]
    · rw [hw] at hr
      cases hr
  cases act with
  | setElem b i v => exact hwrite b _ v h
  | setField b i v => exact hwrite b _ v h
  | newArray | newStruct | free | mark | sweep | collect => cases h

/-- An object that is there goes if the action frees it, and otherwise stays. -/
theorem contains_perform (hin : m.heap.contains a = true) (act : Action) :
    (m.perform act).2.heap.contains a = true ↔ ¬ m.Frees a act := by
  cases act with
  | newArray size => exact iff_of_true (Heap.contains_alloc hin) id
  | newStruct type size => exact iff_of_true (Heap.contains_alloc hin) id
  | setElem b i v => exact iff_of_true (((m.write_store_rewrites b _ v).contains a).trans hin) id
  | setField b i v => exact iff_of_true (((m.write_store_rewrites b _ v).contains a).trans hin) id
  | free b =>
    show (m.heap.free b).contains a = true ↔ a ≠ b
    rw [Heap.contains, Heap.get?_free]
    split_ifs with hab
    · simp [hab]
    · exact iff_of_true hin hab
  | mark roots => exact iff_of_true hin id
  | sweep =>
    show (m.heap.keep m.collector.marks).contains a = true ↔ ¬ a ∉ m.collector.marks
    rw [Heap.contains, Heap.get?_keep]
    split_ifs with hmark
    · exact iff_of_true hin (not_not.mpr hmark)
    · simp [hmark]
  | collect roots =>
    show (m.collector.collect m.heap roots).1.contains a = true ↔ ¬ ¬ m.heap.Reaches roots a
    rw [Collector.contains_collect, and_iff_right hin, not_not]

/-- An object that is asked for is made, at the next address. -/
theorem perform_of_shape (m : Memory) {act : Action} {kind : Kind} {size : Nat}
    (h : act.shape? = some (kind, size)) :
    (m.perform act).1 = .ok (some m.heap.next) ∧
      ∃ o, (m.perform act).2.heap.get? m.heap.next = some o ∧ o.kind = kind ∧ o.slots.length = size := by
  have hget : ∀ o, (m.heap.alloc o).get? m.heap.next = some o := fun o => by simp [Heap.get?_alloc]
  cases act with
  | newArray n =>
    cases h
    exact ⟨rfl, _, hget _, rfl, Value.length_zeros size⟩
  | newStruct t n =>
    cases h
    exact ⟨rfl, _, hget _, rfl, Value.length_zeros size⟩
  | setElem | setField | free | mark | sweep | collect => cases h

/-- What is gone stays away: an address that was handed out and has no object gets none
again. -/
theorem not_contains_after (hlt : a < m.heap.next) (hgone : m.heap.contains a = false)
    (acts : List Action) : (m.after acts).heap.contains a = false := by
  rw [Bool.eq_false_iff] at hgone ⊢
  intro hback
  obtain ⟨o', ho'⟩ := Heap.contains_iff.mp hback
  obtain ⟨o, ho, -⟩ := get?_after hlt ho'
  exact hgone (Heap.contains_iff.mpr ⟨o, ho⟩)

/-- **Addresses are fresh and shapes are fixed.** Take any actions on an empty heap and
any collector, in any order and with any arguments, and what they hand out. Addresses
are handed out in increasing order, so that the next object asked for gets an address
greater than all before; they count the objects handed out, so that none needs more
than 64 bits before there are 2 ^ 64 of them. No address has two objects, and every
object is at an address that was handed out, with the kind and the length that were
asked for, however long it stays. An object that is freed, outright or by a sweep, is
gone for good, and one that is not freed stays. An action that fails changes nothing. -/
theorem addresses_fresh (c : Collector) (acts : List Action) :
    ∃ m log, (fresh c).after acts = m ∧ (fresh c).handed acts = log ∧
      (log.map Prod.fst).Pairwise (· < ·) ∧ m.heap.next = log.length ∧
      (∀ e ∈ log, e.1 < log.length) ∧ m.heap.Keyed ∧
      (∀ act kind size, act.shape? = some (kind, size) →
        ∃ a o, (m.perform act).1 = .ok (some a) ∧ (∀ e ∈ log, e.1 < a) ∧
          (m.perform act).2.heap.get? a = some o ∧ o.kind = kind ∧ o.slots.length = size) ∧
      (∀ a o, m.heap.get? a = some o → (a, o.kind, o.slots.length) ∈ log) ∧
      (∀ a o o' more, m.heap.get? a = some o → (m.after more).heap.get? a = some o' →
        o'.kind = o.kind ∧ o'.slots.length = o.slots.length) ∧
      (∀ a act, m.heap.contains a = true →
        (m.Frees a act → ∀ more, (m.after (act :: more)).heap.contains a = false) ∧
        (¬ m.Frees a act → (m.perform act).2.heap.contains a = true)) ∧
      ∀ act e, (m.perform act).1 = .error e → (m.perform act).2 = m := by
  have hempty : (fresh c).heap.Recorded [] := ⟨rfl, rfl, List.nodup_nil, fun a o hget => by cases hget⟩
  have hrec := recorded_after hempty acts
  rw [List.nil_append] at hrec
  have hlt : ∀ e ∈ (fresh c).handed acts, e.1 < ((fresh c).handed acts).length := by
    intro e he
    rw [← List.mem_range, ← hrec.addrs]
    exact List.mem_map_of_mem he
  refine ⟨_, _, rfl, rfl, ?_, hrec.next, hlt, hrec.keyed, ?_, hrec.shape, ?_, ?_,
    fun act e => perform_of_error⟩
  · rw [hrec.addrs]
    exact List.pairwise_lt_range
  · intro act kind size hshape
    obtain ⟨hanswer, o, ho, hkind, hsize⟩ := perform_of_shape ((fresh c).after acts) hshape
    exact ⟨_, o, hanswer, fun e he => hrec.next ▸ hlt e he, ho, hkind, hsize⟩
  · intro a o o' more ho ho'
    obtain ⟨o₀, ho₀, hkind, hlen⟩ := get?_after (hrec.lt_next ho) ho'
    obtain rfl : o = o₀ := Option.some.inj (ho.symm.trans ho₀)
    exact ⟨hkind.symm, hlen.symm⟩
  · intro a act hin
    have hstays := contains_perform hin act
    refine ⟨fun hfrees more => ?_, hstays.mpr⟩
    obtain ⟨o, ho⟩ := Heap.contains_iff.mp hin
    have hnext := (((fresh c).after acts).perform_alters act).next.1
    have hgone := Bool.eq_false_iff.mpr fun hback => hstays.mp hback hfrees
    exact not_contains_after (hnext ▸ Nat.lt_add_right _ (hrec.lt_next ho)) hgone more

/-- Two objects are made, and a field is written. The first is marked and freed, so that
its mark stands for nothing. -/
def worn : List Action :=
  [.newArray 1, .newStruct 7 2, .setField 1 1 (.ref 0), .mark [.ref 0], .free 0]

/-- The next object gets an address of its own, the mark left over saves nothing from a
sweep, and a struct has no elements to write. -/
theorem addresses_fresh_worn :
    ∃ m log, (fresh {}).after worn = m ∧ (fresh {}).handed worn = log ∧
      log = [(0, .array, 1), (1, .struct 7, 2)] ∧
      (∃ a, (m.perform (.newArray 5)).1 = .ok (some a) ∧ ∀ e ∈ log, e.1 < a) ∧
      m.heap.contains 1 = true ∧ (m.after [.sweep, .newArray 5]).heap.contains 1 = false ∧
      (m.perform (.setElem 1 0 (.int 3))).2 = m := by
  obtain ⟨m, log, hm, hlog, -, -, -, -, hnew, -, -, hfrees, hfails⟩ := addresses_fresh {} worn
  have hworn : (fresh {}).after worn = ⟨⟨[(1, ⟨.struct 7, [.int 0, .ref 0]⟩)], 2, 2, 2⟩, ⟨[0], 0, 0⟩⟩ := by
    cbv
  have hhanded : (fresh {}).handed worn = [(0, .array, 1), (1, .struct 7, 2)] := by cbv
  subst hm hlog
  refine ⟨_, _, rfl, rfl, hhanded, ?_, ?_, ?_, ?_⟩
  · obtain ⟨a, _, ha, hlt, -⟩ := hnew (.newArray 5) _ _ rfl
    exact ⟨a, ha, hlt⟩
  · rw [hworn]
    rfl
  · refine (hfrees 1 .sweep ?_).1 ?_ _
    · rw [hworn]
      rfl
    · rw [hworn]
      exact (by decide : (1 : Addr) ∉ [0])
  · apply hfails _ (.wrongShape .storeElem .array .struct)
    rw [hworn]
    rfl

end Memory
end StackMachine
