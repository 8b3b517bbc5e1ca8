/-
# What operations do

An operation on a machine gives a result and a machine, or a fault and a
machine. `Gives` says what both may be, and is computed through an operation
step by step (the simp lemmas `gives_*`), so that a law about an instruction
comes down to what it does in the end.

* `Machine.exec_outline`: an instruction that moves data leaves control alone:
  the place, the frames but for their locals, and whether the run has stopped;
* `Machine.Effect`: an operation takes so many values and puts so many, leaves
  alone what is below, and fails for no reason that the check of heights rules
  out;
* `Machine.exec_effect`: of such an instruction this holds with the numbers in
  the table of effects;
* `Alike`: two operations that keep a relation between their states.
-/
import Mathlib
import StackMachine.Machine.Control
import StackMachine.Proofs.Survey

namespace StackMachine

/-- From `s`, the operation gives what `post` allows, or fails as `fault`
allows. -/
def Gives {ε σ α : Type} (x : EStateM ε σ α) (s : σ) (post : α → σ → Prop) (fault : ε → σ → Prop) :
    Prop :=
  match x s with
  | .ok a t => post a t
  | .error e t => fault e t

section Gives

variable {ε σ α β : Type} {s : σ} {P : α → σ → Prop} {F : ε → σ → Prop}

@[simp] theorem gives_pure (a : α) : Gives (pure a) s P F ↔ P a s := Iff.rfl

@[simp] theorem gives_throw (e : ε) : Gives (throw e) s P F ↔ F e s := Iff.rfl

@[simp] theorem gives_true (x : EStateM ε σ α) :
    Gives x s (fun _ _ => True) (fun _ _ => True) := by
  unfold Gives
  cases x s <;> trivial

@[simp] theorem gives_bind (x : EStateM ε σ β) (f : β → EStateM ε σ α) :
    Gives (x >>= f) s P F ↔ Gives x s (fun b t => Gives (f b) t P F) F := by
  unfold Gives
  simp only [bind, EStateM.bind]
  cases x s <;> rfl

theorem bind_of_ok {x : EStateM ε σ β} {f : β → EStateM ε σ α} {b : β} {t : σ} (h : x s = .ok b t) :
    (x >>= f) s = f b t := by
  simp only [bind, EStateM.bind, h]

theorem bind_of_error {x : EStateM ε σ β} {f : β → EStateM ε σ α} {e : ε} {t : σ}
    (h : x s = .error e t) : (x >>= f) s = .error e t := by
  simp only [bind, EStateM.bind, h]

@[simp] theorem gives_map (f : β → α) (x : EStateM ε σ β) :
    Gives (f <$> x) s P F ↔ Gives x s (fun b t => P (f b) t) F := by
  unfold Gives
  simp only [Functor.map, EStateM.map]
  cases x s <;> rfl

@[simp] theorem gives_get {P : σ → σ → Prop} : Gives (get : EStateM ε σ σ) s P F ↔ P s s := Iff.rfl

@[simp] theorem gives_modify (f : σ → σ) {P : PUnit → σ → Prop} :
    Gives (modify f : EStateM ε σ PUnit) s P F ↔ P () (f s) := Iff.rfl

@[simp] theorem gives_lift (x : Except Fault α) {F : Fault → σ → Prop} :
    Gives (liftM x : EStateM Fault σ α) s P F ↔
      (∀ a, x = .ok a → P a s) ∧ ∀ e, x = .error e → F e s := by
  cases x with
  | ok a =>
    simp only [Except.ok.injEq, forall_eq', reduceCtorEq, false_implies, implies_true, and_true]
    exact Iff.rfl
  | error e =>
    simp only [reduceCtorEq, false_implies, implies_true, Except.error.injEq, forall_eq', true_and]
    exact Iff.rfl

end Gives

/-! ### The steps that instructions are made of -/

namespace Machine

variable {m : Machine} {F : Fault → Machine → Prop}

theorem pop_cons {v : Value} {vs : List Value} (h : m.stack = v :: vs) (op : Opcode) :
    pop op m = .ok v { m with stack := vs } := by
  simp only [pop, h]

@[simp] theorem gives_push (v : Value) {P : Unit → Machine → Prop} :
    Gives (push v) m P F ↔ P () { m with stack := v :: m.stack } := Iff.rfl

@[simp] theorem gives_pop (op : Opcode) {P : Value → Machine → Prop} :
    Gives (pop op) m P F ↔ (m.stack = [] → F (.stackUnderflow op) m) ∧
      ∀ v vs, m.stack = v :: vs → P v { m with stack := vs } := by
  unfold Gives pop
  cases h : m.stack <;> simp

@[simp] theorem gives_peek (op : Opcode) {P : Value → Machine → Prop} :
    Gives (peek op) m P F ↔ (m.stack = [] → F (.stackUnderflow op) m) ∧
      ∀ v vs, m.stack = v :: vs → P v m := by
  unfold Gives peek
  cases h : m.stack <;> simp

@[simp] theorem gives_popInt (op : Opcode) {P : Int64 → Machine → Prop} :
    Gives (popInt op) m P F ↔ (m.stack = [] → F (.stackUnderflow op) m) ∧
      ∀ v vs, m.stack = v :: vs → (∀ n, v.toInt = .ok n → P n { m with stack := vs }) ∧
        ∀ e, v.toInt = .error e → F e { m with stack := vs } := by
  simp [popInt]

@[simp] theorem gives_popRef (op : Opcode) {P : Addr → Machine → Prop} :
    Gives (popRef op) m P F ↔ (m.stack = [] → F (.stackUnderflow op) m) ∧
      ∀ v vs, m.stack = v :: vs → (∀ a, v.addr? = some a → P a { m with stack := vs }) ∧
        (v.addr? = none → F (.wrongShape op .ref v.shape) { m with stack := vs }) := by
  simp only [popRef, gives_bind, gives_pop]
  refine and_congr_right fun _ => forall_congr' fun v => forall_congr' fun vs =>
    imp_congr_right fun _ => ?_
  cases v.addr? <;> simp

@[simp] theorem gives_alloc (o : Obj) {P : Value → Machine → Prop} :
    Gives (alloc o) m P F ↔ P (.ref m.heap.next) { m with heap := m.heap.alloc o } := Iff.rfl

@[simp] theorem gives_inHeap {α : Type} (x : EStateM Fault Heap α) {P : α → Machine → Prop} :
    Gives (inHeap x) m P F ↔
      Gives x m.heap (fun a heap => P a { m with heap }) (fun e heap => F e { m with heap }) := by
  unfold Gives inHeap
  cases x m.heap <;> rfl

@[simp] theorem gives_print (line : String) {P : Unit → Machine → Prop} :
    Gives (print line) m P F ↔ P () { m with output := m.output.push line } := Iff.rfl

end Machine

/-! ### Control is left alone -/

/-- A frame but for its locals. -/
def Frame.outline (f : Frame) : Frame := { f with locals := [] }

namespace Machine

/-- What of a machine only jumps, calls and returns change. The locals of the
callers belong to it. -/
def outline (m : Machine) : Machine :=
  { m with
    stack := [], globals := [], heap := {}, collector := {}, output := #[]
    frames := m.frames.modifyHead Frame.outline }

theorem ip_of_outline {m n : Machine} (h : m.outline = n.outline) : m.ip = n.ip := by
  have := congrArg Machine.ip h
  exact this

theorem stop_of_outline {m n : Machine} (h : m.outline = n.outline) : m.stop = n.stop := by
  have := congrArg Machine.stop h
  exact this

theorem frames_of_outline {m n : Machine} {f : Frame} {fs : List Frame}
    (h : m.outline = n.outline) (hn : n.frames = f :: fs) :
    ∃ g, m.frames = g :: fs ∧ g.outline = f.outline := by
  have hframes : m.frames.modifyHead Frame.outline = n.frames.modifyHead Frame.outline :=
    congrArg Machine.frames h
  rw [hn, List.modifyHead_cons] at hframes
  cases hm : m.frames with
  | nil => rw [hm] at hframes; cases hframes
  | cons g gs =>
    rw [hm, List.modifyHead_cons] at hframes
    obtain ⟨hg, rfl⟩ := List.cons.inj hframes
    exact ⟨g, rfl, hg⟩

/-- An operation that leaves control alone, also where it fails. -/
def Calm {α : Type} (x : Exec α) : Prop :=
  ∀ m, Gives x m (fun _ t => t.outline = m.outline) (fun _ t => t.outline = m.outline)

theorem storeLocal_calm (i : Int64) (v : Value) : Calm (storeLocal i v) := by
  intro m
  simp only [storeLocal, gives_bind, gives_get, gives_lift, gives_modify, outline]
  refine ⟨fun k _ => ?_, fun e _ => trivial⟩
  cases hf : m.frames with
  | nil => simp [hf]
  | cons f fs => simp [Frame.outline]

/-- **An instruction that moves data leaves control alone.** -/
theorem exec_outline (s : Settings) (x : Instr) : Calm (exec s x) := by
  intro m
  unfold exec
  split
  case h_8 =>
    simp only [gives_bind, gives_lift, gives_pop]
    refine ⟨fun k _ => ⟨fun _ => trivial, fun v vs _ => ?_⟩, fun e _ => trivial⟩
    exact storeLocal_calm k v { m with stack := vs }
  all_goals
    simp [loadLocal, loadGlobal, storeGlobal, allocArray, allocStruct, outline]

end Machine

/-! ### Effects -/

/-- Faults that the check of heights rules out. -/
def Fault.structural : Fault → Bool
  | stackUnderflow _ | missingOperand _ | noSuchFunction _ | badJump _ => true
  | _ => false

/-- Faults that lie in the values an instruction works on. -/
def Fault.ofValues : Fault → Bool
  | divisionByZero | indexOutOfBounds _ _ | noSuchSlot _ _ _ | notANumber _ | wrongShape _ _ _
  | negativeSize _ _ | tooLarge _ _ _ => true
  | _ => false

/-- A computation that fails, if it does, with such a fault. -/
def Raises {α : Type} (P : Fault → Prop) (x : Except Fault α) : Prop := ∀ e, x = .error e → P e

section Raises

variable {α β : Type} {P Q : Fault → Prop}

theorem raises_ok (a : α) : Raises P (.ok a : Except Fault α) := fun e h => by cases h

theorem raises_error {c : Fault} (h : P c) : Raises P (.error c : Except Fault α) := by
  intro e he
  cases he
  exact h

theorem Raises.map {x : Except Fault α} (h : Raises P x) (f : α → β) : Raises P (x.map f) := by
  cases x with
  | ok a => exact raises_ok _
  | error c => exact raises_error (h c rfl)

theorem Raises.bind {x : Except Fault α} (h : Raises P x) {f : α → Except Fault β}
    (hf : ∀ a, x = .ok a → Raises P (f a)) : Raises P (x >>= f) := by
  cases x with
  | ok a => exact hf a rfl
  | error c => exact raises_error (h c rfl)

theorem Raises.mono {x : Except Fault α} (h : Raises P x) (hpq : ∀ e, P e → Q e) : Raises Q x :=
  fun e he => hpq e (h e he)

theorem raises_toInt (v : Value) : Raises (·.ofValues = true) v.toInt := by
  cases v with
  | int n => exact raises_ok _
  | bool b => exact raises_ok _
  | ref a => exact raises_error rfl

theorem raises_numbers (l r : Value) : Raises (·.ofValues = true) (l.numbers r) :=
  (raises_toInt l).bind fun _ _ => (raises_toInt r).bind fun _ _ => raises_ok _

theorem raises_dividing (l r : Value) : Raises (·.ofValues = true) (l.dividing r) := by
  refine (raises_toInt r).bind fun n _ => ?_
  by_cases hn : n = 0
  · rw [if_pos hn]
    exact raises_error rfl
  · rw [if_neg hn]
    exact (raises_toInt l).bind fun _ _ => raises_ok _

theorem raises_binary (b : Binary) (l r : Value) : Raises (·.ofValues = true) (b.eval l r) := by
  cases b
  case div | mod => exact (raises_dividing l r).map _
  case eq | ne | and | or => exact raises_ok _
  all_goals exact (raises_numbers l r).map _

theorem raises_unary (u : Unary) (v : Value) : Raises (·.ofValues = true) (u.eval v) := by
  cases u
  · exact (raises_toInt v).map _
  · exact raises_ok _

theorem raises_slot (k : SlotKind) (i : Int64) (n : Nat) : Raises (·.ofValues = true) (slot k i n) := by
  unfold slot
  cases slot? i n with
  | some j => exact raises_ok _
  | none => exact raises_error rfl

theorem raises_allocSize (s : Settings) (op : Opcode) (n : Int64) :
    Raises (·.ofValues = true) (Machine.allocSize s op n) := by
  unfold Machine.allocSize
  cases Instr.place? n with
  | none => exact raises_error rfl
  | some k =>
    dsimp only
    split_ifs
    · exact raises_ok _
    · exact raises_error rfl

theorem raises_get (h : Heap) (a : Addr) : Raises (· = .noSuchObject a) (h.get a) := by
  unfold Heap.get
  cases h.get? a with
  | some o => exact raises_ok _
  | none => exact raises_error rfl

theorem raises_elemSlot (op : Opcode) (o : Obj) (i : Int64) :
    Raises (·.ofValues = true) (o.elemSlot op i) := by
  unfold Obj.elemSlot
  cases o.kind with
  | array =>
    dsimp only
    cases slot? i o.slots.length with
    | some k => exact raises_ok _
    | none => exact raises_error rfl
  | struct t => exact raises_error rfl

theorem raises_fieldSlot (op : Opcode) (o : Obj) (i : Int64) :
    Raises (·.ofValues = true) (o.fieldSlot op i) := by
  unfold Obj.fieldSlot
  cases o.kind with
  | struct t =>
    dsimp only
    cases slot? i o.slots.length with
    | some k => exact raises_ok _
    | none => exact raises_error rfl
  | array => exact raises_error rfl

theorem raises_arg (x : Instr) : Raises (· = .missingOperand x.op) x.arg := by
  unfold Instr.arg
  cases x.operand with
  | none => exact raises_error rfl
  | some n => exact raises_ok _

end Raises

/-- A computation that fails, if it does, for no structural reason. -/
def Tame {α : Type} (x : Except Fault α) : Prop := Raises (·.structural = false) x

theorem Raises.tame {α : Type} {x : Except Fault α} (h : Raises (·.ofValues = true) x) : Tame x := by
  refine h.mono fun e he => ?_
  cases e <;> simp_all [Fault.ofValues, Fault.structural]

theorem tame_get (h : Heap) (a : Addr) : Tame (h.get a) :=
  (raises_get h a).mono fun e he => by rw [he]; rfl

theorem tame_arg {x : Instr} (h : x.operand.isSome = true) : Tame x.arg := by
  unfold Instr.arg
  cases ho : x.operand with
  | none => simp [ho] at h
  | some n => exact raises_ok _

namespace Machine

/-- An operation that takes `pops` values off the stack and puts `pushes` in
their place, leaves alone what is below, and fails for no structural reason. -/
def Effect {α : Type} (pops pushes : Nat) (x : Exec α) : Prop :=
  ∀ m : Machine, pops ≤ m.stack.length → Gives x m
    (fun _ t => pushes ≤ t.stack.length ∧ t.stack.drop pushes = m.stack.drop pops)
    (fun e _ => e.structural = false)

section Effect

variable {α β : Type} {p q : Nat}

theorem effect_pure (a : α) : Effect 0 0 (pure a) := fun _ _ => ⟨Nat.zero_le _, rfl⟩

theorem effect_push (v : Value) : Effect 0 1 (push v) := fun _ _ => ⟨by simp, rfl⟩

theorem effect_print (line : String) : Effect 0 0 (print line) := fun _ _ => ⟨Nat.zero_le _, rfl⟩

theorem effect_modify {f : Machine → Machine} (h : ∀ m, (f m).stack = m.stack) :
    Effect 0 0 (modify f : Exec PUnit) := fun m _ => ⟨Nat.zero_le _, h m⟩

/-- A local that is written, or missing, changes no height. -/
theorem effect_storeLocal (i : Int64) (v : Value) : Effect 0 0 (storeLocal i v) := by
  intro m _
  simp only [storeLocal, gives_bind, gives_get, gives_lift, gives_modify]
  refine ⟨fun k _ => ⟨Nat.zero_le _, ?_⟩, (raises_slot _ _ _).tame⟩
  cases m.frames <;> rfl

/-- A slot of an object that is written, or missing, changes no height. -/
theorem effect_store {find : Obj → Except Fault Nat} (hfind : ∀ o, Tame (find o)) (a : Addr)
    (v : Value) : Effect 0 0 (inHeap (Heap.store a find v)) := by
  intro m _
  rw [gives_inHeap]
  unfold Gives
  rcases Heap.store_cases m.heap a find v with ⟨e, hs, hwhy⟩ | ⟨o, k, -, -, hs⟩
  · rw [hs]
    rcases hwhy with ⟨-, rfl⟩ | ⟨o, -, he⟩
    · rfl
    · exact hfind o e he
  · rw [hs]
    exact ⟨Nat.zero_le _, rfl⟩

/-! What goes before the rest of an operation. -/

theorem Effect.lift {x : Except Fault β} {f : β → Exec α} (hx : Tame x) (h : ∀ a, Effect p q (f a)) :
    Effect p q (liftM x >>= f) := by
  intro m hm
  rw [gives_bind, gives_lift]
  exact ⟨fun a _ => h a m hm, hx⟩

theorem Effect.get {f : Machine → Exec α} (h : ∀ m, Effect p q (f m)) :
    Effect p q (get >>= f) := fun m hm => h m m hm

theorem Effect.alloc {o : Obj} {f : Value → Exec α} (h : ∀ v, Effect p q (f v)) :
    Effect p q (alloc o >>= f) := fun m hm => h _ { m with heap := m.heap.alloc o } hm

theorem Effect.pop {op : Opcode} {f : Value → Exec α} (h : ∀ v, Effect p q (f v)) :
    Effect (p + 1) q (pop op >>= f) := by
  intro m hm
  obtain ⟨v, vs, hst⟩ := List.exists_cons_of_length_pos (l := m.stack) (by omega)
  rw [hst, List.length_cons] at hm
  have hrest := h v { m with stack := vs } (Nat.le_of_succ_le_succ hm)
  unfold Gives at hrest ⊢
  rw [bind_of_ok (pop_cons hst op), hst]
  exact hrest

theorem Effect.peek {op : Opcode} {f : Value → Exec α} (h : ∀ v, Effect p q (f v)) :
    Effect (p + 1) (q + 1) (peek op >>= f) := by
  intro m hm
  obtain ⟨v, vs, hst⟩ := List.exists_cons_of_length_pos (l := m.stack) (by omega)
  have hpeek : Machine.peek op m = .ok v m := by simp only [Machine.peek, hst]
  have hrest := h v m (by omega)
  unfold Gives at hrest ⊢
  rw [bind_of_ok hpeek]
  cases hr : f v m with
  | error e t =>
    rw [hr] at hrest
    exact hrest
  | ok a t =>
    rw [hr] at hrest
    obtain ⟨hpushes, hdrop⟩ := hrest
    have hlen := congrArg List.length hdrop
    rw [List.length_drop, List.length_drop] at hlen
    refine ⟨by omega, ?_⟩
    rw [← List.drop_drop, hdrop, List.drop_drop]

theorem Effect.popInt {op : Opcode} {f : Int64 → Exec α} (h : ∀ n, Effect p q (f n)) :
    Effect (p + 1) q (popInt op >>= f) := by
  unfold Machine.popInt
  rw [bind_assoc]
  exact .pop fun v => .lift (raises_toInt v).tame h

theorem Effect.popRef {op : Opcode} {f : Addr → Exec α} (h : ∀ a, Effect p q (f a)) :
    Effect (p + 1) q (popRef op >>= f) := by
  unfold Machine.popRef
  rw [bind_assoc]
  refine .pop fun v => ?_
  cases v.addr? with
  | none => exact fun m _ => rfl
  | some a => exact h a

end Effect

/-- **The table of effects is right.** An instruction that moves data, with its
operand, takes from the stack and puts there what the table says. -/
theorem exec_effect {s : Settings} {x : Instr} {pops pushes : Nat} (hd : x.op.movesData = true)
    (ho : x.op.needsOperand = true → x.operand.isSome = true)
    (he : Instr.fixedEffect x.op = some (pops, pushes)) : Effect pops pushes (exec s x) := by
  unfold exec
  cases hop : x.op <;> rw [hop] at he ho hd
  case jump | call | ret | retVoid | halt => cases hd
  all_goals cases he
  case pushInt => exact .lift (tame_arg (ho rfl)) fun n => effect_push _
  case pushBool => exact effect_push _
  case pop => exact .pop fun v => effect_pure _
  case dup => exact .peek fun v => effect_push v
  case binary b => exact .pop fun r => .pop fun l => .lift (raises_binary b l r).tame effect_push
  case unary u => exact .pop fun v => .lift (raises_unary u v).tame effect_push
  case loadLocal | loadGlobal =>
    refine .lift (tame_arg (ho rfl)) fun n => ?_
    simp only [loadLocal, loadGlobal, bind_assoc, pure_bind]
    exact .get fun m => .lift (raises_slot _ _ _).tame fun k => effect_push _
  case storeLocal =>
    exact .lift (tame_arg (ho rfl)) fun n => .pop fun v => effect_storeLocal n v
  case storeGlobal =>
    exact .lift (tame_arg (ho rfl)) fun n => .pop fun v =>
      .lift (raises_slot _ _ _).tame fun k => effect_modify fun m => rfl
  case allocArray =>
    simp only [allocArray, bind_assoc]
    exact .popInt fun n => .lift (raises_allocSize _ _ _).tame fun k => .alloc effect_push
  case allocStruct | new =>
    simp only [allocStruct, bind_assoc]
    exact .lift (tame_arg (ho rfl)) fun t => .popInt fun n =>
      .lift (raises_allocSize _ _ _).tame fun k => .alloc effect_push
  case loadElem =>
    exact .popInt fun k => .popRef fun a => .get fun m => .lift (tame_get _ _) fun o =>
      .lift ((raises_elemSlot _ o k).map _).tame effect_push
  case loadField =>
    exact .lift (tame_arg (ho rfl)) fun k => .popRef fun a => .get fun m =>
      .lift (tame_get _ _) fun o => .lift ((raises_fieldSlot _ o k).map _).tame effect_push
  case storeElem =>
    exact .pop fun v => .popInt fun k => .popRef fun a =>
      effect_store (fun o => (raises_elemSlot _ o k).tame) a v
  case storeField =>
    exact .lift (tame_arg (ho rfl)) fun k => .pop fun v => .popRef fun a =>
      effect_store (fun o => (raises_fieldSlot _ o k).tame) a v
  case printInt => exact .popInt fun n => effect_print _
  case printBool => exact .pop fun v => effect_print _

end Machine

/-! ### Operations that keep a relation -/

/-- Both went through with the same result, or both failed with the same fault,
and the states are related. -/
inductive SameResult {ε σ τ α : Type} (R : σ → τ → Prop) :
    EStateM.Result ε σ α → EStateM.Result ε τ α → Prop
  | ok {s : σ} {t : τ} (a : α) : R s t → SameResult R (.ok a s) (.ok a t)
  | error {s : σ} {t : τ} (e : ε) : R s t → SameResult R (.error e s) (.error e t)

/-- Two operations that do the same from related states, and keep them
related. -/
def Alike {ε σ τ α : Type} (R : σ → τ → Prop) (x : EStateM ε σ α) (y : EStateM ε τ α) : Prop :=
  ∀ s t, R s t → SameResult R (x s) (y t)

section Alike

variable {ε σ τ α β : Type} {R : σ → τ → Prop}

theorem alike_pure (a : α) : Alike R (pure a : EStateM ε σ α) (pure a) := fun _ _ h => .ok a h

theorem alike_throw (e : ε) : Alike R (throw e : EStateM ε σ α) (throw e) := fun _ _ h => .error e h

theorem Alike.bind {x : EStateM ε σ α} {y : EStateM ε τ α} (h : Alike R x y)
    {f : α → EStateM ε σ β} {g : α → EStateM ε τ β} (hf : ∀ a, Alike R (f a) (g a)) :
    Alike R (x >>= f) (y >>= g) := by
  intro s t hst
  have hxy := h s t hst
  simp only [Bind.bind, EStateM.bind]
  generalize x s = rx, y t = ry at hxy
  cases hxy with
  | ok a h' => exact hf a _ _ h'
  | error e h' => exact .error e h'

theorem alike_lift (x : Except Fault α) :
    Alike R (liftM x : EStateM Fault σ α) (liftM x : EStateM Fault τ α) := by
  intro s t h
  cases x with
  | ok a => exact .ok a h
  | error e => exact .error e h

theorem alike_modify {f : σ → σ} {g : τ → τ} (h : ∀ s t, R s t → R (f s) (g t)) :
    Alike R (modify f : EStateM ε σ PUnit) (modify g) :=
  fun s t hst => .ok _ (h s t hst)

/-- Operations that read their states. -/
theorem alike_get {f : σ → EStateM ε σ α} {g : τ → EStateM ε τ α}
    (h : ∀ s t, R s t → SameResult R (f s s) (g t t)) : Alike R (get >>= f) (get >>= g) :=
  fun s t hst => h s t hst

end Alike

end StackMachine
