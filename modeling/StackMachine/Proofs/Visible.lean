/-
# What can be seen of a machine

Two machines are the same to a program if they differ only in the place they
are at, in where their frames return to, and in how many calls compiled code
has served (`Machine.Same`). Instructions that move data cannot tell them apart
(`Machine.exec_same`), and neither can a collection (`Machine.Same.maybeCollect`)
or the beginning and the end of a call (`Machine.Same.enter`,
`Machine.Same.leave`).
-/
import Mathlib
import StackMachine.Proofs.Operations

namespace StackMachine

/-- A frame but for where it returns to; whether it returns stays. -/
def Frame.visible (f : Frame) : Frame := { f with returnIp := f.returnIp.map fun _ => 0 }

namespace Machine

/-- A machine but for where it is, where its frames return to, and the number of
calls that compiled code has served. -/
def visible (m : Machine) : Machine :=
  { m with ip := 0, compiledCalls := 0, frames := m.frames.map Frame.visible }

/-- The same machine, as far as a program can see. -/
def Same (m n : Machine) : Prop := m.visible = n.visible

namespace Same

variable {m n : Machine}

theorem view {α : Type} (h : Same m n) (f : Machine → α) : f m.visible = f n.visible := congrArg f h

theorem stack (h : Same m n) : m.stack = n.stack := h.view Machine.stack

theorem globals (h : Same m n) : m.globals = n.globals := h.view Machine.globals

theorem heap (h : Same m n) : m.heap = n.heap := h.view Machine.heap

theorem collector (h : Same m n) : m.collector = n.collector := h.view Machine.collector

theorem stop (h : Same m n) : m.stop = n.stop := h.view Machine.stop

theorem output (h : Same m n) : m.output = n.output := h.view Machine.output

theorem frames (h : Same m n) : m.frames.map Frame.visible = n.frames.map Frame.visible :=
  congrArg Machine.frames h

/-- The innermost frames, if there are any. -/
theorem frames_cases (h : Same m n) : m.frames = [] ∧ n.frames = [] ∨
    ∃ f fs g gs, m.frames = f :: fs ∧ n.frames = g :: gs ∧ f.visible = g.visible ∧
      fs.map Frame.visible = gs.map Frame.visible := by
  have hf := h.frames
  cases hm : m.frames with
  | nil =>
    rw [hm] at hf
    exact Or.inl ⟨rfl, List.map_eq_nil_iff.mp hf.symm⟩
  | cons f fs =>
    cases hn : n.frames with
    | nil => rw [hm, hn] at hf; cases hf
    | cons g gs =>
      rw [hm, hn, List.map_cons, List.map_cons, List.cons.injEq] at hf
      exact Or.inr ⟨f, fs, g, gs, rfl, rfl, hf⟩

theorem locals (h : Same m n) : m.locals = n.locals := by
  rcases h.frames_cases with ⟨hm, hn⟩ | ⟨f, fs, g, gs, hm, hn, hfg, -⟩
  · simp [Machine.locals, hm, hn]
  · simp only [Machine.locals, hm, hn]
    have := congrArg Frame.locals hfg
    exact this

/-- A change that has nothing to do with what cannot be seen. -/
theorem update (h : Same m n) (f : Machine → Machine) (hf : ∀ k, (f k).visible = f k.visible) :
    Same (f m) (f n) := by
  unfold Same
  rw [hf, hf, h]

theorem withStack (h : Same m n) (st : List Value) :
    Same { m with stack := st } { n with stack := st } :=
  h.update (fun k => { k with stack := st }) fun _ => rfl

theorem withStop (h : Same m n) (st : Option Stop) :
    Same { m with stop := st } { n with stop := st } :=
  h.update (fun k => { k with stop := st }) fun _ => rfl

theorem withIp (h : Same m n) (i j : Nat) : Same { m with ip := i } { n with ip := j } := h

/-- Frames that look the same may be put in place of the old ones. -/
theorem withFrames (h : Same m n) {fs gs : List Frame}
    (hf : fs.map Frame.visible = gs.map Frame.visible) :
    Same { m with frames := fs } { n with frames := gs } := by
  have := congrArg (fun k : Machine => { k with frames := fs.map Frame.visible }) h
  unfold Same
  simpa only [visible, hf] using this

end Same

/-! ### Instructions that move data -/

theorem push_same (v : Value) : Alike Same (push v) (push v) := by
  intro m n h
  refine .ok () (h.update (fun k => { k with stack := v :: k.stack }) fun _ => rfl)

theorem pop_same (op : Opcode) : Alike Same (pop op) (pop op) := by
  intro m n h
  unfold pop
  rw [← h.stack]
  cases m.stack with
  | nil => exact .error _ h
  | cons v vs => exact .ok v (h.withStack vs)

theorem peek_same (op : Opcode) : Alike Same (peek op) (peek op) := by
  intro m n h
  unfold peek
  rw [← h.stack]
  cases m.stack with
  | nil => exact .error _ h
  | cons v vs => exact .ok v h

theorem popInt_same (op : Opcode) : Alike Same (popInt op) (popInt op) :=
  (pop_same op).bind fun _ => alike_lift _

theorem popRef_same (op : Opcode) : Alike Same (popRef op) (popRef op) := by
  refine (pop_same op).bind fun v => ?_
  cases v.addr? with
  | some a => exact alike_pure a
  | none => exact alike_throw _

theorem loadLocal_same (i : Int64) : Alike Same (loadLocal i) (loadLocal i) := by
  refine alike_get fun m n h => ?_
  rw [h.locals]
  exact ((alike_lift _).bind fun _ => alike_pure _) m n h

theorem storeLocal_same (i : Int64) (v : Value) : Alike Same (storeLocal i v) (storeLocal i v) := by
  refine alike_get fun m n h => ?_
  rw [h.locals]
  refine ((alike_lift _).bind fun k => alike_modify fun m n h => ?_) m n h
  rcases h.frames_cases with ⟨hm, hn⟩ | ⟨f, fs, g, gs, hm, hn, hfg, hfs⟩
  · rw [hm, hn]
    exact h
  · rw [hm, hn]
    refine h.withFrames ?_
    have := congrArg (fun f : Frame => { f with locals := f.locals.set k v }) hfg
    rw [List.map_cons, List.map_cons, hfs]
    exact congrArg (· :: _) this

theorem loadGlobal_same (i : Int64) : Alike Same (loadGlobal i) (loadGlobal i) := by
  refine alike_get fun m n h => ?_
  rw [h.globals]
  exact ((alike_lift _).bind fun _ => alike_pure _) m n h

theorem storeGlobal_same (s : Settings) (i : Int64) (v : Value) :
    Alike Same (storeGlobal s i v) (storeGlobal s i v) := by
  refine (alike_lift _).bind fun k => alike_modify fun m n h => ?_
  exact h.update (fun m => { m with globals := setGrowing m.globals k v }) fun _ => rfl

theorem alloc_same (o : Obj) : Alike Same (alloc o) (alloc o) := by
  intro m n h
  unfold alloc
  rw [h.heap]
  exact .ok _ (h.update (fun k => { k with heap := n.heap.alloc o }) fun _ => rfl)

theorem print_same (line : String) : Alike Same (print line) (print line) := fun _ _ h =>
  .ok () (h.update (fun k => { k with output := k.output.push line }) fun _ => rfl)

theorem inHeap_same {α : Type} (x : EStateM Fault Heap α) : Alike Same (inHeap x) (inHeap x) := by
  intro m n h
  unfold inHeap
  rw [h.heap]
  cases x n.heap with
  | ok a heap => exact .ok a (h.update (fun m => { m with heap }) fun _ => rfl)
  | error e heap => exact .error e (h.update (fun m => { m with heap }) fun _ => rfl)

/-- **Instructions that move data do the same to machines that look the same.** -/
theorem exec_same (s : Settings) (x : Instr) : Alike Same (exec s x) (exec s x) := by
  unfold exec
  cases x.op with
  | pushInt => exact (alike_lift _).bind fun _ => push_same _
  | pushBool b => exact push_same _
  | pop => exact (pop_same _).bind fun _ => alike_pure _
  | dup => exact (peek_same _).bind fun _ => push_same _
  | binary b =>
    exact (pop_same _).bind fun _ => (pop_same _).bind fun _ => (alike_lift _).bind fun _ => push_same _
  | unary u => exact (pop_same _).bind fun _ => (alike_lift _).bind fun _ => push_same _
  | loadLocal => exact (alike_lift _).bind fun _ => (loadLocal_same _).bind fun _ => push_same _
  | storeLocal => exact (alike_lift _).bind fun _ => (pop_same _).bind fun _ => storeLocal_same _ _
  | loadGlobal => exact (alike_lift _).bind fun _ => (loadGlobal_same _).bind fun _ => push_same _
  | storeGlobal => exact (alike_lift _).bind fun _ => (pop_same _).bind fun _ => storeGlobal_same _ _ _
  | allocArray =>
    exact (popInt_same _).bind fun _ =>
      ((alike_lift _).bind fun _ => alloc_same _).bind fun _ => push_same _
  | allocStruct | new =>
    exact (alike_lift _).bind fun _ => (popInt_same _).bind fun _ =>
      ((alike_lift _).bind fun _ => alloc_same _).bind fun _ => push_same _
  | loadElem =>
    refine (popInt_same _).bind fun _ => (popRef_same _).bind fun _ => alike_get fun m n h => ?_
    rw [h.heap]
    exact ((alike_lift _).bind fun _ => (alike_lift _).bind fun _ => push_same _) m n h
  | storeElem =>
    exact (pop_same _).bind fun _ => (popInt_same _).bind fun _ => (popRef_same _).bind fun _ =>
      inHeap_same _
  | loadField =>
    refine (alike_lift _).bind fun _ => (popRef_same _).bind fun _ => alike_get fun m n h => ?_
    rw [h.heap]
    exact ((alike_lift _).bind fun _ => (alike_lift _).bind fun _ => push_same _) m n h
  | storeField =>
    exact (alike_lift _).bind fun _ => (pop_same _).bind fun _ => (popRef_same _).bind fun _ =>
      inHeap_same _
  | printInt => exact (popInt_same _).bind fun _ => print_same _
  | printBool => exact (pop_same _).bind fun _ => print_same _
  | jump | call | ret | retVoid | halt => exact alike_throw _

/-! ### Collections, calls and returns -/

theorem flatMap_locals_visible (fs : List Frame) :
    (fs.map Frame.visible).flatMap Frame.locals = fs.flatMap Frame.locals := by
  rw [List.flatMap_map]
  rfl

theorem Same.roots {m n : Machine} (h : Same m n) : m.roots = n.roots := by
  unfold Machine.roots
  rw [h.stack, h.globals, ← flatMap_locals_visible m.frames, h.frames, flatMap_locals_visible]

theorem Same.maybeCollect {m n : Machine} (h : Same m n) (s : Settings) :
    Same (m.maybeCollect s) (n.maybeCollect s) := by
  unfold Machine.maybeCollect Machine.collect
  rw [h.heap, h.collector, h.roots]
  split_ifs
  · exact h.update (fun k =>
      { k with
        heap := (n.collector.collect n.heap n.roots).1
        collector := (n.collector.collect n.heap n.roots).2.1 }) fun _ => rfl
  · exact h

/-- A collection leaves control alone. -/
theorem outline_maybeCollect (s : Settings) (m : Machine) :
    (m.maybeCollect s).outline = m.outline := by
  unfold maybeCollect
  split_ifs <;> rfl

/-- A call begins in the same way, wherever it is to return to. -/
theorem Same.enter {m n : Machine} (h : Same m n) (p : Program) (f i j : Nat) :
    SameResult Same (Machine.enter p f i m) (Machine.enter p f j n) := by
  unfold Machine.enter
  cases p.functions[f]? with
  | none => exact .error _ h
  | some g =>
    dsimp only
    rw [h.stack]
    split_ifs with hlt
    · exact .error _ h
    · refine .ok _ ((h.withStack _).withFrames ?_)
      rw [List.map_cons, List.map_cons, h.frames]
      rfl

/-- A call ends in the same way. -/
theorem Same.leave {m n : Machine} (h : Same m n) {f g : Frame} {fs gs : List Frame}
    (hm : m.frames = f :: fs) (hn : n.frames = g :: gs) (v : Option Value) (i j : Nat) :
    Same
      { m with ip := i, frames := fs, stack := v.toList ++ m.stack.drop (m.stack.length - f.base) }
      { n with ip := j, frames := gs, stack := v.toList ++ n.stack.drop (n.stack.length - g.base) } := by
  have hf := h.frames
  rw [hm, hn, List.map_cons, List.map_cons, List.cons.injEq] at hf
  have hbase : f.base = g.base := by
    have := congrArg Frame.base hf.1
    exact this
  rw [h.stack, hbase]
  exact ((h.withStack _).withFrames hf.2).withIp i j

end Machine
end StackMachine
