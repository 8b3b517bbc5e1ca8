/-
# What instructions that transfer control do

The instructions of the stream and of integrated code, by opcode, and what a
run makes of them: a step is what the instruction does (`Machine.interpret`,
`Machine.integrated`), followed by where control then goes
(`Run.afterInterpret`, `Run.afterIntegrated`). A call that ends lets the tasks
around it go on (`Task.resumed`), or, once the run has stopped, ends them all.
-/
import Mathlib
import StackMachine.Run
import StackMachine.Proofs.Bodies
import StackMachine.Proofs.Operations

namespace StackMachine
namespace Machine

variable {env : Env} {x : Instr} {m : Machine}

/-! ### Instructions by opcode -/

theorem interpret_data (hd : x.op.movesData = true) :
    interpret env x = do exec env.settings x; return .next := by
  unfold interpret
  cases hop : x.op
  case jump | call | ret | retVoid | halt => rw [hop] at hd; cases hd
  all_goals rfl

theorem integrated_data {func : Nat} (hd : x.op.movesData = true) :
    integrated env func x = do exec env.settings x; return .next := by
  unfold integrated
  cases hop : x.op
  case jump | call | ret | retVoid | halt => rw [hop] at hd; cases hd
  all_goals rfl

theorem branch_on (op : Opcode) (b : Bool) (t : Nat) :
    branch op (.on b) t =
      (pop op >>= fun v => pure (if v.truth = b then .jump t else .next)) := rfl

theorem interpret_jump {w : Branch} {t : Nat} (hop : x.op = .jump w)
    (ht : jumpTarget env.program x = .ok t) : interpret env x m = branch x.op w t m := by
  unfold interpret
  rw [hop]
  simp only [ht]
  rfl

theorem interpret_badJump {w : Branch} {e : Fault} (hop : x.op = .jump w)
    (ht : jumpTarget env.program x = .error e) : interpret env x m = .error e m := by
  unfold interpret
  rw [hop]
  simp only [ht]
  rfl

/-- A jump of a body that passed the check lands where the body says. -/
theorem interpret_based {i t h : Nat} {f : Function} {code : Code} {heights : List (Option Nat)}
    {peak : Nat} {w : Branch} {n : Int64} (hfits : env.program.Fits)
    (hv : env.program.Verified i f code heights peak) (hop : x.op = .jump w)
    (hn : x.operand = some n) (ht : Instr.place? n = some t)
    (hland : heights[t]? = some (some h)) :
    interpret env (x.based f.entry) m = branch x.op w (f.entry + t) m := by
  have hinside : f.entry + t ≤ env.program.size := (hv.add_lt_size hland).le
  have htarget := jumpTarget_based hfits (by rw [hop]; rfl) hn ht hinside
  rw [interpret_jump (by rw [Instr.op_based, hop]) htarget, Instr.op_based]

theorem integrated_jump {func : Nat} {w : Branch} {n : Int64} {t : Nat} (hop : x.op = .jump w)
    (hn : x.operand = some n) (ht : Instr.place? n = some t) :
    integrated env func x m = branch x.op w t m := by
  unfold integrated
  rw [hop]
  simp only [hn, Option.getD_some, ht]

theorem interpret_call {k : Nat} (hop : x.op = .call) (hk : callee env.program x = .ok k) :
    interpret env x m = .ok (.call k) m := by
  unfold interpret
  rw [hop]
  simp only [hk]
  rfl

theorem interpret_badCall {e : Fault} (hop : x.op = .call)
    (hk : callee env.program x = .error e) : interpret env x m = .error e m := by
  unfold interpret
  rw [hop]
  simp only [hk]
  rfl

theorem integrated_call {func : Nat} {n : Int64} {k : Nat} (hop : x.op = .call)
    (hn : x.operand = some n) (hk : Instr.place? n = some k) :
    integrated env func x m = .ok (.call k) m := by
  unfold integrated
  rw [hop]
  simp only [hn, Option.getD_some, hk]
  rfl

theorem callee_ok {p : Program} {n : Int64} {k : Nat} {g : Function} (hn : x.operand = some n)
    (hk : Instr.place? n = some k) (hg : p.functions[k]? = some g) : callee p x = .ok k := by
  have hlt : k < p.functions.length := (List.getElem?_eq_some_iff.mp hg).1
  have hs : slot? n p.functions.length = some k := by simp [slot?, hk, Option.filter, hlt]
  simp [callee, Instr.arg, hn, hs, bind, Except.bind, pure, Except.pure]

theorem interpret_halt (hop : x.op = .halt) :
    interpret env x m = .ok .stop { m with stop := some (.halted none) } := by
  unfold interpret
  rw [hop]
  rfl

theorem interpret_ret (hop : x.op = .ret) :
    interpret env x = (pop .ret >>= fun v => returnWith .ret (some v)) := by
  unfold interpret
  rw [hop]

theorem interpret_retVoid (hop : x.op = .retVoid) :
    interpret env x = returnWith .retVoid none := by
  unfold interpret
  rw [hop]

theorem integrated_ret {func : Nat} (hop : x.op = .ret) :
    integrated env func x =
      (pop .ret >>= fun v => leave .ret (some v) >>= fun _ => pure .returned) := by
  unfold integrated
  rw [hop]

theorem integrated_retVoid {func : Nat} (hop : x.op = .retVoid) :
    integrated env func x = (leave .retVoid none >>= fun _ => pure .returned) := by
  unfold integrated
  rw [hop]

/-! ### Calls and returns -/

/-- How a call begins. -/
theorem enter_eq {p : Program} {func ret : Nat} {f : Function} (hf : p.functions[func]? = some f) :
    enter p func ret m =
      if m.stack.length < f.arity then .error (.stackUnderflow .call) m
      else .ok f.entry { m with
        stack := m.stack.drop f.arity
        frames := ⟨some func, some ret, (m.stack.drop f.arity).length,
          (m.stack.take f.arity).reverse ++ Value.zeros (f.frameSize - f.arity)⟩ :: m.frames } := by
  unfold enter
  rw [hf]

theorem leave_cons {op : Opcode} {v : Option Value} {f : Frame} {fs : List Frame}
    (hm : m.frames = f :: fs) :
    leave op v m = .ok f { m with
      frames := fs, stack := v.toList ++ m.stack.drop (m.stack.length - f.base) } := by
  unfold leave
  rw [hm]

/-- A return from the outermost frame stops the run. -/
theorem returnWith_none {op : Opcode} {v : Option Value} {f : Frame} {fs : List Frame}
    (hm : m.frames = f :: fs) (hf : f.returnIp = none) :
    returnWith op v m = .ok .stop { m with frames := fs, stop := some (.halted v) } := by
  obtain ⟨func, ret, base, ls⟩ := f
  obtain rfl : ret = none := hf
  unfold returnWith
  rw [hm]

/-- A return from any other frame leaves it. -/
theorem returnWith_some {op : Opcode} {v : Option Value} {f : Frame} {fs : List Frame} {ret : Nat}
    (hm : m.frames = f :: fs) (hf : f.returnIp = some ret) :
    returnWith op v m = .ok .returned { m with
      ip := ret, frames := fs, stack := v.toList ++ m.stack.drop (m.stack.length - f.base) } := by
  obtain ⟨func, r, base, ls⟩ := f
  obtain rfl : r = some ret := hf
  unfold returnWith
  rw [hm]
  simp only [leave, hm, Option.getD_some]

end Machine

/-! ### Tasks -/

/-- What is left to do, and the place, when a call has ended. -/
def Task.resumed : List Task → Nat → List Task × Nat
  | .integrated b pc :: ts, ip => (.integrated b (pc + 1) :: ts, ip)
  | .isolated b pc c :: ts, ip => (.isolated b (pc + 1) c :: ts, ip)
  | ts, ip => (ts, ip + 1)

namespace Run

variable {σ : Type} {env : Env} {hooks : Hooks σ}

theorem resume_running {m : Machine} {s : σ} {ts : List Task} (hm : m.stop = none) (ht : ts ≠ []) :
    resume m s ts = .running
      ⟨{ m with ip := (Task.resumed ts m.ip).2 }, s, (Task.resumed ts m.ip).1⟩ := by
  cases ts with
  | nil => exact absurd rfl ht
  | cons t ts =>
    have hs : m.stopped = false := by simp [Machine.stopped, hm]
    unfold resume
    rw [hs]
    cases t <;> rfl

/-- Once the run has stopped, all tasks end. -/
theorem resume_stopped {m : Machine} {s : σ} {ts : List Task} (hm : m.stop.isSome = true) :
    ∃ ip, resume m s ts = .ended ⟨none, { m with ip }, s⟩ := by
  induction ts generalizing m with
  | nil => exact ⟨m.ip, rfl⟩
  | cons t ts ih =>
    unfold resume
    rw [if_pos (show m.stopped = true from hm)]
    cases t with
    | interpret d back =>
      cases back with
      | none => exact ih hm
      | some ip => exact ih (m := { m with ip }) hm
    | integrated b pc => exact ih hm
    | isolated b pc c => exact ih hm

theorem restore_stopped {m : Machine} (hm : m.stop.isSome = true) (s : σ) (t : Task)
    (ts : List Task) : ∃ ip, resume (t.restore m) s ts = .ended ⟨none, { m with ip }, s⟩ := by
  rcases t with ⟨d, _ | ip⟩ | ⟨b, pc⟩ | ⟨b, pc, c⟩
  · exact resume_stopped hm
  · exact resume_stopped (m := { m with ip }) hm
  · exact resume_stopped hm
  · exact resume_stopped hm

/-- Where control goes after an instruction of the stream. -/
def afterInterpret (env : Env) (hooks : Hooks σ) (s : σ) (depth : Nat) (back : Option Nat)
    (around : List Task) : EStateM.Result Fault Machine Flow → Progress σ
  | .error e m => fail env ⟨m, s, .interpret depth back :: around⟩ e
  | .ok .next m => .running ⟨{ m with ip := m.ip + 1 }, s, .interpret depth back :: around⟩
  | .ok (.jump t) m => .running ⟨{ m with ip := t }, s, .interpret depth back :: around⟩
  | .ok (.call f) m => callFromStream env hooks ⟨m, s, .interpret depth back :: around⟩ f
  | .ok .returned m =>
    if m.frames.length ≤ depth then resume ((Task.interpret depth back).restore m) s around
    else .running ⟨m, s, .interpret depth back :: around⟩
  | .ok .stop m => resume ((Task.interpret depth back).restore m) s around

theorem step_interpret {m : Machine} {s : σ} {depth : Nat} {back : Option Nat} {around : List Task}
    {x : Instr} (hm : m.stop = none)
    (hx : env.program.code[(m.maybeCollect env.settings).ip]? = some x) :
    step env hooks ⟨m, s, .interpret depth back :: around⟩ =
      afterInterpret env hooks s depth back around
        (Machine.interpret env x (m.maybeCollect env.settings)) := by
  have hs : m.stopped = false := by simp [Machine.stopped, hm]
  simp only [step, stepInterpret, hs, hx, Bool.false_eq_true, ↓reduceIte]
  rcases Machine.interpret env x (m.maybeCollect env.settings) with ⟨fl, n⟩ | ⟨e, n⟩
  · cases fl <;> rfl
  · rfl

/-- A stream that has run out stops the run. -/
theorem step_ranOut {m : Machine} {s : σ} {depth : Nat} {back : Option Nat} {around : List Task}
    (hm : m.stop = none) (hx : env.program.code[(m.maybeCollect env.settings).ip]? = none) :
    step env hooks ⟨m, s, .interpret depth back :: around⟩ =
      resume ((Task.interpret depth back).restore
        { m.maybeCollect env.settings with stop := some .ranOut }) s around := by
  have hs : m.stopped = false := by simp [Machine.stopped, hm]
  simp only [step, stepInterpret, hs, hx, Bool.false_eq_true, ↓reduceIte]

/-- Where control goes after an instruction of integrated code. -/
def afterIntegrated (env : Env) (hooks : Hooks σ) (s : σ) (b : CompiledBody) (pc : Nat)
    (around : List Task) : EStateM.Result Fault Machine Flow → Progress σ
  | .error e m => fail env ⟨m, s, .integrated b pc :: around⟩ e
  | .ok .next m => .running ⟨m, s, .integrated b (pc + 1) :: around⟩
  | .ok (.jump t) m => .running ⟨m, s, .integrated b t :: around⟩
  | .ok (.call f) m => call env hooks ⟨m, s, .integrated b pc :: around⟩ f
  | .ok .returned m => resume m s around
  | .ok .stop m => resume m s around

theorem step_integrated {m : Machine} {s : σ} {b : CompiledBody} {pc : Nat} {around : List Task}
    {x : Instr} (hx : b.code[pc]? = some x) :
    step env hooks ⟨m, s, .integrated b pc :: around⟩ =
      afterIntegrated env hooks s b pc around
        (Machine.integrated env b.func x (m.maybeCollect env.settings)) := by
  simp only [step, stepIntegrated, hx]
  rcases Machine.integrated env b.func x (m.maybeCollect env.settings) with ⟨fl, n⟩ | ⟨e, n⟩
  · cases fl <;> rfl
  · rfl

/-! ### Interpreting alone -/

/-- The run that interprets the stream on a machine, with no hooks. -/
abbrev plain (m : Machine) : Run Unit := ⟨m, (), [.interpret 0 none]⟩

/-- Where a call that is not served goes. -/
def afterEnter (env : Env) (ts : List Task) : EStateM.Result Fault Machine Nat → Progress Unit
  | .error e m => fail env ⟨m, (), ts⟩ e
  | .ok start m => .running ⟨{ m with ip := start }, (), ts⟩

theorem callFromStream_none (m : Machine) (ts : List Task) (k : Nat) :
    callFromStream env Hooks.none ⟨m, (), ts⟩ k =
      afterEnter env ts (Machine.enter env.program k (m.ip + 1) m) := by
  simp only [callFromStream, Hooks.none]
  cases Machine.enter env.program k (m.ip + 1) m <;> rfl

/-- The plain run returns from a frame that is not its outermost one. -/
theorem return_plain {n : Machine} {op : Opcode} {v : Option Value} {g : Frame} {gs : List Frame}
    {ret : Nat} (hn : n.frames = g :: gs) (hg : g.returnIp = some ret) (hgs : gs ≠ []) :
    afterInterpret env Hooks.none () 0 none [] (Machine.returnWith op v n) =
      .running (plain { n with ip := ret, frames := gs
                               stack := v.toList ++ n.stack.drop (n.stack.length - g.base) }) := by
  rw [Machine.returnWith_some hn hg]
  have hpos : ¬ gs.length ≤ 0 := by
    have := List.length_pos_iff.mpr hgs
    omega
  simp only [afterInterpret, if_neg hpos]

end Run

end StackMachine
