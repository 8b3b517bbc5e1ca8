/-
# Integrated code is transparent

A run in which compiled code serves any of the calls, at any time, and a run in
which every call is interpreted go in step: each instruction of compiled code is
an instruction of the stream, at the same point of the run. So one ends if and
only if the other does, with the same result, or the same fault at the same
place, and with machines that look the same (`integrated_transparent`).

The two runs keep their frames in the same order, but the frames return to
different places: where compiled code calls, the frame of the callee returns to
nowhere in particular, and a task of its own remembers where to go on. What ties
the runs together is that a frame of the plain run returns to the place where,
in the other run, the tasks around the call go on (`Layers`).
-/
import Mathlib
import StackMachine.Proofs.Compilation
import StackMachine.Proofs.Control
import StackMachine.Proofs.Runs
import StackMachine.Proofs.Visible

namespace StackMachine

/-- Compiled code that may serve a call of a function: what compiling it gives,
where it comes to an end by returning alone. -/
def Env.Serving (env : Env) (i : Nat) (a : Artifact) : Prop :=
  env.program.compile env.settings i = .ok a ∧ env.program.Returning i

namespace Transparency

open Machine (Same ip_of_outline stop_of_outline)
open Run (plain return_plain)

variable {σ : Type} {env : Env} {hooks : Hooks σ}

/-! ### The two runs -/

/-- A run at the place `ip` with these tasks, whose frames return to `rs`, and a
plain run at the place `loc` whose frames return to `rs'`. The frames of a layer
are those its task has entered; below its first frame, the tasks around it go on
where the plain run returns to. -/
inductive Layers (p : Program) :
    List Task → (ip : Nat) → (rs rs' : List (Option Nat)) → (loc : Nat) → Prop
  | stream {ip : Nat} {rs : List (Option Nat)} : rs ≠ [] → Layers p [.interpret 0 none] ip rs rs ip
  | nested {ts : List Task} {ip back x ret : Nat} {rs rs' : List (Option Nat)}
      (seg : List (Option Nat)) :
      Layers p (Task.resumed ts back).1 (Task.resumed ts back).2 rs rs' ret →
      Layers p (.interpret rs.length (some back) :: ts) ip (seg ++ some x :: rs)
        (seg ++ some ret :: rs') ip
  | code {ts : List Task} {ip x ret pc h peak : Nat} {rs rs' : List (Option Nat)} {b : CompiledBody}
      {f : Function} {heights : List (Option Nat)} :
      p.Plain b f heights peak → p.Returning b.func → heights[pc]? = some (some h) →
      Layers p (Task.resumed ts ip).1 (Task.resumed ts ip).2 rs rs' ret →
      Layers p (.integrated b pc :: ts) ip (some x :: rs) (some ret :: rs') (f.entry + pc)

theorem Layers.ne_nil {p : Program} {ts : List Task} {ip loc : Nat} {rs rs' : List (Option Nat)}
    (h : Layers p ts ip rs rs' loc) : rs' ≠ [] := by
  cases h with
  | stream h => exact h
  | nested seg _ => simp
  | code _ _ _ _ => simp

theorem Layers.tasks_ne_nil {p : Program} {ts : List Task} {ip loc : Nat}
    {rs rs' : List (Option Nat)}
    (h : Layers p (Task.resumed ts ip).1 (Task.resumed ts ip).2 rs rs' loc) : ts ≠ [] := by
  rintro rfl
  cases h

/-- A task that interprets may go to any place, as the plain run does. -/
theorem Layers.goto {p : Program} {ts : List Task} {depth ip loc : Nat} {back : Option Nat}
    {rs rs' : List (Option Nat)} (h : Layers p (.interpret depth back :: ts) ip rs rs' loc)
    (k : Nat) : Layers p (.interpret depth back :: ts) k rs rs' k := by
  cases h with
  | stream h => exact .stream h
  | nested seg h => exact .nested seg h

/-- A task that interprets may enter a frame of its own, as the plain run does. -/
theorem Layers.push {p : Program} {ts : List Task} {depth ip loc : Nat} {back : Option Nat}
    {rs rs' : List (Option Nat)} (h : Layers p (.interpret depth back :: ts) ip rs rs' loc)
    (ret k : Nat) : Layers p (.interpret depth back :: ts) k (some ret :: rs) (some ret :: rs') k := by
  cases h with
  | stream h => exact .stream (List.cons_ne_nil _ _)
  | nested seg h => exact .nested (some ret :: seg) h

/-- What a task that interprets does when it leaves a frame: it leaves the last
one of all, or one of its own, or the first of its own and so comes to an end. -/
theorem Layers.pop {p : Program} {ts : List Task} {depth ip loc : Nat} {back a a' : Option Nat}
    {rs rs' : List (Option Nat)}
    (h : Layers p (.interpret depth back :: ts) ip (a :: rs) (a' :: rs') loc) :
    a = a' ∧ rs = [] ∧ rs' = [] ∧ ts = [] ∧ back = none ∨
    a = a' ∧ depth < rs.length ∧ rs' ≠ [] ∧ (∀ k, Layers p (.interpret depth back :: ts) k rs rs' k) ∨
    ∃ b x ret, back = some b ∧ a = some x ∧ a' = some ret ∧ depth = rs.length ∧
      Layers p (Task.resumed ts b).1 (Task.resumed ts b).2 rs rs' ret := by
  generalize hr : a :: rs = l, hr' : a' :: rs' = l' at h
  cases h with
  | stream _ =>
    obtain ⟨rfl, rfl⟩ := List.cons.inj (hr.trans hr'.symm)
    cases rs with
    | nil => exact Or.inl ⟨rfl, rfl, rfl, rfl, rfl⟩
    | cons r rs =>
      exact Or.inr (Or.inl ⟨rfl, Nat.succ_pos _, List.cons_ne_nil _ _, fun k =>
        .stream (List.cons_ne_nil _ _)⟩)
  | nested seg h =>
    cases seg with
    | nil =>
      obtain ⟨rfl, rfl⟩ := List.cons.inj hr
      obtain ⟨rfl, rfl⟩ := List.cons.inj hr'
      exact Or.inr (Or.inr ⟨_, _, _, rfl, rfl, rfl, rfl, h⟩)
    | cons r seg =>
      obtain ⟨rfl, rfl⟩ := List.cons.inj hr
      obtain ⟨rfl, rfl⟩ := List.cons.inj hr'
      exact Or.inr (Or.inl ⟨rfl, by simp; omega, by simp, fun k => .nested seg h⟩)

/-- The plain run is at the same place as a task that interprets. -/
theorem Layers.loc_eq {p : Program} {ts : List Task} {depth ip loc : Nat} {back : Option Nat}
    {rs rs' : List (Option Nat)} (h : Layers p (.interpret depth back :: ts) ip rs rs' loc) :
    loc = ip := by
  cases h <;> rfl

/-- The places the frames of a machine return to. -/
def returns (m : Machine) : List (Option Nat) := m.frames.map Frame.returnIp

theorem returns_goto (m : Machine) (k : Nat) : returns { m with ip := k } = returns m := rfl

theorem length_returns (m : Machine) : (returns m).length = m.frames.length := List.length_map _

/-- What relates the runs from step to step. -/
structure Sim (env : Env) (hooks : Hooks σ) (r : Run σ) (t : Run Unit) : Prop where
  same : Same r.machine t.machine
  running : r.machine.stop = none
  tasks : t.tasks = [.interpret 0 none]
  layers : Layers env.program r.tasks r.machine.ip (returns r.machine) (returns t.machine) t.machine.ip
  serves : hooks.Serves env.Serving r.hooks

/-- How the runs end alike. -/
structure Agree (e : Ending σ) (f : Ending Unit) : Prop where
  failure : e.failure.map Failure.site = f.failure.map Failure.site
  same : Same e.machine f.machine

theorem Agree.result {e : Ending σ} {f : Ending Unit} (h : Agree e f) :
    e.result.mapError Failure.site = f.result.mapError Failure.site := by
  obtain ⟨hfail, hsame⟩ := h
  obtain ⟨fe, m, s⟩ := e
  obtain ⟨ff, n, u⟩ := f
  have hstop : m.stop = n.stop := hsame.stop
  cases fe with
  | none =>
    cases ff with
    | none => simp only [Ending.result, hstop]
    | some b => simp at hfail
  | some a =>
    cases ff with
    | none => simp at hfail
    | some b => exact congrArg Except.error (Option.some.inj hfail)

/-! ### Steps that leave control alone -/

theorem returns_of_outline {m n : Machine} (h : m.outline = n.outline) : returns m = returns n := by
  have hreturns : ∀ k : Machine, returns k.outline = returns k := by
    intro k
    unfold returns Machine.outline
    cases k.frames <;> rfl
  rw [← hreturns m, ← hreturns n, h]

theorem Sim.calm {m m' n n' : Machine} {s : σ} {ts : List Task}
    (h : Sim env hooks ⟨m, s, ts⟩ (plain n)) (hm : m'.outline = m.outline)
    (hn : n'.outline = n.outline) (hs : Same m' n') : Sim env hooks ⟨m', s, ts⟩ (plain n') := by
  refine ⟨hs, (stop_of_outline hm).trans h.running, rfl, ?_, h.serves⟩
  have hl := h.layers
  simp only at hl ⊢
  rwa [ip_of_outline hm, ip_of_outline hn, returns_of_outline hm, returns_of_outline hn]

theorem Sim.collect {m n : Machine} {s : σ} {ts : List Task}
    (h : Sim env hooks ⟨m, s, ts⟩ (plain n)) :
    Sim env hooks ⟨m.maybeCollect env.settings, s, ts⟩ (plain (n.maybeCollect env.settings)) :=
  h.calm (Machine.outline_maybeCollect ..) (Machine.outline_maybeCollect ..)
    (h.same.maybeCollect env.settings)

/-- A data instruction on both machines: both go on, or both fail. -/
theorem Sim.exec {m n : Machine} {s : σ} {ts : List Task} (h : Sim env hooks ⟨m, s, ts⟩ (plain n))
    (x : Instr) : ∃ m' n', n'.ip = n.ip ∧ Sim env hooks ⟨m', s, ts⟩ (plain n') ∧
      (Machine.exec env.settings x m = .ok () m' ∧ Machine.exec env.settings x n = .ok () n' ∨
        ∃ e, Machine.exec env.settings x m = .error e m' ∧
          Machine.exec env.settings x n = .error e n') := by
  have hres := Machine.exec_same env.settings x m n h.same
  have hm := Machine.exec_outline env.settings x m
  have hn := Machine.exec_outline env.settings x n
  unfold Gives at hm hn
  generalize Machine.exec env.settings x m = rm, Machine.exec env.settings x n = rn at *
  cases hres with
  | ok a hs => exact ⟨_, _, ip_of_outline hn, h.calm hm hn hs, Or.inl ⟨rfl, rfl⟩⟩
  | error e hs => exact ⟨_, _, ip_of_outline hn, h.calm hm hn hs, Or.inr ⟨e, rfl, rfl⟩⟩

/-- A value taken off both stacks. -/
theorem Sim.pop {m n : Machine} {s : σ} {ts : List Task} (h : Sim env hooks ⟨m, s, ts⟩ (plain n))
    (op : Opcode) :
    (∃ v vs, Machine.pop op m = .ok v { m with stack := vs } ∧
      Machine.pop op n = .ok v { n with stack := vs } ∧
      Sim env hooks ⟨{ m with stack := vs }, s, ts⟩ (plain { n with stack := vs })) ∨
    Machine.pop op m = .error (.stackUnderflow op) m ∧
      Machine.pop op n = .error (.stackUnderflow op) n := by
  unfold Machine.pop
  rw [← h.same.stack]
  simp only
  cases hst : m.stack with
  | nil => exact Or.inr ⟨rfl, rfl⟩
  | cons v vs => exact Or.inl ⟨v, vs, rfl, rfl, h.calm rfl rfl (h.same.withStack vs)⟩

/-! ### Failures and stops -/

theorem fail_stream {m n : Machine} {s : σ} {depth : Nat} {back : Option Nat} {ts : List Task}
    {x : Instr} (h : Same m n) (hip : m.ip = n.ip) (hx : env.program.code[n.ip]? = some x)
    (c : Fault) :
    Run.Both (Sim env hooks) Agree (Run.fail env ⟨m, s, .interpret depth back :: ts⟩ c)
      (Run.fail env (plain n) c) := by
  have hplain : (Task.interpret 0 none).site? env n = some (n.ip, x) := by
    rw [Task.site?, hx, Option.map_some]
  have hstream : (Task.interpret depth back).site? env m = some (n.ip, x) := by
    rw [Task.site?, hip, hx, Option.map_some]
  rw [Run.fail, Run.fail, Run.carry_fault hstream, Run.carry_fault hplain]
  exact .ended ⟨rfl, h⟩

theorem fail_code {m n : Machine} {s : σ} {b : CompiledBody} {pc : Nat} {ts : List Task} {x y : Instr}
    (h : Same m n) (hx : b.site? pc = some (n.ip, x)) (hy : env.program.code[n.ip]? = some y)
    (c : Fault) :
    Run.Both (Sim env hooks) Agree (Run.fail env ⟨m, s, .integrated b pc :: ts⟩ c)
      (Run.fail env (plain n) c) := by
  have hplain : (Task.interpret 0 none).site? env n = some (n.ip, y) := by
    rw [Task.site?, hy, Option.map_some]
  rw [Run.fail, Run.fail, Run.carry_fault (t := .integrated b pc) (m := m) hx,
    Run.carry_fault hplain]
  exact .ended ⟨rfl, h⟩

/-- The run stops: all its tasks end. -/
theorem stop_both {m n : Machine} {s : σ} {ts : List Task} (h : Same m n) (st : Stop) (t : Task) :
    Run.Both (Sim env hooks) Agree (Run.resume (t.restore { m with stop := some st }) s ts)
      (Run.resume { n with stop := some st } () []) := by
  obtain ⟨ip, hr⟩ := Run.restore_stopped (m := { m with stop := some st }) rfl s t ts
  rw [hr]
  exact .ended ⟨rfl, (h.withStop (some st)).withIp _ n.ip⟩

/-! ### Calls and returns -/

theorem returns_enter {p : Program} {func ret start : Nat} {m m' : Machine}
    (h : Machine.enter p func ret m = .ok start m') :
    returns m' = some ret :: returns m ∧ m'.ip = m.ip ∧ m'.stop = m.stop ∧
      ∃ f, p.functions[func]? = some f ∧ start = f.entry := by
  cases hf : p.functions[func]? with
  | none => simp [Machine.enter, hf] at h
  | some f =>
    rw [Machine.enter_eq hf] at h
    split_ifs at h
    cases h
    exact ⟨rfl, rfl, rfl, f, rfl, rfl⟩

theorem enter_error {p : Program} {func ret : Nat} {m m' : Machine} {e : Fault}
    (h : Machine.enter p func ret m = .error e m') : m' = m := by
  cases hf : p.functions[func]? with
  | none =>
    simp only [Machine.enter, hf] at h
    cases h
    rfl
  | some f =>
    rw [Machine.enter_eq hf] at h
    split_ifs at h
    cases h
    rfl

/-- A call that compiled code serves: the tasks around it are those of the
caller. -/
theorem begin_both {m n : Machine} {s s' : σ} {ts : List Task} {a : Artifact} {k loc : Nat}
    (hform : env.settings.form = .integrated) (hplain : env.settings.simplify = false)
    (hs : Same m n) (hrun : m.stop = none)
    (hl : Layers env.program (Task.resumed ts m.ip).1 (Task.resumed ts m.ip).2 (returns m)
      (returns n) loc)
    (hserves : hooks.Serves env.Serving s) (ha : hooks.compiled s k = (some a, s'))
    (hfail : ∀ (m' : Machine) c, Same m' n → m'.ip = m.ip →
      Run.Both (Sim env hooks) Agree (Run.fail env ⟨m', s', ts⟩ c) (Run.fail env (plain n) c)) :
    Run.Both (Sim env hooks) Agree (Run.beginCompiled env ⟨m, s', ts⟩ a)
      (Run.afterEnter env [.interpret 0 none] (Machine.enter env.program k loc n)) := by
  obtain ⟨hc, hret⟩ := hserves.answer ha
  obtain ⟨b, f, heights, peak, rfl, rfl, hp⟩ := Program.compile_integrated hform hplain hc
  have hs' : Same { m with compiledCalls := m.compiledCalls + 1 } n := hs
  have hres := hs'.enter env.program b.func m.ip loc
  simp only [Run.beginCompiled, Run.begin]
  generalize hm : Machine.enter env.program b.func m.ip
    { m with compiledCalls := m.compiledCalls + 1 } = rm,
    hn : Machine.enter env.program b.func loc n = rn at hres ⊢
  cases hres with
  | ok start hsame =>
    obtain ⟨hr, hip, hstop, -⟩ := returns_enter hm
    obtain ⟨hr', -, -, f', hf', rfl⟩ := returns_enter hn
    obtain rfl : f' = f := by
      rw [hp.verified.func] at hf'
      exact (Option.some.inj hf').symm
    refine .running ⟨hsame.withIp _ _, hstop.trans hrun, rfl, ?_, hserves.compiled ha⟩
    simp only [returns_goto, hr, hr', hip]
    exact .code hp hret (hret.entry hp) hl
  | error e hsame =>
    obtain rfl := enter_error hm
    obtain rfl := enter_error hn
    exact hfail _ e hsame rfl

/-- A call from the stream. -/
theorem call_stream {m n : Machine} {s : σ} {ts : List Task} {depth k : Nat} {back : Option Nat}
    {x : Instr} (hform : env.settings.form = .integrated) (hplain : env.settings.simplify = false)
    (h : Sim env hooks ⟨m, s, .interpret depth back :: ts⟩ (plain n))
    (hx : env.program.code[n.ip]? = some x) :
    Run.Both (Sim env hooks) Agree
      (Run.callFromStream env hooks ⟨m, s, .interpret depth back :: ts⟩ k)
      (Run.callFromStream env Hooks.none (plain n) k) := by
  have hip : n.ip = m.ip := h.layers.loc_eq
  rw [Run.callFromStream_none]
  unfold Run.callFromStream
  rcases ha : hooks.compiled s k with ⟨_ | a, s'⟩
  · simp only
    have hres := h.same.enter env.program k (m.ip + 1) (n.ip + 1)
    generalize hm : Machine.enter env.program k (m.ip + 1) m = rm,
      hn : Machine.enter env.program k (n.ip + 1) n = rn at hres ⊢
    cases hres with
    | ok start hsame =>
      obtain ⟨hr, hip', hstop, -⟩ := returns_enter hm
      obtain ⟨hr', -⟩ := returns_enter hn
      refine .running ⟨hsame.withIp _ _, hstop.trans h.running, rfl, ?_, (h.serves.compiled ha).notify k⟩
      simp only [returns_goto, hr, hr', hip]
      exact h.layers.push _ _
    | error e hsame =>
      obtain rfl := enter_error hm
      obtain rfl := enter_error hn
      exact fail_stream hsame hip.symm hx e
  · simp only
    refine begin_both hform hplain h.same h.running ?_ h.serves ha fun m' c hs hm' => ?_
    · have := h.layers.goto (m.ip + 1)
      simpa only [Task.resumed, hip] using this
    · exact fail_stream hs (hm'.trans hip.symm) hx c

/-- A call from integrated code. -/
theorem call_code {m n : Machine} {s : σ} {ts : List Task} {b : CompiledBody} {pc k : Nat}
    {x y : Instr} {g : Function}
    (hform : env.settings.form = .integrated) (hplain : env.settings.simplify = false)
    (hs : Same m n) (hrun : m.stop = none) (hserves : hooks.Serves env.Serving s)
    (hk : env.program.functions[k]? = some g) (hx : b.site? pc = some (n.ip, x))
    (hy : env.program.code[n.ip]? = some y)
    (hl : Layers env.program (.integrated b (pc + 1) :: ts) m.ip (returns m) (returns n) (n.ip + 1)) :
    Run.Both (Sim env hooks) Agree (Run.call env hooks ⟨m, s, .integrated b pc :: ts⟩ k)
      (Run.callFromStream env Hooks.none (plain n) k) := by
  have hlt : ¬ env.program.functions.length ≤ k := by
    have := (List.getElem?_eq_some_iff.mp hk).1
    omega
  rw [Run.callFromStream_none]
  unfold Run.call
  rw [if_neg hlt]
  rcases ha : hooks.compiled s k with ⟨_ | a, s'⟩
  · simp only
    have hres := hs.enter env.program k m.ip (n.ip + 1)
    generalize hm : Machine.enter env.program k m.ip m = rm,
      hn : Machine.enter env.program k (n.ip + 1) n = rn at hres ⊢
    cases hres with
    | ok start hsame =>
      obtain ⟨hr, hip', hstop, -⟩ := returns_enter hm
      obtain ⟨hr', -⟩ := returns_enter hn
      refine .running ⟨hsame.withIp _ _, hstop.trans hrun, rfl, ?_, (hserves.compiled ha).notify k⟩
      simp only [returns_goto, hr, hr', ← length_returns m]
      exact .nested [] hl
    | error e hsame =>
      obtain rfl := enter_error hm
      obtain rfl := enter_error hn
      exact fail_code hsame hx hy e
  · simp only
    exact begin_both hform hplain hs hrun hl hserves ha fun m' c hs' _ => fail_code hs' hx hy c

/-- A frame is left on both sides. -/
theorem Sim.left {m n : Machine} {s : σ} {ts : List Task} {f g : Frame} {fs gs : List Frame}
    {i j : Nat} (hs : Same m n) (hrun : m.stop = none) (hserves : hooks.Serves env.Serving s)
    (hm : m.frames = f :: fs) (hn : n.frames = g :: gs) (v : Option Value)
    (hl : Layers env.program ts i (fs.map Frame.returnIp) (gs.map Frame.returnIp) j) :
    Sim env hooks
      ⟨{ m with ip := i, frames := fs
                stack := v.toList ++ m.stack.drop (m.stack.length - f.base) }, s, ts⟩
      (plain { n with ip := j, frames := gs
                      stack := v.toList ++ n.stack.drop (n.stack.length - g.base) }) :=
  ⟨hs.leave hm hn v i j, hrun, rfl, hl, hserves⟩

/-- A return from the stream. -/
theorem return_stream {m n : Machine} {s : σ} {ts : List Task} {depth : Nat} {back : Option Nat}
    (h : Sim env hooks ⟨m, s, .interpret depth back :: ts⟩ (plain n)) (op : Opcode)
    (v : Option Value) :
    Run.Both (Sim env hooks) Agree
      (Run.afterInterpret env hooks s depth back ts (Machine.returnWith op v m))
      (Run.afterInterpret env Hooks.none () 0 none [] (Machine.returnWith op v n)) := by
  obtain ⟨hs, hrun, -, hl, hserves⟩ := h
  simp only at hs hrun hl hserves
  rcases hs.frames_cases with ⟨-, hn⟩ | ⟨f, fs, g, gs, hm, hn, hfg, hfs⟩
  · exact absurd (by simp [returns, hn]) hl.ne_nil
  simp only [returns, hm, hn, List.map_cons] at hl
  cases hg : g.returnIp with
  | none =>
    have hf : f.returnIp = none := by
      have := congrArg Frame.returnIp hfg
      simpa [Frame.visible, hg] using this
    rw [Machine.returnWith_none hm hf, Machine.returnWith_none hn hg]
    exact stop_both (hs.withFrames hfs) (.halted v) _
  | some ret =>
    rcases hl.pop with ⟨hfg, h1, h2, rfl, rfl⟩ | ⟨hfg, hlt, hne, hk⟩ | ⟨b, x, ret', rfl, hf, hg', rfl, hk⟩
    · rw [Machine.returnWith_some hm (hfg.trans hg), Machine.returnWith_some hn hg]
      obtain rfl : fs = [] := by simpa using h1
      obtain rfl : gs = [] := by simpa using h2
      exact .ended ⟨rfl, hs.leave hm hn v _ _⟩
    · rw [return_plain hn hg (by simpa using hne), Machine.returnWith_some hm (hfg.trans hg)]
      have hlt' : ¬ fs.length ≤ depth := by simpa using hlt
      simp only [Run.afterInterpret, if_neg hlt']
      exact .running (.left hs hrun hserves hm hn v (hk ret))
    · have hgs : gs ≠ [] := by simpa using hk.ne_nil
      obtain rfl : ret = ret' := Option.some.inj (hg.symm.trans hg')
      rw [return_plain hn hg hgs, Machine.returnWith_some hm hf]
      simp only [Run.afterInterpret, List.length_map, le_refl, ↓reduceIte, Task.restore]
      rw [Run.resume_running (by exact hrun) hk.tasks_ne_nil]
      exact .running (.left hs hrun hserves hm hn v hk)

/-- A return from integrated code. -/
theorem return_code {m n : Machine} {s : σ} {ts : List Task} {b : CompiledBody} {pc : Nat}
    (h : Sim env hooks ⟨m, s, .integrated b pc :: ts⟩ (plain n)) (op : Opcode) (v : Option Value) :
    Run.Both (Sim env hooks) Agree
      (Run.afterIntegrated env hooks s b pc ts
        ((Machine.leave op v >>= fun _ => pure .returned : Exec Flow) m))
      (Run.afterInterpret env Hooks.none () 0 none [] (Machine.returnWith op v n)) := by
  obtain ⟨hs, hrun, -, hl, hserves⟩ := h
  simp only at hs hrun hl hserves
  rcases hs.frames_cases with ⟨-, hn⟩ | ⟨f, fs, g, gs, hm, hn, -, hfs⟩
  · exact absurd (by simp [returns, hn]) hl.ne_nil
  simp only [returns, hm, hn, List.map_cons] at hl
  have hleave : (Machine.leave op v >>= fun _ => pure .returned : Exec Flow) m =
      .ok .returned { m with
        frames := fs, stack := v.toList ++ m.stack.drop (m.stack.length - f.base) } := by
    show EStateM.bind _ _ m = _
    simp only [EStateM.bind, Machine.leave_cons hm]
    rfl
  rw [hleave]
  generalize hx : f.returnIp = x, hret : g.returnIp = ret, hloc : n.ip = loc at hl
  cases hl with
  | code hp hr hh hk =>
    have hgs : gs ≠ [] := by simpa using hk.ne_nil
    rw [return_plain hn hret hgs]
    simp only [Run.afterIntegrated]
    rw [Run.resume_running (by exact hrun) hk.tasks_ne_nil]
    exact .running (.left hs hrun hserves hm hn v hk)

/-! ### Steps -/

/-- A jump on both machines, each to a place of its own: the same way on, or the
same fault. -/
theorem Sim.branch {m n : Machine} {s : σ} {ts : List Task} (h : Sim env hooks ⟨m, s, ts⟩ (plain n))
    (op : Opcode) (w : Branch) (t u : Nat) :
    (∃ m' n', n'.ip = n.ip ∧ Sim env hooks ⟨m', s, ts⟩ (plain n') ∧
      (Machine.branch op w t m = .ok (.jump t) m' ∧ Machine.branch op w u n = .ok (.jump u) n' ∨
        (∃ b, w = .on b) ∧ Machine.branch op w t m = .ok .next m' ∧
          Machine.branch op w u n = .ok .next n')) ∨
    ∃ e, Machine.branch op w t m = .error e m ∧ Machine.branch op w u n = .error e n := by
  cases w with
  | always => exact Or.inl ⟨m, n, rfl, h, Or.inl ⟨rfl, rfl⟩⟩
  | on b =>
    simp only [Machine.branch_on]
    rcases h.pop op with ⟨v, vs, hm, hn, hs⟩ | ⟨hm, hn⟩
    · refine Or.inl ⟨_, { n with stack := vs }, rfl, hs, ?_⟩
      rw [bind_of_ok hm, bind_of_ok hn]
      by_cases hv : v.truth = b
      · exact Or.inl ⟨by rw [if_pos hv]; rfl, by rw [if_pos hv]; rfl⟩
      · exact Or.inr ⟨⟨b, rfl⟩, by rw [if_neg hv]; rfl, by rw [if_neg hv]; rfl⟩
    · exact Or.inr ⟨_, bind_of_error hm, bind_of_error hn⟩

theorem Sim.goto {m n : Machine} {s : σ} {ts : List Task} {depth i j : Nat} {back : Option Nat}
    (h : Sim env hooks ⟨m, s, .interpret depth back :: ts⟩ (plain n)) (hij : i = j) :
    Sim env hooks ⟨{ m with ip := i }, s, .interpret depth back :: ts⟩ (plain { n with ip := j }) := by
  subst hij
  exact ⟨h.same.withIp i i, h.running, rfl, h.layers.goto i, h.serves⟩

theorem Sim.loc_eq {m n : Machine} {s : σ} {ts : List Task} {depth : Nat} {back : Option Nat}
    (h : Sim env hooks ⟨m, s, .interpret depth back :: ts⟩ (plain n)) : m.ip = n.ip :=
  h.layers.loc_eq.symm

/-- An instruction of the stream on both machines. -/
theorem interpret_both (hform : env.settings.form = .integrated)
    (hplain : env.settings.simplify = false) {m n : Machine} {s : σ} {ts : List Task} {depth : Nat}
    {back : Option Nat} (h : Sim env hooks ⟨m, s, .interpret depth back :: ts⟩ (plain n))
    {x : Instr} (hx : env.program.code[n.ip]? = some x) :
    Run.Both (Sim env hooks) Agree
      (Run.afterInterpret env hooks s depth back ts (Machine.interpret env x m))
      (Run.afterInterpret env Hooks.none () 0 none [] (Machine.interpret env x n)) := by
  by_cases hd : x.op.movesData = true
  · rw [Machine.interpret_data hd]
    obtain ⟨m', n', hip, hs, ⟨hm, hn⟩ | ⟨e, hm, hn⟩⟩ := h.exec x
    · rw [bind_of_ok hm, bind_of_ok hn]
      exact .running (hs.goto (congrArg (· + 1) hs.loc_eq))
    · rw [bind_of_error hm, bind_of_error hn]
      exact fail_stream hs.same hs.loc_eq (hip ▸ hx) e
  cases hop : x.op with
  | jump w =>
    cases ht : Machine.jumpTarget env.program x with
    | error e =>
      rw [Machine.interpret_badJump hop ht, Machine.interpret_badJump hop ht]
      exact fail_stream h.same h.loc_eq hx e
    | ok t =>
      rw [Machine.interpret_jump hop ht, Machine.interpret_jump hop ht]
      rcases h.branch x.op w t t with ⟨m', n', -, hs, ⟨hm, hn⟩ | ⟨-, hm, hn⟩⟩ | ⟨e, hm, hn⟩ <;>
        rw [hm, hn]
      · exact .running (hs.goto rfl)
      · exact .running (hs.goto (congrArg (· + 1) hs.loc_eq))
      · exact fail_stream h.same h.loc_eq hx e
  | call =>
    cases hk : Machine.callee env.program x with
    | error e =>
      rw [Machine.interpret_badCall hop hk, Machine.interpret_badCall hop hk]
      exact fail_stream h.same h.loc_eq hx e
    | ok k =>
      rw [Machine.interpret_call hop hk, Machine.interpret_call hop hk]
      exact call_stream hform hplain h hx
  | ret =>
    rw [Machine.interpret_ret hop]
    rcases h.pop .ret with ⟨v, vs, hm, hn, hs⟩ | ⟨hm, hn⟩
    · rw [bind_of_ok hm, bind_of_ok hn]
      exact return_stream hs .ret (some v)
    · rw [bind_of_error hm, bind_of_error hn]
      exact fail_stream h.same h.loc_eq hx _
  | retVoid =>
    rw [Machine.interpret_retVoid hop]
    exact return_stream h .retVoid none
  | halt =>
    rw [Machine.interpret_halt hop, Machine.interpret_halt hop]
    exact stop_both h.same (.halted none) _
  | _ => exact absurd (by rw [hop]; rfl) hd

/-- One step of the stream. -/
theorem step_stream (hform : env.settings.form = .integrated)
    (hplain : env.settings.simplify = false) {m n : Machine} {s : σ} {ts : List Task} {depth : Nat}
    {back : Option Nat} (h : Sim env hooks ⟨m, s, .interpret depth back :: ts⟩ (plain n)) :
    Run.Both (Sim env hooks) Agree (Run.step env hooks ⟨m, s, .interpret depth back :: ts⟩)
      (Run.step env Hooks.none (plain n)) := by
  have hrun : m.stop = none := h.running
  have hrun' : n.stop = none := h.same.stop ▸ hrun
  have h1 := h.collect
  have hip : (n.maybeCollect env.settings).ip = (m.maybeCollect env.settings).ip := h1.loc_eq.symm
  cases hx : env.program.code[(m.maybeCollect env.settings).ip]? with
  | none =>
    rw [Run.step_ranOut hrun hx, Run.step_ranOut hrun' (hip ▸ hx)]
    exact stop_both h1.same .ranOut _
  | some x =>
    have hx' : env.program.code[(n.maybeCollect env.settings).ip]? = some x := hip ▸ hx
    rw [Run.step_interpret hrun hx, Run.step_interpret hrun' hx']
    exact interpret_both hform hplain h1 hx'

/-! ### Steps of integrated code -/

theorem Layers.move {p : Program} {ts : List Task} {b : CompiledBody} {f : Function}
    {heights : List (Option Nat)} {pc t k peak ip loc : Nat} {rs rs' : List (Option Nat)}
    (h : Layers p (.integrated b pc :: ts) ip rs rs' loc) (hp : p.Plain b f heights peak)
    (ht : heights[t]? = some (some k)) :
    Layers p (.integrated b t :: ts) ip rs rs' (f.entry + t) := by
  cases h with
  | code _ hr _ hk => exact .code hp hr ht hk

/-- Both runs go to the place `t` of the body. -/
theorem Sim.move {m n : Machine} {s : σ} {ts : List Task} {b : CompiledBody} {f : Function}
    {heights : List (Option Nat)} {pc t k peak i : Nat}
    (h : Sim env hooks ⟨m, s, .integrated b pc :: ts⟩ (plain n))
    (hp : env.program.Plain b f heights peak) (ht : heights[t]? = some (some k))
    (hi : i = f.entry + t) :
    Sim env hooks ⟨m, s, .integrated b t :: ts⟩ (plain { n with ip := i }) := by
  subst hi
  exact ⟨h.same.withIp _ _, h.running, rfl, h.layers.move hp ht, h.serves⟩

/-- An instruction of compiled code, and the one of the stream it stands for. -/
theorem integrated_both (hform : env.settings.form = .integrated)
    (hplain : env.settings.simplify = false) (hfits : env.program.Fits) {m n : Machine} {s : σ}
    {ts : List Task} {b : CompiledBody} {f : Function} {heights : List (Option Nat)}
    {pc k peak : Nat} {x : Instr} (h : Sim env hooks ⟨m, s, .integrated b pc :: ts⟩ (plain n))
    (hp : env.program.Plain b f heights peak) (hr : env.program.Returning b.func)
    (hip : n.ip = f.entry + pc) (hx : b.code[pc]? = some x)
    (hc : Heights.Checked env.program.functions heights pc k x) :
    Run.Both (Sim env hooks) Agree
      (Run.afterIntegrated env hooks s b pc ts (Machine.integrated env b.func x m))
      (Run.afterInterpret env Hooks.none () 0 none []
        (Machine.interpret env (x.based f.entry) n)) := by
  have hsite : b.site? pc = some (n.ip, x) := hip ▸ hp.site? hx
  have hfetch : env.program.code[n.ip]? = some (x.based f.entry) := hip ▸ hp.verified.fetch hx
  have hjump : ∀ (w : Branch) (a : Int64) (t j : Nat), x.op = .jump w → x.operand = some a →
      Instr.place? a = some t → heights[t]? = some (some j) →
      (∀ c, w = .on c → heights[pc + 1]? = some (some j)) →
      Run.Both (Sim env hooks) Agree
        (Run.afterIntegrated env hooks s b pc ts (Machine.integrated env b.func x m))
        (Run.afterInterpret env Hooks.none () 0 none []
          (Machine.interpret env (x.based f.entry) n)) := by
    intro w a t j hop ha ht hj hnext
    rw [Machine.integrated_jump hop ha ht, Machine.interpret_based hfits hp.verified hop ha ht hj]
    rcases h.branch x.op w t (f.entry + t) with
      ⟨m', n', hip', hs, ⟨hm, hn⟩ | ⟨⟨c, hc⟩, hm, hn⟩⟩ | ⟨e, hm, hn⟩ <;> rw [hm, hn]
    · exact .running (hs.move hp hj rfl)
    · exact .running (hs.move hp (hnext c hc) (by omega))
    · exact fail_code h.same hsite hfetch e
  cases hc with
  | data pops pushes hd ho he hen hnext =>
    rw [Instr.based_of_data hd] at hfetch ⊢
    rw [Machine.interpret_data hd, Machine.integrated_data hd]
    obtain ⟨m', n', hip', hs, ⟨hm, hn⟩ | ⟨e, hm, hn⟩⟩ := h.exec x
    · rw [bind_of_ok hm, bind_of_ok hn]
      exact .running (hs.move hp hnext (by omega))
    · rw [bind_of_error hm, bind_of_error hn]
      exact fail_code hs.same (hip' ▸ hsite) (hip' ▸ hfetch) e
  | jump a t hop ha ht hj => exact hjump .always a t k hop ha ht hj fun c hc => by cases hc
  | branch c a t hop ha ht hen hnext hj => exact hjump (.on c) a t (k - 1) hop ha ht hj fun _ _ => hnext
  | call a j g hop ha hj hg hen hnext =>
    have hb : x.based f.entry = x := Instr.based_of_not_jump (by rw [hop]; rfl)
    rw [hb] at hfetch ⊢
    rw [Machine.integrated_call hop ha hj, Machine.interpret_call hop (Machine.callee_ok ha hj hg)]
    exact call_code hform hplain h.same h.running h.serves hg hsite hfetch
      (by have := h.layers.move hp hnext; rwa [← Nat.add_assoc, ← hip] at this)
  | ret hop hen =>
    rw [Machine.integrated_ret hop, Machine.interpret_ret (by rw [Instr.op_based, hop])]
    rcases h.pop .ret with ⟨v, vs, hm, hn, hs⟩ | ⟨hm, hn⟩
    · rw [bind_of_ok hm, bind_of_ok hn]
      exact return_code hs .ret (some v)
    · rw [bind_of_error hm, bind_of_error hn]
      exact fail_code h.same hsite hfetch _
  | retVoid hop =>
    rw [Machine.integrated_retVoid hop, Machine.interpret_retVoid (by rw [Instr.op_based, hop])]
    exact return_code h .retVoid none
  | halt hop => exact absurd hop (hr.not_halt hp hx)

/-- One step of integrated code. -/
theorem step_code (hform : env.settings.form = .integrated)
    (hplain : env.settings.simplify = false) (hfits : env.program.Fits) {m n : Machine} {s : σ}
    {ts : List Task} {b : CompiledBody} {pc : Nat}
    (h : Sim env hooks ⟨m, s, .integrated b pc :: ts⟩ (plain n)) :
    Run.Both (Sim env hooks) Agree (Run.step env hooks ⟨m, s, .integrated b pc :: ts⟩)
      (Run.step env Hooks.none (plain n)) := by
  have hrun : n.stop = none := h.same.stop ▸ h.running
  have h1 := h.collect
  have hl := h1.layers
  generalize hloc : (plain (n.maybeCollect env.settings)).machine.ip = loc,
    returns (plain (n.maybeCollect env.settings)).machine = rs' at hl
  simp only at hl
  generalize returns (m.maybeCollect env.settings) = rs at hl
  cases hl with
  | code hp hr hh hk =>
    obtain ⟨x, hx, hc⟩ := (hp.verified.accepted.settled _ _ hh).checked
    have hfetch := hp.verified.fetch hx
    rw [← hloc] at hfetch
    rw [Run.step_integrated hx, Run.step_interpret hrun hfetch]
    exact integrated_both hform hplain hfits h1 hp hr hloc hx hc

/-- **The two runs go in step.** -/
theorem step_both (hform : env.settings.form = .integrated)
    (hplain : env.settings.simplify = false) (hfits : env.program.Fits) (r : Run σ) (t : Run Unit)
    (h : Sim env hooks r t) :
    Run.Both (Sim env hooks) Agree (Run.step env hooks r) (Run.step env Hooks.none t) := by
  obtain ⟨m, s, ts⟩ := r
  obtain ⟨n, u, us⟩ := t
  obtain rfl : us = [.interpret 0 none] := h.tasks
  cases ts with
  | nil => cases h.layers
  | cons t ts =>
    cases t with
    | interpret d b => exact step_stream hform hplain h
    | integrated b pc => exact step_code hform hplain hfits h
    | isolated b pc c => cases h.layers

end Transparency

open Transparency in
/-- **Compiled code makes no difference.** However the calls are shared out
between integrated code and the stream, a run ends if and only if the plain run
does, with the same result, or the same fault at the same place, and with the
same machine but for places in the stream and the count of compiled calls. -/
theorem integrated_transparent {σ : Type} {env : Env} {hooks : Hooks σ} {s : σ}
    (hform : env.settings.form = .integrated) (hplain : env.settings.simplify = false)
    (hfits : env.program.Fits) (hserves : hooks.Serves env.Serving s) (out : Array String) :
    ((∃ fuel e, env.run hooks s out fuel = some e) ↔
      ∃ fuel f, env.run Hooks.none () out fuel = some f) ∧
    ∀ i j e f, env.run hooks s out i = some e → env.run Hooks.none () out j = some f →
      e.result.mapError Failure.site = f.result.mapError Failure.site ∧
      e.machine.visible = f.machine.visible := by
  have hboot : Sim env hooks (Run.boot env s out) (Run.boot env () out) :=
    ⟨rfl, rfl, rfl, .stream (by simp [returns, Run.boot, Machine.boot]), hserves⟩
  obtain ⟨hends, hagree⟩ := Run.lockstep (step_both hform hplain hfits) (.running hboot)
  refine ⟨?_, fun i j e f he hf => ?_⟩
  · rw [exists_comm, exists_comm (p := fun fuel f => env.run Hooks.none () out fuel = some f)]
    exact hends
  · have h := hagree e f ⟨i, he⟩ ⟨j, hf⟩
    exact ⟨h.result, h.same⟩

namespace Transparency

/-- Two functions that call each other: the first counts its argument down to
zero and then divides by it. -/
def countdown : Env where
  program :=
    { code :=
        [⟨.pushInt, some 2⟩, ⟨.call, some 0⟩, ⟨.halt, none⟩,
         ⟨.loadLocal, some 0⟩, ⟨.jump (.on true), some 9⟩,
         ⟨.pushInt, some 1⟩, ⟨.loadLocal, some 0⟩, ⟨.binary .div, none⟩, ⟨.ret, none⟩,
         ⟨.loadLocal, some 0⟩, ⟨.call, some 1⟩, ⟨.ret, none⟩,
         ⟨.loadLocal, some 0⟩, ⟨.pushInt, some 1⟩, ⟨.binary .sub, none⟩, ⟨.call, some 0⟩, ⟨.ret, none⟩]
      functions := [⟨"down", 3, 1, 1, true⟩, ⟨"again", 12, 1, 1, true⟩] }
  settings := { form := .integrated, simplify := false }

/-- Every other call is served by compiled code. -/
def everyOther : Hooks Bool where
  compiled s f :=
    (if s && decide (f < 2) then (countdown.program.compile countdown.settings f).toOption else none,
      !s)
  notify s _ := s

theorem returning_countdown (f : Nat) (h : f < 2) : countdown.program.Returning f := by
  interval_cases f
  · exact ⟨_, rfl, by decide, by decide⟩
  · exact ⟨_, rfl, by decide, by decide⟩

theorem serves_everyOther : everyOther.Serves countdown.Serving true := by
  refine ⟨fun _ => True, trivial, fun t _ f => ⟨fun a ha => ?_, trivial, trivial⟩⟩
  simp only [everyOther] at ha
  split_ifs at ha with hf
  simp only [Bool.and_eq_true, decide_eq_true_eq] at hf
  cases hc : countdown.program.compile countdown.settings f with
  | error e => rw [hc] at ha; cases ha
  | ok b =>
    rw [hc] at ha
    cases ha
    exact ⟨hc, returning_countdown f hf.2⟩

end Transparency

open Transparency in
theorem integrated_transparent_countdown :
    (countdown.program.compile countdown.settings 0).toOption.isSome = true ∧
    countdown.program.Fits ∧ everyOther.Serves countdown.Serving true ∧
    ∃ fuel e, countdown.run everyOther true #[] fuel = some e ∧
      e.result.mapError Failure.site = .error (some 7, .divisionByZero) := by
  have hfits : countdown.program.Fits := by decide
  have hplain : ∃ f, countdown.run Hooks.none () #[] 40 = some f ∧
      f.result.mapError Failure.site = .error (some 7, .divisionByZero) := ⟨_, rfl, rfl⟩
  obtain ⟨f, hf, hresult⟩ := hplain
  obtain ⟨hends, hagree⟩ := integrated_transparent rfl rfl hfits serves_everyOther #[]
  obtain ⟨fuel, e, he⟩ := hends.mpr ⟨40, f, hf⟩
  refine ⟨by decide +kernel, hfits, serves_everyOther, fuel, e, he, ?_⟩
  rw [(hagree fuel 40 e f he hf).1, hresult]

end StackMachine
