/-
# The calls under way

A run keeps its calls in two lists, of tasks and of frames, which grow and
shrink at different times: an interpreted call from the stream adds a frame but
no task, isolated code a task but no frame. Here the two are read as one list of
activations, innermost first (`Activation`, `Run.Nested`), on which every step
is simple: the innermost call goes on, makes a call and waits, or ends and lets
its caller go on (`Run.Act`).

* `Run.Nested`: the tasks and frames of a run are those of these calls, and every
  caller waits at the instruction that calls;
* `Run.Act`: what one step does to the machine and to the calls under way;
* `Run.outcome`: every step is one of these, or ends the run for a reason that
  its calls show.
-/
import Mathlib
import StackMachine.Compiled.Compile
import StackMachine.Proofs.Control
import StackMachine.Proofs.Passes
import StackMachine.Proofs.Runs
import StackMachine.Proofs.Visible

namespace StackMachine

/-- A call under way, and where it is. -/
inductive Activation where
  /-- The stream is interpreted. -/
  | stream (frame : Frame) (ip : Nat)
  /-- Integrated code runs. -/
  | code (frame : Frame) (body : CompiledBody) (pc : Nat)
  /-- Isolated code runs, without a frame. -/
  | apart (body : CompiledBody) (pc : Nat) (context : Context)

namespace Activation

def frame? : Activation → Option Frame
  | stream g _ => some g
  | code g _ _ => some g
  | apart _ _ _ => none

/-- The instruction the call is at, with its place in the stream. -/
def site? (env : Env) : Activation → Option (Nat × Instr)
  | stream _ ip => env.program.code[ip]?.map fun x => (ip, x)
  | code _ b pc => b.site? pc
  | apart b pc _ => b.site? pc

/-- The call, at another place. -/
def goto (k : Nat) : Activation → Activation
  | stream g _ => stream g k
  | code g b _ => code g b k
  | apart b _ c => apart b k c

/-- The call, one instruction on. -/
def next : Activation → Activation
  | stream g ip => stream g (ip + 1)
  | code g b pc => code g b (pc + 1)
  | apart b pc c => apart b (pc + 1) c

/-- The call, with another frame. -/
def inFrame (g : Frame) : Activation → Activation
  | stream _ ip => stream g ip
  | code _ b pc => code g b pc
  | apart b pc c => apart b pc c

/-- Where a jump of the call lands. -/
def target? (env : Env) (x : Instr) : Activation → Option Nat
  | stream _ _ => (Machine.jumpTarget env.program x).toOption
  | _ => some ((Instr.place? (x.operand.getD 0)).getD 0)

/-- The function that a call from here calls. -/
def callee? (env : Env) (x : Instr) : Activation → Option Nat
  | stream _ _ => (Machine.callee env.program x).toOption
  | _ => some ((Instr.place? (x.operand.getD 0)).getD (UInt64.size - 1))

/-- The call is at an instruction that calls. -/
def Calls (env : Env) (a : Activation) : Prop :=
  ∃ ip x, a.site? env = some (ip, x) ∧ x.op = .call

end Activation

/-- The frame of a call that begins on a stack. -/
def Function.newFrame (f : Function) (func ret : Nat) (stack : List Value) : Frame where
  func := some func
  returnIp := some ret
  base := (stack.drop f.arity).length
  locals := (stack.take f.arity).reverse ++ Value.zeros (f.frameSize - f.arity)

namespace Frame

variable {g g' : Frame}

theorem returnIp_of_outline (h : g'.outline = g.outline) : g'.returnIp = g.returnIp := by
  have := congrArg Frame.returnIp h
  exact this

theorem base_of_outline (h : g'.outline = g.outline) : g'.base = g.base := by
  have := congrArg Frame.base h
  exact this

end Frame

/-! ### What operations leave alone -/

namespace Machine

variable {m : Machine}

section Collect

variable (s : Settings) (m : Machine)

theorem maybeCollect_eq : ∃ h c, m.maybeCollect s = { m with heap := h, collector := c } := by
  unfold maybeCollect collect
  split_ifs
  · exact ⟨_, _, rfl⟩
  · exact ⟨m.heap, m.collector, rfl⟩

@[simp] theorem ip_maybeCollect : (m.maybeCollect s).ip = m.ip := by
  obtain ⟨h, c, e⟩ := maybeCollect_eq s m
  rw [e]

@[simp] theorem stack_maybeCollect : (m.maybeCollect s).stack = m.stack := by
  obtain ⟨h, c, e⟩ := maybeCollect_eq s m
  rw [e]

@[simp] theorem frames_maybeCollect : (m.maybeCollect s).frames = m.frames := by
  obtain ⟨h, c, e⟩ := maybeCollect_eq s m
  rw [e]

@[simp] theorem stop_maybeCollect : (m.maybeCollect s).stop = m.stop := by
  obtain ⟨h, c, e⟩ := maybeCollect_eq s m
  rw [e]

end Collect

/-- How a call begins, or why it does not. -/
theorem enter_cases (p : Program) (func ret : Nat) (m : Machine) :
    (∃ f, p.functions[func]? = some f ∧ f.arity ≤ m.stack.length ∧
      enter p func ret m = .ok f.entry { m with
        stack := m.stack.drop f.arity
        frames := f.newFrame func ret m.stack :: m.frames }) ∨
    ∃ e, enter p func ret m = .error e m := by
  cases hf : p.functions[func]? with
  | none => exact Or.inr ⟨_, by unfold enter; rw [hf]⟩
  | some f =>
    rw [enter_eq hf]
    by_cases hlt : m.stack.length < f.arity
    · exact Or.inr ⟨_, if_pos hlt⟩
    · exact Or.inl ⟨f, rfl, by omega, if_neg hlt⟩

theorem popArgs_gives (k : Nat) (m : Machine) :
    Gives (popArgs k) m (fun _ n => k ≤ m.stack.length ∧ n = { m with stack := m.stack.drop k })
      (fun _ n => ∃ st, n = { m with stack := st }) := by
  induction k generalizing m with
  | zero => exact ⟨Nat.zero_le _, rfl⟩
  | succ k ih =>
    simp only [popArgs, gives_bind, gives_pop, gives_pure]
    refine ⟨fun _ => ⟨m.stack, rfl⟩, fun v vs hst => ?_⟩
    have h := ih { m with stack := vs }
    unfold Gives at h ⊢
    cases hr : popArgs k { m with stack := vs } with
    | ok ws n =>
      rw [hr] at h
      obtain ⟨hle, rfl⟩ := h
      simp only [hst, List.length_cons, List.drop_succ_cons, and_true]
      exact Nat.succ_le_succ hle
    | error e n =>
      rw [hr] at h
      exact h

/-- A context has its arguments off the stack, and an operand stack of its own. -/
theorem isolate_gives (s : Settings) (func arity locals : Nat) (m : Machine) :
    Gives (isolate s func arity locals) m
      (fun c n => arity ≤ m.stack.length ∧ n = { m with stack := m.stack.drop arity } ∧ c.stack = [])
      (fun _ n => ∃ st, n = { m with stack := st }) := by
  have h := popArgs_gives arity m
  unfold isolate
  simp only [gives_bind, gives_get, gives_pure]
  unfold Gives at h ⊢
  cases hr : popArgs arity m with
  | ok ws n =>
    rw [hr] at h
    exact ⟨h.1, h.2, trivial⟩
  | error e n =>
    rw [hr] at h
    exact h

theorem writeBack_gives (s : Settings) (values : List Value) (ks : List Nat) (m : Machine) :
    Gives (writeBack s values ks) m (fun _ n => ∃ gs, n = { m with globals := gs })
      (fun _ n => ∃ gs, n = { m with globals := gs }) := by
  induction ks generalizing m with
  | nil => exact ⟨m.globals, rfl⟩
  | cons k ks ih =>
    simp only [writeBack, storeGlobal, gives_bind, gives_lift, gives_modify]
    refine ⟨fun i _ => ?_, fun _ _ => ⟨m.globals, rfl⟩⟩
    exact ih _

/-- Isolated code leaves behind its globals and its value. -/
theorem rejoin_gives (s : Settings) (c : Context) (m : Machine) :
    Gives (rejoin s c) m
      (fun _ n => ∃ gs, n = { m with globals := gs, stack := c.result.toList ++ m.stack })
      (fun _ n => ∃ gs, n = { m with globals := gs }) := by
  have h := writeBack_gives s c.globals c.dirty m
  unfold rejoin
  simp only [gives_bind]
  unfold Gives at h ⊢
  cases hr : writeBack s c.globals c.dirty m with
  | ok u n =>
    rw [hr] at h
    obtain ⟨gs, rfl⟩ := h
    cases c.result with
    | none => exact ⟨gs, rfl⟩
    | some v => exact ⟨gs, rfl⟩
  | error e n =>
    rw [hr] at h
    exact h

/-- Where a branch goes, or why it does not. -/
theorem branch_cases (op : Opcode) (w : Branch) (t : Nat) (m : Machine) :
    (∃ st, (w = .always ∧ st = m.stack ∨ ∃ b v, w = .on b ∧ m.stack = v :: st ∧ v.truth = b) ∧
      branch op w t m = .ok (.jump t) { m with stack := st }) ∨
    (∃ b v st, w = .on b ∧ m.stack = v :: st ∧ v.truth ≠ b ∧
      branch op w t m = .ok .next { m with stack := st }) ∨
    ∃ e, branch op w t m = .error e m := by
  cases w with
  | always => exact Or.inl ⟨m.stack, Or.inl ⟨rfl, rfl⟩, rfl⟩
  | on b =>
    rw [branch_on]
    cases hst : m.stack with
    | nil =>
      have hpop : pop op m = .error (.stackUnderflow op) m := by simp only [pop, hst]
      exact Or.inr (Or.inr ⟨_, bind_of_error hpop⟩)
    | cons v st =>
      rw [bind_of_ok (pop_cons hst op)]
      by_cases hv : v.truth = b
      · rw [if_pos hv]
        exact Or.inl ⟨st, Or.inr ⟨b, v, rfl, rfl, hv⟩, rfl⟩
      · rw [if_neg hv]
        exact Or.inr (Or.inl ⟨b, v, st, rfl, rfl, hv, rfl⟩)

/-- An instruction that moves data leaves calls and control alone, but for the
locals of the innermost call. -/
theorem exec_cases {g : Frame} {fs : List Frame} (hfs : m.frames = g :: fs) (hm : m.stop = none)
    (s : Settings) (x : Instr) :
    (∃ n g', exec s x m = .ok () n ∧ n.frames = g' :: fs ∧ g'.outline = g.outline ∧ n.ip = m.ip ∧
      n.stop = none) ∨
    ∃ e n, exec s x m = .error e n ∧ n.ip = m.ip ∧ n.stop = none ∧
      n.frames.modifyHead Frame.outline = m.frames.modifyHead Frame.outline := by
  have hcalm := exec_outline s x m
  unfold Gives at hcalm
  cases hr : exec s x m with
  | ok u n =>
    rw [hr] at hcalm
    obtain ⟨g', hg', hout⟩ := frames_of_outline hcalm hfs
    exact Or.inl ⟨n, g', rfl, hg', hout, ip_of_outline hcalm, (stop_of_outline hcalm).trans hm⟩
  | error e n =>
    rw [hr] at hcalm
    exact Or.inr ⟨e, n, rfl, ip_of_outline hcalm, (stop_of_outline hcalm).trans hm,
      congrArg Machine.frames hcalm⟩

/-- A push of a known value does not fail. -/
theorem constant?_of_error {s : Settings} {x : Instr} {e : Fault} {n : Machine}
    (h : exec s x m = .error e n) : Peephole.constant? x = none := by
  obtain ⟨op, operand⟩ := x
  cases op with
  | pushInt =>
    cases operand with
    | none => rfl
    | some k => cases h
  | pushBool b => cases h
  | _ => rfl

end Machine

namespace Run

variable {σ : Type} {env : Env} {hooks : Hooks σ}

/-! ### Tasks and frames as calls -/

/-- The tasks and frames are those of these calls, with the machine at `ip`;
every call but the innermost is at the instruction that made the call inside. -/
inductive Nested (env : Env) : List Task → List Frame → (ip : Nat) → List Activation → Prop
  /-- The outermost call. -/
  | entry {f : Frame} {ip : Nat} (outermost : f.returnIp = none) :
      Nested env [.interpret 0 none] [f] ip [.stream f ip]
  /-- An interpreted call from the stream goes on in the task of its caller. -/
  | callee {d : Nat} {back : Option Nat} {ts : List Task} {g : Frame} {fs : List Frame}
      {ip ret : Nat} {a : Activation} {as : List Activation} (returns : g.returnIp = some (ret + 1))
      (deep : d < fs.length) (calls : a.Calls env)
      (below : Nested env (.interpret d back :: ts) fs ret (a :: as)) :
      Nested env (.interpret d back :: ts) (g :: fs) ip (.stream g ip :: a :: as)
  /-- One from compiled code has a task of its own. -/
  | task {ts : List Task} {g : Frame} {fs : List Frame} {ip back ret : Nat} {a : Activation}
      {as : List Activation} (returns : g.returnIp = some ret) (calls : a.Calls env)
      (below : Nested env ts fs back (a :: as)) :
      Nested env (.interpret fs.length (some back) :: ts) (g :: fs) ip (.stream g ip :: a :: as)
  | code {ts : List Task} {b : CompiledBody} {pc : Nat} {g : Frame} {fs : List Frame} {ip ret : Nat}
      {a : Activation} {as : List Activation} (returns : g.returnIp = some ret)
      (calls : a.Calls env) (below : Nested env ts fs ip (a :: as)) :
      Nested env (.integrated b pc :: ts) (g :: fs) ip (.code g b pc :: a :: as)
  | apart {ts : List Task} {b : CompiledBody} {pc : Nat} {c : Context} {fs : List Frame} {ip : Nat}
      {a : Activation} {as : List Activation} (calls : a.Calls env)
      (below : Nested env ts fs ip (a :: as)) :
      Nested env (.isolated b pc c :: ts) fs ip (.apart b pc c :: a :: as)

namespace Nested

variable {ts : List Task} {fs : List Frame} {ip : Nat} {a : Activation} {as : List Activation}

theorem tasks_ne_nil (h : Nested env ts fs ip as) : ts ≠ [] := by
  cases h <;> exact List.cons_ne_nil _ _

theorem exists_cons (h : Nested env ts fs ip as) : ∃ a as', as = a :: as' := by
  cases h <;> exact ⟨_, _, rfl⟩

theorem depth_lt {d : Nat} {back : Option Nat} (h : Nested env (.interpret d back :: ts) fs ip as) :
    d < fs.length := by
  cases h with
  | entry => exact Nat.zero_lt_one
  | callee _ hd => exact Nat.lt_succ_of_lt hd
  | task => exact Nat.lt_succ_self _

/-- The frames are those of the calls that have one. -/
theorem frames (h : Nested env ts fs ip as) : as.filterMap Activation.frame? = fs := by
  induction h with
  | entry => rfl
  | callee _ _ _ _ ih => simp [Activation.frame?, ← ih]
  | task _ _ _ ih => simp [Activation.frame?, ← ih]
  | code _ _ _ ih => simp [Activation.frame?, ← ih]
  | apart _ _ ih => exact ih

/-- The innermost task is at the instruction the innermost call is at. -/
theorem site (h : Nested env ts fs ip (a :: as)) {m : Machine} (hm : m.ip = ip) :
    ts.head?.bind (Task.site? env m) = a.site? env := by
  cases h <;> simp [Task.site?, Activation.site?, hm]

/-- All calls but the innermost wait at an instruction that calls. -/
theorem waiting (h : Nested env ts fs ip as) : ∀ b ∈ as.tail, b.Calls env := by
  induction h with
  | entry => intro b hb; cases hb
  | callee _ _ hc _ ih | task _ hc _ ih | code _ hc _ ih | apart hc _ ih =>
    intro b hb
    rcases List.mem_cons.mp hb with rfl | hb
    · exact hc
    · exact ih b hb

theorem of_stream {g : Frame} {k : Nat} (h : Nested env ts fs ip (.stream g k :: as)) :
    k = ip ∧ ∃ d back ts', ts = .interpret d back :: ts' := by
  cases h <;> exact ⟨rfl, _, _, _, rfl⟩

/-- A caller goes on behind its call. -/
theorem advance (h : Nested env ts fs ip (a :: as)) :
    Nested env (Task.resumed ts ip).1 fs (Task.resumed ts ip).2 (a.next :: as) := by
  cases h with
  | entry ho => exact .entry ho
  | callee hr hd hc hb => exact .callee hr hd hc hb
  | task hr hc hb => exact .task hr hc hb
  | code hr hc hb => exact .code hr hc hb
  | apart hc hb => exact .apart hc hb

/-- The stream may go on anywhere, and the locals of the call may change. -/
theorem stream {d : Nat} {back : Option Nat} (h : Nested env (.interpret d back :: ts) fs ip as) :
    ∃ g fs' as', fs = g :: fs' ∧ as = .stream g ip :: as' ∧
      ∀ g' ip', g'.outline = g.outline →
        Nested env (.interpret d back :: ts) (g' :: fs') ip' (.stream g' ip' :: as') := by
  cases h with
  | entry ho =>
    exact ⟨_, _, _, rfl, rfl, fun g' ip' hg => .entry ((Frame.returnIp_of_outline hg).trans ho)⟩
  | callee hr hd hc hb =>
    exact ⟨_, _, _, rfl, rfl, fun g' ip' hg =>
      .callee ((Frame.returnIp_of_outline hg).trans hr) hd hc hb⟩
  | task hr hc hb =>
    exact ⟨_, _, _, rfl, rfl, fun g' ip' hg =>
      .task ((Frame.returnIp_of_outline hg).trans hr) hc hb⟩

theorem integrated {b : CompiledBody} {pc : Nat} (h : Nested env (.integrated b pc :: ts) fs ip as) :
    ∃ g fs' a as', fs = g :: fs' ∧ as = .code g b pc :: a :: as' ∧ Nested env ts fs' ip (a :: as') ∧
      ∀ g' pc', g'.outline = g.outline →
        Nested env (.integrated b pc' :: ts) (g' :: fs') ip (.code g' b pc' :: a :: as') := by
  cases h with
  | code hr hc hb =>
    exact ⟨_, _, _, _, rfl, rfl, hb, fun g' pc' hg =>
      .code ((Frame.returnIp_of_outline hg).trans hr) hc hb⟩

end Nested

/-! ### What a step does to the calls under way -/

/-- One step of a run that goes on. The machine's place is left open: it is that
of the stream, and what is interpreted shows it anyway. -/
inductive Act (env : Env) (hooks : Hooks σ) (m : Machine) (s : σ) :
    List Activation → Machine → σ → List Activation → Prop
  | data {a : Activation} {as : List Activation} {g g' : Frame} {ip ip' : Nat} {x : Instr}
      {n : Machine} (frame : a.frame? = some g) (site : a.site? env = some (ip, x))
      (op : x.op.movesData = true)
      (exec : Machine.exec env.settings x m = .ok () n)
      (outline : g'.outline = g.outline) :
      Act env hooks m s (a :: as) { n with ip := ip' } s ((a.inFrame g').next :: as)
  | jump {a : Activation} {as : List Activation} {g : Frame} {ip ip' t : Nat} {x : Instr} {w : Branch}
      {st : List Value} (frame : a.frame? = some g) (site : a.site? env = some (ip, x))
      (op : x.op = .jump w) (target : a.target? env x = some t)
      (taken : w = .always ∧ st = m.stack ∨
        ∃ b v, w = .on b ∧ m.stack = v :: st ∧ v.truth = b) :
      Act env hooks m s (a :: as) { m with ip := ip', stack := st } s (a.goto t :: as)
  | pass {a : Activation} {as : List Activation} {g : Frame} {ip ip' : Nat} {x : Instr} {b : Bool}
      {v : Value} {st : List Value} (frame : a.frame? = some g)
      (site : a.site? env = some (ip, x)) (op : x.op = .jump (.on b)) (stack : m.stack = v :: st)
      (falls : v.truth ≠ b) :
      Act env hooks m s (a :: as) { m with ip := ip', stack := st } s (a.next :: as)
  | call {a : Activation} {as : List Activation} {ip k ret : Nat} {x : Instr} {f : Function} {t : σ}
      (site : a.site? env = some (ip, x)) (op : x.op = .call) (callee : a.callee? env x = some k)
      (unserved : hooks.compiled s k = (none, t)) (func : env.program.functions[k]? = some f)
      (enough : f.arity ≤ m.stack.length) :
      Act env hooks m s (a :: as)
        { m with
          ip := f.entry, stack := m.stack.drop f.arity
          frames := f.newFrame k ret m.stack :: m.frames }
        (hooks.notify t k) (.stream (f.newFrame k ret m.stack) f.entry :: a :: as)
  | enter {a : Activation} {as : List Activation} {ip k ret : Nat} {x : Instr} {b : CompiledBody}
      {f : Function} {t : σ} (site : a.site? env = some (ip, x)) (op : x.op = .call)
      (callee : a.callee? env x = some k)
      (served : hooks.compiled s k = (some (.integrated b), t))
      (func : env.program.functions[b.func]? = some f) (enough : f.arity ≤ m.stack.length) :
      Act env hooks m s (a :: as)
        { m with
          compiledCalls := m.compiledCalls + 1, stack := m.stack.drop f.arity
          frames := f.newFrame b.func ret m.stack :: m.frames }
        t (.code (f.newFrame b.func ret m.stack) b 0 :: a :: as)
  | isolate {a : Activation} {as : List Activation} {ip k arity locals : Nat} {x : Instr}
      {b : CompiledBody} {c : Context} {t : σ} (site : a.site? env = some (ip, x))
      (op : x.op = .call) (callee : a.callee? env x = some k)
      (served : hooks.compiled s k = (some (.isolated b arity locals), t))
      (enough : arity ≤ m.stack.length) (fresh : c.stack = []) :
      Act env hooks m s (a :: as)
        { m with
          compiledCalls := m.compiledCalls + 1, stack := m.stack.drop arity }
        t (.apart b 0 c :: a :: as)
  | ret {a b : Activation} {as : List Activation} {g : Frame} {fs : List Frame} {ip ip' : Nat}
      {x : Instr} {v : Value} {st : List Value} (frame : a.frame? = some g)
      (frames : m.frames = g :: fs) (site : a.site? env = some (ip, x)) (op : x.op = .ret)
      (stack : m.stack = v :: st) :
      Act env hooks m s (a :: b :: as)
        { m with
          ip := ip', frames := fs, stack := v :: st.drop (st.length - g.base) }
        s (b.next :: as)
  | retVoid {a b : Activation} {as : List Activation} {g : Frame} {fs : List Frame} {ip ip' : Nat}
      {x : Instr} (frame : a.frame? = some g) (frames : m.frames = g :: fs)
      (site : a.site? env = some (ip, x)) (op : x.op = .retVoid) :
      Act env hooks m s (a :: b :: as)
        { m with
          ip := ip', frames := fs, stack := m.stack.drop (m.stack.length - g.base) }
        s (b.next :: as)
  /-- Integrated code that runs off its end returns no value. -/
  | off {b : Activation} {as : List Activation} {g : Frame} {fs : List Frame} {ip' : Nat}
      {body : CompiledBody} {pc : Nat} (frames : m.frames = g :: fs) (done : body.code[pc]? = none) :
      Act env hooks m s (.code g body pc :: b :: as)
        { m with ip := ip', frames := fs, stack := m.stack.drop (m.stack.length - g.base) }
        s (b.next :: as)
  | on {as : List Activation} {body : CompiledBody} {pc pc' : Nat} {c c' : Context}
      (step : Context.step body.code pc c = .on pc' c') :
      Act env hooks m s (.apart body pc c :: as) m s (.apart body pc' c' :: as)
  | ended {b : Activation} {as : List Activation} {body : CompiledBody} {pc ip' : Nat}
      {c c' : Context} {gs : List Value} (step : Context.step body.code pc c = .ended c') :
      Act env hooks m s (.apart body pc c :: b :: as)
        { m with
          ip := ip', globals := gs, output := m.output ++ c'.output
          stack := c'.result.toList ++ m.stack }
        s (b.next :: as)

/-- What a step comes to, given the calls under way. -/
inductive Outcome (env : Env) (hooks : Hooks σ) (m : Machine) (s : σ) :
    List Activation → Progress σ → Prop
  | running {as as' : List Activation} {n : Machine} {s' : σ} {ts : List Task}
      (act : Act env hooks m s as n s' as') (nested : Nested env ts n.frames n.ip as')
      (going : n.stop = none) : Outcome env hooks m s as (.running ⟨n, s', ts⟩)
  /-- The innermost call fails at its instruction, which is no push of a known
  value. The frames stay, but for the locals of the innermost. -/
  | fault {a : Activation} {as : List Activation} {ip : Nat} {x : Instr} {cause : Fault} {n : Machine}
      {s' : σ} (site : a.site? env = some (ip, x)) (varies : Peephole.constant? x = none)
      (going : n.stop = none)
      (frames : n.frames.modifyHead Frame.outline = m.frames.modifyHead Frame.outline) :
      Outcome env hooks m s (a :: as) (.ended ⟨some (.trap ip x (.fault cause)), n, s'⟩)
  /-- It ends but cannot be left, which is a fault of its caller. -/
  | lost {a b : Activation} {as : List Activation} {ip : Nat} {x : Instr} {cause : Fault} {n : Machine}
      {s' : σ} (site : b.site? env = some (ip, x)) (op : x.op = .call) (going : n.stop = none)
      (frames : n.frames = m.frames) :
      Outcome env hooks m s (a :: b :: as) (.ended ⟨some (.trap ip x (.fault cause)), n, s'⟩)
  | halted {as : List Activation} {n : Machine} {s' : σ} {v : Option Value}
      (stop : n.stop = some (.halted v)) : Outcome env hooks m s as (.ended ⟨none, n, s'⟩)
  | ranOut {g : Frame} {ip : Nat} {as : List Activation} {n : Machine} {s' : σ}
      (done : env.program.code[ip]? = none) (stop : n.stop = some .ranOut) :
      Outcome env hooks m s (.stream g ip :: as) (.ended ⟨none, n, s'⟩)

section Outcome

variable {m n : Machine} {s t : σ} {ts : List Task} {fs : List Frame} {k : Nat} {x : Instr}
  {a b : Activation} {as : List Activation}

/-- A fault names the instruction of the innermost call. -/
theorem fail_eq (h : Nested env ts fs n.ip (a :: as)) (hsite : a.site? env = some (k, x))
    (e : Fault) : fail env ⟨n, t, ts⟩ e = .ended ⟨some (.trap k x (.fault e)), n, t⟩ := by
  have hhead := (h.site (m := n) rfl).trans hsite
  obtain ⟨task, htask, htsite⟩ := Option.bind_eq_some_iff.mp hhead
  obtain ⟨around, rfl⟩ := List.head?_eq_some_iff.mp htask
  rw [fail, carry_fault htsite]

theorem fail_fault (h : Nested env ts fs n.ip (a :: as)) (hn : n.stop = none)
    (hsite : a.site? env = some (k, x)) (hx : Peephole.constant? x = none) (e : Fault)
    (hframes : n.frames.modifyHead Frame.outline = m.frames.modifyHead Frame.outline := by rfl) :
    Outcome env hooks m s (a :: as) (fail env ⟨n, t, ts⟩ e) := by
  rw [fail_eq h hsite]
  exact .fault hsite hx hn hframes

theorem fail_lost (h : Nested env ts fs n.ip (b :: as)) (hn : n.stop = none) (hc : b.Calls env)
    (hframes : n.frames = m.frames) (e : Fault) : Outcome env hooks m s (a :: b :: as) (fail env ⟨n, t, ts⟩ e) := by
  obtain ⟨k, x, hsite, hop⟩ := hc
  rw [fail_eq h hsite]
  exact .lost hsite hop hn hframes

theorem resume_outcome (h : Nested env ts n.frames n.ip (b :: as)) (hn : n.stop = none)
    (hact : ∀ ip', Act env hooks m s (a :: b :: as) { n with ip := ip' } s (b.next :: as)) :
    Outcome env hooks m s (a :: b :: as) (resume n s ts) := by
  rw [resume_running hn h.tasks_ne_nil]
  exact .running (hact _) h.advance hn

theorem stopped_outcome {v : Option Value} (hn : n.stop = some (.halted v)) (t : Task) :
    Outcome env hooks m s as (resume (t.restore n) s ts) := by
  obtain ⟨ip, he⟩ := restore_stopped (by rw [hn]; rfl) s t ts
  rw [he]
  exact .halted (v := v) hn

theorem constant?_of_call (hop : x.op = .call) : Peephole.constant? x = none := by
  simp only [Peephole.constant?, hop]

/-! ### Calls -/

/-- A call that compiled code serves. -/
theorem beginCompiled_outcome (h : Nested env ts m.frames m.ip (a :: as)) (hm : m.stop = none)
    (hsite : a.site? env = some (k, x)) (hop : x.op = .call) {i : Nat}
    (hi : a.callee? env x = some i) {art : Artifact} (ha : hooks.compiled s i = (some art, t)) :
    Outcome env hooks m s (a :: as) (beginCompiled env ⟨m, t, ts⟩ art) := by
  have hcalls : a.Calls env := ⟨_, _, hsite, hop⟩
  unfold beginCompiled
  cases art with
  | integrated body =>
    unfold begin
    rcases Machine.enter_cases env.program body.func m.ip
      { m with compiledCalls := m.compiledCalls + 1 } with ⟨f, hf, harity, he⟩ | ⟨e, he⟩
    · simp only [he]
      exact .running (.enter hsite hop hi ha hf harity) (.code rfl hcalls h) hm
    · simp only [he]
      exact fail_fault (n := { m with compiledCalls := m.compiledCalls + 1 }) h hm hsite
        (constant?_of_call hop) e
  | isolated body arity locals =>
    have hgives := Machine.isolate_gives env.settings body.func arity locals
      { m with compiledCalls := m.compiledCalls + 1 }
    unfold Gives at hgives
    unfold begin
    cases hr : Machine.isolate env.settings body.func arity locals
      { m with compiledCalls := m.compiledCalls + 1 } with
    | ok c n =>
      rw [hr] at hgives
      obtain ⟨harity, rfl, hfresh⟩ := hgives
      simp only [hr]
      exact .running (.isolate hsite hop hi ha harity hfresh) (.apart hcalls h) hm
    | error e n =>
      rw [hr] at hgives
      obtain ⟨st, rfl⟩ := hgives
      simp only [hr]
      exact fail_fault (n := { m with compiledCalls := m.compiledCalls + 1, stack := st }) h hm hsite
        (constant?_of_call hop) e

theorem callFromStream_outcome {d : Nat} {back : Option Nat}
    (h : Nested env (.interpret d back :: ts) m.frames m.ip (a :: as)) (hm : m.stop = none)
    (hsite : a.site? env = some (k, x)) (hop : x.op = .call) {i : Nat}
    (hi : a.callee? env x = some i) :
    Outcome env hooks m s (a :: as)
      (callFromStream env hooks ⟨m, s, .interpret d back :: ts⟩ i) := by
  unfold callFromStream
  rcases ha : hooks.compiled s i with ⟨_ | art, t⟩
  · simp only
    rcases Machine.enter_cases env.program i (m.ip + 1) m with ⟨f, hf, harity, he⟩ | ⟨e, he⟩
    · simp only [he]
      exact .running (.call hsite hop hi ha hf harity)
        (.callee rfl h.depth_lt ⟨_, _, hsite, hop⟩ h) hm
    · simp only [he]
      exact fail_fault h hm hsite (constant?_of_call hop) e
  · simp only
    exact beginCompiled_outcome h hm hsite hop hi ha

theorem call_outcome (h : Nested env ts m.frames m.ip (a :: as)) (hm : m.stop = none)
    (hsite : a.site? env = some (k, x)) (hop : x.op = .call) {i : Nat}
    (hi : a.callee? env x = some i) :
    Outcome env hooks m s (a :: as) (call env hooks ⟨m, s, ts⟩ i) := by
  unfold call
  split_ifs with hlt
  · exact fail_fault h hm hsite (constant?_of_call hop) _
  · rcases ha : hooks.compiled s i with ⟨_ | art, t⟩
    · simp only
      rcases Machine.enter_cases env.program i m.ip m with ⟨f, hf, harity, he⟩ | ⟨e, he⟩
      · simp only [he]
        exact .running (.call hsite hop hi ha hf harity) (.task rfl ⟨_, _, hsite, hop⟩ h) hm
      · simp only [he]
        exact fail_fault h hm hsite (constant?_of_call hop) e
    · simp only
      exact beginCompiled_outcome h hm hsite hop hi ha

/-! ### The stream -/

section Stream

variable {d : Nat} {back : Option Nat} {g : Frame}

/-- A return from the stream, by what the frame belongs to. -/
theorem return_stream {ip : Nat} {v : Option Value}
    (h : Nested env (.interpret d back :: ts) (g :: fs) ip as) (hn : n.frames = g :: fs)
    (hstop : n.stop = none)
    (hact : ∀ b as' ip', as = .stream g ip :: b :: as' →
      Act env hooks m s as { n with
        ip := ip', frames := fs, stack := v.toList ++ n.stack.drop (n.stack.length - g.base) }
        s (b.next :: as')) (op : Opcode) :
    Outcome env hooks m s as
      (afterInterpret env hooks s d back ts (Machine.returnWith op v n)) := by
  cases h with
  | entry ho =>
    rw [Machine.returnWith_none hn ho]
    exact stopped_outcome rfl _
  | @callee _ _ _ _ _ _ ret b as' hr hd hc hb =>
    rw [Machine.returnWith_some hn hr]
    simp only [afterInterpret, if_neg (Nat.not_le_of_lt hd)]
    exact .running (hact b as' _ rfl) hb.advance hstop
  | @task _ _ _ _ back ret b as' hr hc hb =>
    rw [Machine.returnWith_some hn hr]
    simp only [afterInterpret, le_refl, ↓reduceIte]
    exact resume_outcome (n := { n with
      ip := back, frames := fs, stack := v.toList ++ n.stack.drop (n.stack.length - g.base) })
      hb hstop fun ip' => hact b as' ip' rfl

theorem data_stream (h : Nested env (.interpret d back :: ts) m.frames m.ip as)
    (hm : m.stop = none) (hx : env.program.code[m.ip]? = some x)
    (hd : x.op.movesData = true) :
    Outcome env hooks m s as
      (afterInterpret env hooks s d back ts (Machine.interpret env x m)) := by
  obtain ⟨g, fs, as', hfs, rfl, hmove⟩ := h.stream
  have hsite : (Activation.stream g m.ip).site? env = some (m.ip, x) := by
    simp only [Activation.site?, hx, Option.map_some]
  rw [Machine.interpret_data hd]
  rcases Machine.exec_cases hfs hm env.settings x with
    ⟨n, g', hr, hg', hout, hip, hn⟩ | ⟨e, n, hr, hip, hn, hframes⟩
  · rw [bind_of_ok hr]
    have hnested : Nested env (.interpret d back :: ts) n.frames (n.ip + 1)
        (.stream g' (m.ip + 1) :: as') := by
      rw [hg', hip]
      exact hmove g' (m.ip + 1) hout
    exact .running (.data rfl hsite hd hr hout) hnested hn
  · rw [bind_of_error hr]
    have h' : Nested env (.interpret d back :: ts) m.frames n.ip (.stream g m.ip :: as') := by
      rw [hip]
      exact h
    exact fail_fault h' hn hsite (Machine.constant?_of_error hr) e hframes

theorem jump_stream (h : Nested env (.interpret d back :: ts) m.frames m.ip as)
    (hm : m.stop = none) (hx : env.program.code[m.ip]? = some x) {w : Branch}
    (hop : x.op = .jump w) :
    Outcome env hooks m s as
      (afterInterpret env hooks s d back ts (Machine.interpret env x m)) := by
  obtain ⟨g, fs, as', hfs, rfl, hmove⟩ := h.stream
  have hsite : (Activation.stream g m.ip).site? env = some (m.ip, x) := by
    simp only [Activation.site?, hx, Option.map_some]
  have hvaries : Peephole.constant? x = none := by simp only [Peephole.constant?, hop]
  have hgo : ∀ ip', Nested env (.interpret d back :: ts) m.frames ip' (.stream g ip' :: as') := by
    intro ip'
    rw [hfs]
    exact hmove g ip' rfl
  cases ht : Machine.jumpTarget env.program x with
  | error e =>
    rw [Machine.interpret_badJump hop ht]
    exact fail_fault h hm hsite hvaries e
  | ok t =>
    have htarget : (Activation.stream g m.ip).target? env x = some t := by
      simp only [Activation.target?, ht, Except.toOption]
    rw [Machine.interpret_jump hop ht]
    rcases Machine.branch_cases x.op w t m with
      ⟨st, htaken, hb⟩ | ⟨b, v, st, rfl, hst, hv, hb⟩ | ⟨e, hb⟩
    · rw [hb]
      exact .running (.jump rfl hsite hop htarget htaken) (hgo t) hm
    · rw [hb]
      exact .running (.pass rfl hsite hop hst hv) (hgo (m.ip + 1)) hm
    · rw [hb]
      exact fail_fault h hm hsite hvaries e

theorem stream_outcome (h : Nested env (.interpret d back :: ts) m.frames m.ip as)
    (hm : m.stop = none) (hx : env.program.code[m.ip]? = some x) :
    Outcome env hooks m s as
      (afterInterpret env hooks s d back ts (Machine.interpret env x m)) := by
  by_cases hd : x.op.movesData = true
  · exact data_stream h hm hx hd
  obtain ⟨g, fs, as', hfs, rfl, hmove⟩ := h.stream
  have hsite : (Activation.stream g m.ip).site? env = some (m.ip, x) := by
    simp only [Activation.site?, hx, Option.map_some]
  cases hop : x.op with
  | jump w => exact jump_stream h hm hx hop
  | call =>
    cases hk : Machine.callee env.program x with
    | error e =>
      rw [Machine.interpret_badCall hop hk]
      exact fail_fault h hm hsite (constant?_of_call hop) e
    | ok i =>
      rw [Machine.interpret_call hop hk]
      exact callFromStream_outcome h hm hsite hop
        (by simp only [Activation.callee?, hk, Except.toOption])
  | ret =>
    rw [Machine.interpret_ret hop]
    cases hst : m.stack with
    | nil =>
      have hpop : Machine.pop .ret m = .error (.stackUnderflow .ret) m := by
        simp only [Machine.pop, hst]
      rw [bind_of_error hpop]
      exact fail_fault h hm hsite (by simp only [Peephole.constant?, hop]) _
    | cons v st =>
      rw [bind_of_ok (Machine.pop_cons hst .ret)]
      rw [hfs] at h
      exact return_stream (n := { m with stack := st }) h hfs hm
        (fun b as' ip' heq => heq ▸ .ret rfl hfs hsite hop hst) _
  | retVoid =>
    rw [Machine.interpret_retVoid hop]
    rw [hfs] at h
    exact return_stream h hfs hm (fun b as' ip' heq => heq ▸ .retVoid rfl hfs hsite hop) _
  | halt =>
    rw [Machine.interpret_halt hop]
    exact stopped_outcome (v := none) rfl _
  | _ => rw [hop] at hd; exact absurd rfl hd

end Stream

/-! ### Integrated code -/

section Code

variable {body : CompiledBody} {pc : Nat}

theorem data_code (h : Nested env (.integrated body pc :: ts) m.frames m.ip as) (hm : m.stop = none)
    (hx : body.code[pc]? = some x) (hd : x.op.movesData = true) :
    Outcome env hooks m s as
      (afterIntegrated env hooks s body pc ts (Machine.integrated env body.func x m)) := by
  obtain ⟨g, fs, a, as', hfs, rfl, -, hmove⟩ := h.integrated
  have hsite : (Activation.code g body pc).site? env = some (body.ips.getD pc 0, x) := by
    simp only [Activation.site?, CompiledBody.site?, hx, Option.map_some]
  rw [Machine.integrated_data hd]
  rcases Machine.exec_cases hfs hm env.settings x with
    ⟨n, g', hr, hg', hout, hip, hn⟩ | ⟨e, n, hr, hip, hn, hframes⟩
  · rw [bind_of_ok hr]
    have hnested : Nested env (.integrated body (pc + 1) :: ts) n.frames n.ip
        (.code g' body (pc + 1) :: a :: as') := by
      rw [hg', hip]
      exact hmove g' (pc + 1) hout
    exact .running (.data (n := n) rfl hsite hd hr hout) hnested hn
  · rw [bind_of_error hr]
    rw [← hip] at h
    exact fail_fault h hn hsite (Machine.constant?_of_error hr) e hframes

theorem jump_code (h : Nested env (.integrated body pc :: ts) m.frames m.ip as) (hm : m.stop = none)
    (hx : body.code[pc]? = some x) {w : Branch} (hop : x.op = .jump w) :
    Outcome env hooks m s as
      (afterIntegrated env hooks s body pc ts (Machine.integrated env body.func x m)) := by
  obtain ⟨g, fs, a, as', hfs, rfl, -, hmove⟩ := h.integrated
  have hsite : (Activation.code g body pc).site? env = some (body.ips.getD pc 0, x) := by
    simp only [Activation.site?, CompiledBody.site?, hx, Option.map_some]
  have hvaries : Peephole.constant? x = none := by simp only [Peephole.constant?, hop]
  have hgo : ∀ pc', Nested env (.integrated body pc' :: ts) m.frames m.ip
      (.code g body pc' :: a :: as') := by
    intro pc'
    rw [hfs]
    exact hmove g pc' rfl
  have hjump : Machine.integrated env body.func x m =
      Machine.branch x.op w ((Instr.place? (x.operand.getD 0)).getD 0) m := by
    unfold Machine.integrated
    rw [hop]
  rw [hjump]
  rcases Machine.branch_cases x.op w ((Instr.place? (x.operand.getD 0)).getD 0) m with
    ⟨st, htaken, hb⟩ | ⟨b, v, st, rfl, hst, hv, hb⟩ | ⟨e, hb⟩
  · rw [hb]
    exact .running (.jump rfl hsite hop rfl htaken) (hgo _) hm
  · rw [hb]
    exact .running (.pass rfl hsite hop hst hv) (hgo (pc + 1)) hm
  · rw [hb]
    exact fail_fault h hm hsite hvaries e

theorem code_outcome (h : Nested env (.integrated body pc :: ts) m.frames m.ip as)
    (hm : m.stop = none) (hx : body.code[pc]? = some x) :
    Outcome env hooks m s as
      (afterIntegrated env hooks s body pc ts (Machine.integrated env body.func x m)) := by
  by_cases hd : x.op.movesData = true
  · exact data_code h hm hx hd
  obtain ⟨g, fs, a, as', hfs, rfl, hbelow, -⟩ := h.integrated
  have hsite : (Activation.code g body pc).site? env = some (body.ips.getD pc 0, x) := by
    simp only [Activation.site?, CompiledBody.site?, hx, Option.map_some]
  cases hop : x.op with
  | jump w => exact jump_code h hm hx hop
  | call =>
    have hcall : Machine.integrated env body.func x m =
        .ok (.call ((Instr.place? (x.operand.getD 0)).getD (UInt64.size - 1))) m := by
      unfold Machine.integrated
      rw [hop]
      rfl
    rw [hcall]
    exact call_outcome h hm hsite hop rfl
  | ret =>
    rw [Machine.integrated_ret hop]
    cases hst : m.stack with
    | nil =>
      have hpop : Machine.pop .ret m = .error (.stackUnderflow .ret) m := by
        simp only [Machine.pop, hst]
      rw [bind_of_error hpop]
      exact fail_fault h hm hsite (by simp only [Peephole.constant?, hop]) _
    | cons v st =>
      rw [bind_of_ok (Machine.pop_cons hst .ret),
        bind_of_ok (Machine.leave_cons (m := { m with stack := st }) hfs)]
      exact resume_outcome (n := { m with frames := fs, stack := v :: st.drop (st.length - g.base) })
        hbelow hm fun ip' => .ret rfl hfs hsite hop hst
  | retVoid =>
    rw [Machine.integrated_retVoid hop, bind_of_ok (Machine.leave_cons hfs)]
    exact resume_outcome
      (n := { m with frames := fs, stack := m.stack.drop (m.stack.length - g.base) })
      hbelow hm fun ip' => .retVoid rfl hfs hsite hop
  | halt =>
    have hhalt : Machine.integrated env body.func x m = .error (.haltInCompiled body.func) m := by
      unfold Machine.integrated
      rw [hop]
      rfl
    rw [hhalt]
    exact fail_fault h hm hsite (by simp only [Peephole.constant?, hop]) _
  | _ => rw [hop] at hd; exact absurd rfl hd

/-- Code that has run off its end. -/
theorem off_outcome (h : Nested env (.integrated body pc :: ts) m.frames m.ip as)
    (hm : m.stop = none) (hx : body.code[pc]? = none) :
    Outcome env hooks m s as (stepIntegrated env hooks ⟨m, s, .integrated body pc :: ts⟩ body pc ts) := by
  obtain ⟨g, fs, a, as', hfs, rfl, hbelow, -⟩ := h.integrated
  simp only [stepIntegrated, hx, Machine.leave_cons hfs]
  exact resume_outcome (n := { m with frames := fs, stack := m.stack.drop (m.stack.length - g.base) })
    hbelow hm fun ip' => .off hfs hx

end Code

/-! ### Isolated code -/

theorem apart_outcome {body : CompiledBody} {pc : Nat} {c : Context}
    (h : Nested env (.isolated body pc c :: ts) m.frames m.ip as) (hm : m.stop = none) :
    Outcome env hooks m s as
      (stepIsolated env ⟨m, s, .isolated body pc c :: ts⟩ body pc c ts) := by
  cases h with
  | @apart _ _ _ _ _ _ a as' hc hb =>
    unfold stepIsolated
    cases hr : Context.step body.code pc c with
    | on pc' c' => exact .running (.on hr) (.apart hc hb) hm
    | ended c' =>
      have hgives := Machine.rejoin_gives env.settings c' (m.printAll c'.output)
      unfold Gives at hgives
      simp only [endIsolated]
      cases hj : Machine.rejoin env.settings c' (m.printAll c'.output) with
      | ok u n =>
        rw [hj] at hgives
        obtain ⟨gs, rfl⟩ := hgives
        exact resume_outcome (n := { m.printAll c'.output with
          globals := gs, stack := c'.result.toList ++ m.stack }) hb hm fun ip' => .ended hr
      | error e n =>
        rw [hj] at hgives
        obtain ⟨gs, rfl⟩ := hgives
        exact fail_lost (m := m) (n := { m.printAll c'.output with globals := gs }) hb hm hc rfl e
    | failed e c' =>
      obtain ⟨x, hx, he⟩ := Context.step_failed hr
      have hsite : (Activation.apart body pc c).site? env = some (body.ips.getD pc 0, x) := by
        simp only [Activation.site?, CompiledBody.site?, hx, Option.map_some]
      exact fail_fault (n := m.printAll c'.output) (.apart hc hb) hm hsite
        (Peephole.constant?_of_error he) e

/-! ### Any step -/

variable (hooks) in
/-- **Every step does one of these things to the calls under way**, or ends the
run. The machine may collect first. -/
theorem outcome {r : Run σ} (h : Nested env r.tasks r.machine.frames r.machine.ip as)
    (hm : r.machine.stop = none) :
    ∃ m, (m = r.machine ∨ m = r.machine.maybeCollect env.settings) ∧
      Outcome env hooks m r.hooks as (step env hooks r) := by
  obtain ⟨m, s, ts⟩ := r
  simp only at h hm
  have hcollect : ∀ {t : Task} {ts : List Task}, Nested env (t :: ts) m.frames m.ip as →
      Nested env (t :: ts) (m.maybeCollect env.settings).frames (m.maybeCollect env.settings).ip as := by
    intro t ts h
    rwa [Machine.frames_maybeCollect, Machine.ip_maybeCollect]
  have hstop : (m.maybeCollect env.settings).stop = none := by rw [Machine.stop_maybeCollect, hm]
  rcases ts with _ | ⟨⟨d, back⟩ | ⟨body, pc⟩ | ⟨body, pc, c⟩, ts⟩
  · exact absurd rfl h.tasks_ne_nil
  · refine ⟨m.maybeCollect env.settings, Or.inr rfl, ?_⟩
    cases hx : env.program.code[(m.maybeCollect env.settings).ip]? with
    | none =>
      obtain ⟨g, fs, as', hfs, rfl, -⟩ := h.stream
      rw [step_ranOut hm hx]
      obtain ⟨ip, he⟩ := restore_stopped (m := { m.maybeCollect env.settings with
        stop := some .ranOut }) rfl s (.interpret d back) ts
      rw [he]
      rw [Machine.ip_maybeCollect] at hx
      exact .ranOut hx rfl
    | some x =>
      rw [step_interpret hm hx]
      exact stream_outcome (hcollect h) hstop hx
  · cases hx : body.code[pc]? with
    | none => exact ⟨m, Or.inl rfl, off_outcome h hm hx⟩
    | some x =>
      rw [step_integrated hx]
      exact ⟨_, Or.inr rfl, code_outcome (hcollect h) hstop hx⟩
  · exact ⟨m, Or.inl rfl, apart_outcome h hm⟩

end Outcome

/-! ### Runs -/

/-- A run whose calls under way are these. -/
structure Under (env : Env) (r : Run σ) (as : List Activation) : Prop where
  nested : Nested env r.tasks r.machine.frames r.machine.ip as
  going : r.machine.stop = none

theorem under_boot (env : Env) (s : σ) (output : Array String) :
    ∃ f, Under env (boot env s output) [.stream f 0] :=
  ⟨_, .entry rfl, rfl⟩

section Runs

variable {r t u : Run σ} {m n : Machine} {s s' : σ} {as as' : List Activation}

theorem Under.step (h : Under env r as) (hs : Run.step env hooks r = .running u) :
    ∃ m as', (m = r.machine ∨ m = r.machine.maybeCollect env.settings) ∧
      Act env hooks m r.hooks as u.machine u.hooks as' ∧ Under env u as' := by
  obtain ⟨m, hm, ho⟩ := outcome hooks h.nested h.going
  rw [hs] at ho
  cases ho with
  | running hact hnested hgoing => exact ⟨m, _, hm, hact, hnested, hgoing⟩

theorem Under.ended {e : Ending σ} (h : Under env r as) (hs : Run.step env hooks r = .ended e) :
    ∃ m, Outcome env hooks m r.hooks as (.ended e) := by
  obtain ⟨m, -, ho⟩ := outcome hooks h.nested h.going
  rw [hs] at ho
  exact ⟨m, ho⟩

/-- What every step keeps of the calls under way holds of them throughout a
run. -/
theorem Under.keeps {I : Run σ → List Activation → Prop}
    (hstep : ∀ t u m as as', (m = t.machine ∨ m = t.machine.maybeCollect env.settings) →
      Under env t as → I t as → Act env hooks m t.hooks as u.machine u.hooks as' → Under env u as' →
      I u as')
    (h : Under env r as) (h0 : I r as) (hr : Reach env hooks r t) :
    ∃ as', Under env t as' ∧ I t as' := by
  refine hr.keeps (I := fun t => ∃ as', Under env t as' ∧ I t as') ?_ ⟨as, h, h0⟩
  rintro t u ⟨as, hunder, hi⟩ hs
  obtain ⟨m, as', hm, hact, hunder'⟩ := hunder.step hs
  exact ⟨as', hunder', hstep t u m as as' hm hunder hi hact hunder'⟩

theorem under_of_reach {output : Array String} (h : Reach env hooks (boot env s output) r) :
    ∃ as, Under env r as := by
  obtain ⟨f, hboot⟩ := under_boot env s output
  obtain ⟨as, hunder, -⟩ := hboot.keeps (I := fun _ _ => True)
    (fun _ _ _ _ _ _ _ _ _ _ => trivial) trivial h
  exact ⟨as, hunder⟩

theorem Act.serves {ok : Nat → Artifact → Prop} (h : Act env hooks m s as n s' as')
    (hs : hooks.Serves ok s) : hooks.Serves ok s' := by
  cases h with
  | call _ _ _ ha => exact (hs.compiled ha).notify _
  | enter _ _ _ ha => exact hs.compiled ha
  | isolate _ _ _ ha => exact hs.compiled ha
  | data | jump | pass | ret | retVoid | off | on | ended => exact hs

/-! ### One call -/

/-- How the calls under way may change: the innermost one goes on, calls, or
returns to its caller. -/
inductive Shape : List Activation → List Activation → Prop
  | stay (a a' : Activation) (as : List Activation) : Shape (a :: as) (a' :: as)
  | call (a a' : Activation) (as : List Activation) : Shape (a :: as) (a' :: a :: as)
  | ret (a b : Activation) (as : List Activation) : Shape (a :: b :: as) (b.next :: as)

theorem Act.shape (h : Act env hooks m s as n s' as') : Shape as as' := by
  cases h with
  | data | jump | pass | on => exact .stay ..
  | call | enter | isolate => exact .call ..
  | ret | retVoid | off | ended => exact .ret ..

/-- What goes on inside a call leaves it and its callers waiting; when all that
is over, the call goes on. -/
theorem Shape.inside {inner rest as' : List Activation} {a : Activation}
    (h : Shape (inner ++ a :: rest) as') (hne : inner ≠ []) :
    (∃ inner', inner' ≠ [] ∧ as' = inner' ++ a :: rest) ∨ as' = a.next :: rest := by
  obtain ⟨b, inner, rfl⟩ := List.exists_cons_of_ne_nil hne
  rw [List.cons_append] at h
  generalize htail : inner ++ a :: rest = tail at h
  cases h with
  | stay _ b' => exact Or.inl ⟨b' :: inner, List.cons_ne_nil _ _, by rw [← htail]; rfl⟩
  | call _ c => exact Or.inl ⟨c :: b :: inner, List.cons_ne_nil _ _, by rw [← htail]; rfl⟩
  | ret _ c as =>
    cases inner with
    | nil =>
      obtain ⟨rfl, rfl⟩ := List.cons.inj htail
      exact Or.inr rfl
    | cons d inner =>
      obtain ⟨rfl, rfl⟩ := List.cons.inj htail
      exact Or.inl ⟨d.next :: inner, List.cons_ne_nil _ _, rfl⟩

/-- At an instruction that calls, a call begins: it is interpreted, or else
compiled code serves it. -/
theorem Act.of_call {a : Activation} {ip : Nat} {x : Instr} (h : Act env hooks m s (a :: as) n s' as')
    (hsite : a.site? env = some (ip, x)) (hop : x.op = .call) :
    ∃ k, a.callee? env x = some k ∧
      ((∃ t f ret, hooks.compiled s k = (none, t) ∧ env.program.functions[k]? = some f ∧
        f.arity ≤ m.stack.length ∧ n.stack = m.stack.drop f.arity ∧
        as' = .stream (f.newFrame k ret m.stack) f.entry :: a :: as) ∨
      ∃ t art b, hooks.compiled s k = (some art, t) ∧ as' = b :: a :: as) := by
  have hinstr : ∀ {k : Nat} {y : Instr}, a.site? env = some (k, y) → y = x := by
    intro k y hy
    rw [hsite] at hy
    exact (Prod.mk.inj (Option.some.inj hy)).2.symm
  cases h with
  | call hs _ hk ha hf harity =>
    obtain rfl := hinstr hs
    exact ⟨_, hk, Or.inl ⟨_, _, _, ha, hf, harity, rfl, rfl⟩⟩
  | enter hs _ hk ha | isolate hs _ hk ha =>
    obtain rfl := hinstr hs
    exact ⟨_, hk, Or.inr ⟨_, _, _, ha, rfl⟩⟩
  | data _ hs hd => rw [hinstr hs, hop] at hd; cases hd
  | jump _ hs ho | pass _ hs ho | ret _ _ hs ho | retVoid _ _ hs ho =>
    rw [hinstr hs, hop] at ho
    cases ho
  | off _ hdone =>
    simp only [Activation.site?, CompiledBody.site?, hdone, Option.map_none] at hsite
    cases hsite
  | on hr | ended hr =>
    obtain ⟨y, hy, hpair⟩ := Option.map_eq_some_iff.mp hsite
    obtain rfl : y = x := (Prod.mk.inj hpair).2
    rw [Context.step_call hy hop] at hr
    cases hr

/-- The run is at a call of function `i` that no compiled code serves, and goes
on inside it. -/
structure Begins (env : Env) (hooks : Hooks σ) (i : Nat) (r u : Run σ) : Prop where
  site : ∃ ip x, r.tasks.head?.bind (Task.site? env r.machine) = some (ip, x) ∧ x.op = .call ∧
    x.operand.bind Instr.place? = some i
  unserved : (hooks.compiled r.hooks i).1 = none
  step : Run.step env hooks r = .running u

theorem callee?_eq {a : Activation} {x : Instr} {i k : Nat} (hx : x.operand.bind Instr.place? = some i)
    (h : a.callee? env x = some k) : k = i := by
  obtain ⟨n, hn, hi⟩ := Option.bind_eq_some_iff.mp hx
  cases a with
  | stream g ip =>
    simp only [Activation.callee?, Machine.callee, Instr.arg, hn, bind, Except.bind, slot?, hi] at h
    cases hf : (some i).filter (· < env.program.functions.length) with
    | none => rw [hf] at h; cases h
    | some j =>
      rw [hf] at h
      obtain rfl : j = k := Option.some.inj h
      exact (Option.some.inj (Option.filter_eq_some_iff.mp hf).1).symm
  | code | apart =>
    simp only [Activation.callee?, hn, Option.getD_some, hi, Option.some.injEq] at h
    exact h.symm

/-- A call that begins so has its arguments on the stack, and the calls under way
are its own and those from before. -/
theorem Begins.called {i : Nat} (hb : Begins env hooks i r u) (h : Under env r as) :
    ∃ f a as₀ ret, as = a :: as₀ ∧ a.Calls env ∧ env.program.functions[i]? = some f ∧
      f.arity ≤ r.machine.stack.length ∧ u.machine.stack = r.machine.stack.drop f.arity ∧
      Under env u (.stream (f.newFrame i ret r.machine.stack) f.entry :: a :: as₀) := by
  obtain ⟨ip, x, hsite, hop, hoperand⟩ := hb.site
  obtain ⟨m, as', hm, hact, hunder⟩ := h.step hb.step
  obtain ⟨a, as₀, rfl⟩ := h.nested.exists_cons
  rw [h.nested.site rfl] at hsite
  have hstack : m.stack = r.machine.stack := by
    rcases hm with rfl | rfl
    · rfl
    · exact Machine.stack_maybeCollect ..
  obtain ⟨k, hk, ⟨t, f, ret, -, hf, harity, hst, rfl⟩ | ⟨t, art, b, ha, -⟩⟩ := hact.of_call hsite hop
  · obtain rfl := callee?_eq hoperand hk
    rw [hstack] at harity hst hunder
    exact ⟨f, a, as₀, ret, rfl, ⟨ip, x, hsite, hop⟩, hf, harity, hst, hunder⟩
  · obtain rfl := callee?_eq hoperand hk
    have hnone := hb.unserved
    rw [ha] at hnone
    cases hnone

/-- The states on the way as long as there are more than `depth` frames, and the
first one after that. -/
inductive During (env : Env) (hooks : Hooks σ) (depth : Nat) (r : Run σ) : Run σ → Prop
  | here : During env hooks depth r r
  | step {t u : Run σ} : During env hooks depth r t → depth < t.machine.frames.length →
      Run.step env hooks t = .running u → During env hooks depth r u

/-- What every step inside a call keeps holds until the call is over. -/
theorem During.keeps {I : Run σ → List Activation → Prop} {depth : Nat}
    (hstep : ∀ t u m as as', (m = t.machine ∨ m = t.machine.maybeCollect env.settings) →
      depth < t.machine.frames.length → Under env t as → I t as →
      Act env hooks m t.hooks as u.machine u.hooks as' → Under env u as' → I u as')
    (h : Under env r as) (h0 : I r as) (ht : During env hooks depth r t) :
    ∃ as', Under env t as' ∧ I t as' := by
  induction ht with
  | here => exact ⟨as, h, h0⟩
  | step _ hdeep hs ih =>
    obtain ⟨as₁, hunder, hi⟩ := ih
    obtain ⟨m, as₂, hm, hact, hunder'⟩ := hunder.step hs
    exact ⟨as₂, hunder', hstep _ _ m as₁ as₂ hm hdeep hunder hi hact hunder'⟩

end Runs

end Run
end StackMachine
