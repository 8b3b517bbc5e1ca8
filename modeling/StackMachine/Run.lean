/-
# Running

A run is a machine together with what it is in the middle of: a list of tasks,
innermost first. A task interprets the stream, or runs a compiled body. Calls
between the two push and pop tasks, so that a run is a sequence of small steps
however deep they nest.

* `Hooks`: who may serve a call with compiled code;
* `Run.step`: one instruction;
* `Run.go`: steps until the run ends, at most as many as the fuel allows. `none`
  stands for a run that has not ended yet; it is no fault.

A fault passes through all tasks, and each attaches the instruction it is at
(`Run.carry`). So it belongs to the instruction the innermost task is at
(`Run.carry_fault`); a call that cannot begin belongs to the instruction that
calls.
-/
import StackMachine.Compiled.Artifact

namespace StackMachine

/-- Who is asked for compiled code at every call, and told of every call that is
interpreted. The answers may change over time. -/
structure Hooks (σ : Type) where
  compiled : σ → Nat → Option Artifact × σ
  notify : σ → Nat → σ

/-- No call is served. -/
def Hooks.none : Hooks Unit where
  compiled s _ := (Option.none, s)
  notify s _ := s

/-- Hooks that may be taken off. -/
def Hooks.option {σ : Type} (h : Hooks σ) : Hooks (Option σ) where
  compiled
    | Option.none, _ => (Option.none, Option.none)
    | some s, f => (h.compiled s f).map id some
  notify s f := s.map (h.notify · f)

/-- What a run is in the middle of. -/
inductive Task where
  /-- Interpret the stream until at most `depth` frames are left, then go back to
  the place `resume`, if there is one. -/
  | interpret (depth : Nat) (resume : Option Nat)
  /-- Run integrated code. -/
  | integrated (body : CompiledBody) (pc : Nat)
  /-- Run isolated code. -/
  | isolated (body : CompiledBody) (pc : Nat) (context : Context)
  deriving DecidableEq, Repr

/-- The instruction a task is at, with its place in the stream. -/
def Task.site? (env : Env) (m : Machine) : Task → Option (Nat × Instr)
  | interpret _ _ => env.program.code[m.ip]?.map fun i => (m.ip, i)
  | integrated b pc => b.site? pc
  | isolated b pc _ => b.site? pc

/-- The end of a task, as far as the machine can tell. -/
def Task.restore : Task → Machine → Machine
  | interpret _ (some ip), m => { m with ip }
  | _, m => m

/-- A machine and what it is in the middle of. -/
structure Run (σ : Type) where
  machine : Machine
  hooks : σ
  tasks : List Task

/-- How a run ends. -/
structure Ending (σ : Type) where
  failure : Option Failure
  machine : Machine
  hooks : σ

/-- The effect of one step. -/
inductive Progress (σ : Type) where
  | running (run : Run σ)
  | ended (ending : Ending σ)

namespace Run

variable {σ : Type}

/-- A failure on its way out of the tasks: each attaches the instruction it is at,
on the machine as it was when the task inside it began. -/
def carry (env : Env) : Machine → List Task → Failure → Failure
  | _, [], f => f
  | m, t :: ts, f =>
    carry env (t.restore m) ts <|
      match t.site? env m with
      | none => f
      | some (ip, i) => f.attach ip i

/-- A fault, carried out of all tasks. -/
def fail (env : Env) (r : Run σ) (cause : Fault) : Progress σ :=
  .ended ⟨some (carry env r.machine r.tasks (.fault cause)), r.machine, r.hooks⟩

/-- A failure that an instruction is attached to stays as it is, whatever it passes
through. -/
theorem carry_attach (env : Env) (m : Machine) (ts : List Task) (f : Failure) (ip : Nat)
    (i : Instr) : carry env m ts (f.attach ip i) = f.attach ip i := by
  induction ts generalizing m with
  | nil => rfl
  | cons t ts ih =>
    rw [carry]
    split
    · exact ih _
    · rw [Failure.attach_attach]
      exact ih _

/-- A fault belongs to the instruction the innermost task is at, once, however many
tasks there are around it. -/
theorem carry_fault {env : Env} {m : Machine} {t : Task} {ts : List Task} {ip : Nat} {i : Instr}
    (h : t.site? env m = some (ip, i)) (cause : Fault) :
    carry env m (t :: ts) (.fault cause) = .trap ip i (.fault cause) := by
  rw [carry, h]
  exact carry_attach env _ ts (.fault cause) ip i

/-- The fault behind a failure stays the same. -/
theorem root_carry (env : Env) (m : Machine) (ts : List Task) (f : Failure) :
    (carry env m ts f).root = f.root := by
  induction ts generalizing m f with
  | nil => rfl
  | cons t ts ih =>
    rw [carry, ih]
    split
    · rfl
    · exact f.root_attach ..

/-- Go on after a call that has ended: `tasks` are those around it, the caller
first. Once the run has stopped they all end. -/
def resume (m : Machine) (s : σ) : List Task → Progress σ
  | [] => .ended ⟨none, m, s⟩
  | t :: ts =>
    if m.stopped then resume (t.restore m) s ts
    else
      match t with
      | .interpret _ _ => .running ⟨{ m with ip := m.ip + 1 }, s, t :: ts⟩
      | .integrated b pc => .running ⟨m, s, .integrated b (pc + 1) :: ts⟩
      | .isolated b pc c => .running ⟨m, s, .isolated b (pc + 1) c :: ts⟩

/-- Begin an artifact; the tasks of the run are those around it. -/
def begin (env : Env) (r : Run σ) : Artifact → Progress σ
  | .integrated b =>
    match Machine.enter env.program b.func r.machine.ip r.machine with
    | .error e m => fail env { r with machine := m } e
    | .ok _ m => .running { r with machine := m, tasks := .integrated b 0 :: r.tasks }
  | .isolated b arity locals =>
    match Machine.isolate env.settings b.func arity locals r.machine with
    | .error e m => fail env { r with machine := m } e
    | .ok c m => .running { r with machine := m, tasks := .isolated b 0 c :: r.tasks }

/-- Serve a call by compiled code. -/
def beginCompiled (env : Env) (r : Run σ) (a : Artifact) : Progress σ :=
  begin env { r with machine :=
    { r.machine with compiledCalls := r.machine.compiledCalls + 1 } } a

/-- A call from the stream: an interpreted one goes on in the same task. -/
def callFromStream (env : Env) (hooks : Hooks σ) (r : Run σ) (func : Nat) : Progress σ :=
  match hooks.compiled r.hooks func with
  | (some a, s) => beginCompiled env { r with hooks := s } a
  | (none, s) =>
    match Machine.enter env.program func (r.machine.ip + 1) r.machine with
    | .error e m => fail env { r with machine := m, hooks := s } e
    | .ok start m => .running { r with machine := { m with ip := start }, hooks := hooks.notify s func }

/-- A call from elsewhere: an interpreted one is a task of its own. -/
def call (env : Env) (hooks : Hooks σ) (r : Run σ) (func : Nat) : Progress σ :=
  if env.program.functions.length ≤ func then fail env r (.noSuchFunction (Int64.ofNat func))
  else
    match hooks.compiled r.hooks func with
    | (some a, s) => beginCompiled env { r with hooks := s } a
    | (none, s) =>
      let ip := r.machine.ip
      let depth := r.machine.frames.length
      match Machine.enter env.program func ip r.machine with
      | .error e m => fail env { r with machine := m, hooks := s } e
      | .ok start m =>
        .running
          { machine := { m with ip := start }
            hooks := hooks.notify s func
            tasks := .interpret depth (some ip) :: r.tasks }

/-- One step of interpreting the stream; `r` has the task on top of `around`. -/
def stepInterpret (env : Env) (hooks : Hooks σ) (r : Run σ) (task : Task) (depth : Nat)
    (around : List Task) : Progress σ :=
  if r.machine.stopped then resume (task.restore r.machine) r.hooks around
  else
    let m := r.machine.maybeCollect env.settings
    match env.program.code[m.ip]? with
    | none => resume (task.restore { m with stop := some .ranOut }) r.hooks around
    | some i =>
      match Machine.interpret env i m with
      | .error e m => fail env { r with machine := m } e
      | .ok .next m => .running { r with machine := { m with ip := m.ip + 1 } }
      | .ok (.jump t) m => .running { r with machine := { m with ip := t } }
      | .ok (.call f) m => callFromStream env hooks { r with machine := m } f
      | .ok .returned m =>
        if m.frames.length ≤ depth then resume (task.restore m) r.hooks around
        else .running { r with machine := m }
      | .ok .stop m => resume (task.restore m) r.hooks around

/-- One step of integrated code. Running off its end returns no value. -/
def stepIntegrated (env : Env) (hooks : Hooks σ) (r : Run σ) (b : CompiledBody) (pc : Nat)
    (around : List Task) : Progress σ :=
  match b.code[pc]? with
  | none =>
    match Machine.leave .retVoid none r.machine with
    | .error e m => fail env ⟨m, r.hooks, around⟩ e
    | .ok _ m => resume m r.hooks around
  | some i =>
    match Machine.integrated env b.func i (r.machine.maybeCollect env.settings) with
    | .error e m => fail env { r with machine := m } e
    | .ok .next m => .running ⟨m, r.hooks, .integrated b (pc + 1) :: around⟩
    | .ok (.jump t) m => .running ⟨m, r.hooks, .integrated b t :: around⟩
    | .ok (.call f) m => call env hooks { r with machine := m } f
    | .ok .returned m => resume m r.hooks around
    | .ok .stop m => resume m r.hooks around

/-- The end of isolated code: what it printed and wrote reaches the machine. -/
def endIsolated (env : Env) (r : Run σ) (c : Context) (around : List Task) : Progress σ :=
  match Machine.rejoin env.settings c (r.machine.printAll c.output) with
  | .error e m => fail env ⟨m, r.hooks, around⟩ e
  | .ok _ m => resume m r.hooks around

/-- One step of isolated code. A fault, too, lets out what was printed. -/
def stepIsolated (env : Env) (r : Run σ) (b : CompiledBody) (pc : Nat) (c : Context)
    (around : List Task) : Progress σ :=
  match Context.step b.code pc c with
  | .on pc c => .running { r with tasks := .isolated b pc c :: around }
  | .ended c => endIsolated env r c around
  | .failed e c => fail env { r with machine := r.machine.printAll c.output } e

/-- One step of a run. -/
def step (env : Env) (hooks : Hooks σ) (r : Run σ) : Progress σ :=
  match r.tasks with
  | [] => .ended ⟨none, r.machine, r.hooks⟩
  | .interpret depth back :: around =>
    stepInterpret env hooks r (.interpret depth back) depth around
  | .integrated b pc :: around => stepIntegrated env hooks r b pc around
  | .isolated b pc c :: around => stepIsolated env r b pc c around

/-- Go on from some progress for as many steps as the fuel allows. -/
def go (env : Env) (hooks : Hooks σ) : (fuel : Nat) → Progress σ → Option (Ending σ)
  | _, .ended e => some e
  | 0, .running _ => none
  | fuel + 1, .running r => go env hooks fuel (step env hooks r)

/-- A program about to run on a machine that has printed `output`. -/
def boot (env : Env) (s : σ) (output : Array String) : Run σ :=
  ⟨Machine.boot env output, s, [.interpret 0 none]⟩

end Run

/-- What a run gives: an exit code, and a value if the outermost frame returned
one. -/
structure Exit where
  code : Nat
  value : Option Value
  deriving DecidableEq, Repr

/-- The result of a run that ended without a failure: a stream that ran out
counts as one that went wrong. -/
def Stop.result : Option Stop → Exit
  | some (.halted v) => ⟨0, v⟩
  | some .ranOut => ⟨1, none⟩
  | none => ⟨1, none⟩

/-- The result of a run, or its failure. -/
def Ending.result {σ : Type} (e : Ending σ) : Except Failure Exit :=
  match e.failure with
  | some f => .error f
  | none => .ok (Stop.result e.machine.stop)

/-- Run a program from the start. -/
def Env.run {σ : Type} (env : Env) (hooks : Hooks σ) (s : σ) (output : Array String)
    (fuel : Nat) : Option (Ending σ) :=
  Run.go env hooks fuel (.running (Run.boot env s output))

end StackMachine
