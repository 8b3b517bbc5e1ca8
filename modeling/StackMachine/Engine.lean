/-
# The engine

The engine runs a program as its settings say: with a compile session that
serves calls, or by interpreting alone. Settings that something is wrong with
make no engine.

* `Engine.ofSettings`: an engine, or the problem;
* `Engine.execute`: one run, with what it printed.
-/
import StackMachine.Lifecycle.Session

namespace StackMachine

/-- What one run gave. -/
structure Execution where
  exit : Exit
  /-- Calls that were served by compiled code. -/
  compiledCalls : Nat
  /-- Functions that were compiled by the end of the run. -/
  compiledFunctions : Nat
  deriving DecidableEq, Repr

/-- Settings that nothing is wrong with. -/
structure Engine where
  settings : Settings
  valid : settings.Valid

namespace Engine

/-- Why the engine gives no result. -/
inductive Error where
  | settings (problem : Settings.Problem)
  | run (failure : Failure)
  deriving DecidableEq, Repr

def Error.message : Error → String
  | settings p => p.message
  | run f => "runtime error: " ++ f.message

def ofSettings (s : Settings) : Except Settings.Problem Engine :=
  match h : s.problem? with
  | some p => .error p
  | none => .ok ⟨s, h⟩

/-- Whether the functions of a program are compiled while it runs. -/
def compiles (e : Engine) (p : Program) : Bool :=
  e.settings.mode != .off && !p.functions.isEmpty

/-- The outcome of a run in which `compiledFunctions` were compiled. -/
def outcome {σ : Type} (r : Ending σ) (compiledFunctions : Nat) : Except Failure Execution :=
  r.result.map fun exit => ⟨exit, r.machine.compiledCalls, compiledFunctions⟩

/-- Run a program. The session, if there is one, is closed at the end, whatever
came of the run. -/
def execute (e : Engine) (p : Program) (fuel : Nat) :
    Option (Except Failure Execution × Array String) :=
  let env : Env := ⟨p, e.settings⟩
  if e.compiles p then
    (env.run (Lifecycle.Session.hooks (p.compile e.settings))
      (Lifecycle.Session.ofProgram p e.settings) #[] fuel).map fun r =>
        (outcome r (r.hooks.close.service.table.count .ready), r.machine.output)
  else
    (env.run Hooks.none () #[] fuel).map fun r => (outcome r 0, r.machine.output)

end Engine

/-- Run a program under some settings and tell only its result. -/
def runProgram (p : Program) (s : Settings) (fuel : Nat) : Option (Except Engine.Error Exit) :=
  match Engine.ofSettings s with
  | .error problem => some (.error (.settings problem))
  | .ok e => (e.execute p fuel).map fun (r, _) =>
    match r with
    | .error f => .error (.run f)
    | .ok x => .ok x.exit

end StackMachine
