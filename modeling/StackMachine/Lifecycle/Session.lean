/-
# Sessions

A session is a compile service together with a count of the calls of every
function: a function that was called often enough is compiled. Jobs end before
anything else happens, or, while the session is held, they begin but do not end
until it is released.

* `Session.notify`: a call is counted and may start a job;
* `Session.hooks`: a session serves the calls of a run.
-/
import StackMachine.Compiled.Compile
import StackMachine.Lifecycle.Service
import StackMachine.Run

namespace StackMachine.Lifecycle

structure Session (α : Type) where
  service : Service α
  /-- Counted calls of every function. -/
  counts : List Nat
  /-- Calls before a function is compiled; at least one. -/
  threshold : Nat
  /-- Jobs that may run at a time; at least one. -/
  workers : Nat := 1
  /-- Whether jobs are kept from ending. -/
  held : Bool := false
  deriving DecidableEq, Repr

namespace Session

variable {α : Type}

/-- A session for `n` functions in which nothing has happened. -/
def new (n threshold workers : Nat) (held : Bool) : Session α :=
  { service := Service.new n
    counts := List.replicate n 0
    threshold := max threshold 1
    workers := max workers 1
    held }

/-- The session of a program under some settings. -/
def ofProgram (p : Program) (s : Settings) : Session α :=
  new p.functions.length s.threshold s.workers false

/-- End the jobs that run. -/
def endAll (compiler : Compiler α) (s : Service α) : Service α :=
  s.running.foldl (Service.endJob compiler) s

/-- Begin and end the first `n` jobs of the queue, one after the other. -/
def runQueue (compiler : Compiler α) : Nat → Service α → Service α
  | 0, s => s
  | n + 1, s => runQueue compiler n (endAll compiler s.beginJob)

/-- Begin jobs for as long as there are workers; `n` bounds their number. -/
def fill (workers : Nat) : Nat → Service α → Service α
  | 0, s => s
  | n + 1, s => if s.running.length < workers then fill workers n s.beginJob else s

/-- Let jobs go on as far as they can. -/
def settle (compiler : Compiler α) (s : Session α) : Session α :=
  let q := s.service.queue.length
  if s.held then { s with service := fill s.workers q s.service }
  else { s with service := runQueue compiler q (endAll compiler s.service) }

/-- Ask for a compilation. Tells whether there is a handle to wait on. -/
def ensure (compiler : Compiler α) (s : Session α) (i : Nat) : Bool × Session α :=
  let (handle, service) := s.service.ensure i
  (handle, settle compiler { s with service })

/-- Ask for a compilation and wait for it. Gives the phase it has ended in. -/
def compileNow (compiler : Compiler α) (s : Session α) (i : Nat) : Phase × Session α :=
  let (_, s) := s.ensure compiler i
  (s.service.table.phase i, s)

/-- A call is counted; the one that reaches the threshold starts a job, unless
there was one. -/
def notify (compiler : Compiler α) (s : Session α) (i : Nat) : Session α :=
  match s.counts[i]? with
  | none => s
  | some n =>
    let s := { s with counts := s.counts.set i (countUp n) }
    if s.threshold ≤ nextCall n ∧ s.service.table.phase i = .notCompiled then
      (s.ensure compiler i).2
    else s

def close (s : Session α) : Session α := { s with service := s.service.close }

/-- Let jobs end from now on. -/
def release (compiler : Compiler α) (s : Session α) : Session α :=
  settle compiler { s with held := false }

/-- Compile functions one after the other. -/
def precompile (compiler : Compiler α) (s : Session α) (functions : List Nat) : Session α :=
  functions.foldl (fun s i => (s.compileNow compiler i).2) s

/-- A session serves calls with what it has published, and counts the others. -/
def hooks (compiler : Compiler Artifact) : Hooks (Session Artifact) where
  compiled s i := (s.service.table.compiled? i, s)
  notify s i := s.notify compiler i

end Session

end StackMachine.Lifecycle
