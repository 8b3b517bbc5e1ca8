/-
# The compile service

The service owns the table of functions and the jobs that were started. A job
waits in a queue, runs, and ends; what it has compiled is published only while
the service is open. Closing the service cancels what has not been published.

Every operation here is one of the things that a caller, a job or the one who
closes does. In which order they come is up to the schedule: see
`StackMachine.Lifecycle.Session` for the one in which jobs end at once.
-/
import StackMachine.Compiled.Source
import StackMachine.Lifecycle.Table

namespace StackMachine.Lifecycle

/-- What is told about a compilation. -/
inductive Event where
  | started (func : Nat)
  | succeeded (func : Nat)
  | failed (func : Nat) (error : CompileError)
  deriving DecidableEq, Repr

namespace Event

def func : Event → Nat
  | started f | succeeded f | failed f _ => f

def message : Event → String
  | started f => "compiling function " ++ decimal f
  | succeeded f => "compiled function " ++ decimal f
  | failed f e => "failed to compile function " ++ decimal f ++ ": " ++ e.message

end Event

/-! ### Counted calls -/

/-- The count of a function's calls, one call later. A count has 32 bits; when they
are used up it begins again. -/
def countUp (count : Nat) : Nat := (count + 1) % UInt32.size

/-- Which call the one that is counted next is, as far as 32 bits go. -/
def nextCall (count : Nat) : Nat := min (count + 1) (UInt32.size - 1)

/-! ### The service -/

/-- The compiler behind a service. -/
abbrev Compiler (α : Type) := Nat → Except CompileError α

structure Service (α : Type) where
  table : Table α
  closed : Bool := false
  /-- Jobs that have not begun, first come first served. -/
  queue : List Nat := []
  /-- Jobs that have begun and not ended. -/
  running : List Nat := []
  /-- How many jobs have begun. -/
  runs : Nat := 0
  events : List Event := []
  deriving DecidableEq, Repr

namespace Service

variable {α : Type}

/-- An open service for `n` functions. -/
def new (n : Nat) : Service α := { table := Table.new n }

def tell (s : Service α) (e : Event) : Service α := { s with events := s.events ++ [e] }

/-- Ask for a compilation. Tells whether there is a handle to wait on. -/
def ensure (s : Service α) (i : Nat) : Bool × Service α :=
  if s.closed then (false, s)
  else
    match s.table.start i with
    | (.started, t) => (true, { s with table := t, queue := s.queue ++ [i] })
    | (.inFlight, t) => (true, { s with table := t })
    | (.resolved _, t) => (false, { s with table := t })

/-- The first job in the queue begins. Once the service is closed it is dropped
instead. -/
def beginJob (s : Service α) : Service α :=
  match s.queue with
  | [] => s
  | i :: queue =>
    let s := { s with queue }
    if s.closed then s
    else { s.tell (.started i) with running := s.running ++ [i], runs := s.runs + 1 }

/-- Publish what a job has compiled, or why it could not. -/
def publish (s : Service α) (i : Nat) : Except CompileError α → Service α
  | .ok a =>
    match s.table.publish i a with
    | (true, t) => { s with table := t }.tell (.succeeded i)
    | (false, t) => { s with table := t }
  | .error e =>
    match s.table.fail i with
    | (true, t) => { s with table := t }.tell (.failed i e)
    | (false, t) => { s with table := t }

/-- A running job ends. Once the service is closed its result is dropped. -/
def endJob (compiler : Compiler α) (s : Service α) (i : Nat) : Service α :=
  let s := { s with running := s.running.erase i }
  if s.closed then s
  else
    let s := s.publish i (compiler i)
    { s with table := s.table.finish i }

/-- Close the service. Closing it again does nothing. -/
def close (s : Service α) : Service α :=
  if s.closed then s else { s with closed := true, table := s.table.cancel.2 }

/-- All events, those of one function together, in the order of the functions. -/
def eventsByFunction (s : Service α) : List Event :=
  (List.range s.table.length).flatMap fun i => s.events.filter fun e => e.func = i

end Service

end StackMachine.Lifecycle
