/-
# Settings

What may be chosen about a run: whether and how functions are compiled, when
the heap is collected, and the limits on globals, allocations and the outermost
frame.
-/
import StackMachine.Decimal

namespace StackMachine

/-- Whether functions are compiled while a program runs. -/
inductive CompileMode where
  | off | on | auto
  deriving DecidableEq, Repr

/-- How compiled code runs: on a stack and globals of its own, or on the
machine's. -/
inductive CodeForm where
  | isolated | integrated
  deriving DecidableEq, Repr

structure Settings where
  mode : CompileMode := .auto
  form : CodeForm := .integrated
  /-- Simplify a body before it is compiled. -/
  simplify : Bool := true
  /-- Interpreted calls of a function before it is compiled. -/
  threshold : Nat := 1
  /-- How many functions may be compiled at a time. -/
  workers : Nat := 2
  collecting : Bool := true
  /-- Allocations that are let pass before a collection. -/
  collectAfter : Nat := 1000
  reportCollections : Bool := false
  /-- Globals at the start of a run. -/
  globals : Nat := 256
  maxGlobals : Nat := 65536
  /-- The largest array or struct. -/
  maxAlloc : Nat := 16777216
  /-- Locals of the outermost frame where no function starts the stream. -/
  entryLocals : Nat := 256
  deriving DecidableEq, Repr

namespace Settings

instance : Inhabited Settings := ⟨{}⟩

/-- Why settings are refused. -/
inductive Problem where
  | noWorkers
  | tooManyGlobals (globals limit : Nat)
  | noAllocations
  deriving DecidableEq, Repr

def Problem.message : Problem → String
  | noWorkers => "invalid config: jit_workers must be at least 1"
  | tooManyGlobals g l =>
    "invalid config: globals_capacity " ++ decimal g ++ " exceeds max_globals " ++ decimal l
  | noAllocations => "invalid config: max_alloc_len must be at least 1"

/-- The first problem with these settings, if any. -/
def problem? (s : Settings) : Option Problem :=
  if s.workers = 0 then some .noWorkers
  else if s.maxGlobals < s.globals then some (.tooManyGlobals s.globals s.maxGlobals)
  else if s.maxAlloc = 0 then some .noAllocations
  else none

/-- Settings that nothing is wrong with. -/
def Valid (s : Settings) : Prop := s.problem? = none

end Settings

end StackMachine
