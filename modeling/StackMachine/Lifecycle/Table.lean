/-
# The lives of functions

Every function has a slot that says how far its compilation has come. A function
is compiled at most once: its job is opened, one caller takes it, and the job
ends by publishing an artifact or by failing. `ready` and `failed` are final.
Whoever asked for a compilation holds a handle on the job; all handles on a
function are on one job, so a handle is known by its function.

The operations under "Atomic operations" are what callers and jobs do to a slot
in one go. All others are made of them.
-/

namespace StackMachine.Lifecycle

/-- How far the compilation of a function has come. -/
inductive Phase where
  | notCompiled | compiling | ready | failed
  deriving DecidableEq, Repr

namespace Phase

def name : Phase → String
  | notCompiled => "not-compiled"
  | compiling => "compiling"
  | ready => "ready"
  | failed => "failed"

/-- Whether nothing more will happen. -/
def isFinal : Phase → Bool
  | ready | failed => true
  | _ => false

end Phase

/-- What a handle tells. -/
inductive JobStatus where
  | pending
  | finished (phase : Phase)
  | cancelled
  deriving DecidableEq, Repr

def JobStatus.name : JobStatus → String
  | pending => "pending"
  | finished p => "finished " ++ p.name
  | cancelled => "cancelled"

/-- The life of one function. -/
structure Slot (α : Type) where
  phase : Phase := .notCompiled
  /-- Set once. -/
  artifact : Option α := none
  /-- Opened once. -/
  job : Option JobStatus := none
  deriving DecidableEq, Repr

/-! ### Atomic operations -/

namespace Slot

variable {α : Type}

/-- Open the job, unless it is open. -/
def openJob (s : Slot α) : Slot α := { s with job := some (s.job.getD .pending) }

/-- Move from one phase to another; nothing happens in any other phase. -/
def move (s : Slot α) (source target : Phase) : Slot α :=
  if s.phase = source then { s with phase := target } else s

/-- Set the artifact, unless it is set. -/
def setArtifact (s : Slot α) (a : α) : Slot α := { s with artifact := some (s.artifact.getD a) }

/-- Decide an open job, unless it is decided. -/
def resolve (s : Slot α) (status : JobStatus) : Slot α :=
  match s.job with
  | some .pending => { s with job := some status }
  | _ => s

/-- The artifact, once it is published. -/
def compiled? (s : Slot α) : Option α := if s.phase = .ready then s.artifact else none

end Slot

/-- The lives of all functions. -/
abbrev Table (α : Type) := List (Slot α)

/-- What comes of asking for a compilation. -/
inductive Start where
  /-- The caller is to run the job. -/
  | started
  | inFlight
  | resolved (phase : Phase)
  deriving DecidableEq, Repr

namespace Table

variable {α : Type}

/-- A table of `n` functions, none compiled. -/
def new (n : Nat) : Table α := List.replicate n {}

/-- Change one slot. -/
def update (t : Table α) (i : Nat) (f : Slot α → Slot α) : Table α := t.modify i f

/-- The phase of a function; one that does not exist is not compiled. -/
def phase (t : Table α) (i : Nat) : Phase := (t[i]?.map Slot.phase).getD .notCompiled

/-- The published artifact of a function. -/
def compiled? (t : Table α) (i : Nat) : Option α := t[i]?.bind Slot.compiled?

/-- The status of a function's job. -/
def job? (t : Table α) (i : Nat) : Option JobStatus := t[i]?.bind Slot.job

/-- How many functions are in a phase. -/
def count (t : Table α) (p : Phase) : Nat := t.countP fun s => s.phase = p

/-! ### What callers and jobs do -/

/-- Ask for a compilation: open the job, then take it. -/
def start (t : Table α) (i : Nat) : Start × Table α :=
  match t[i]? with
  | none => (.resolved .failed, t)
  | some s =>
    let opened := t.update i Slot.openJob
    match s.phase with
    | .notCompiled => (.started, opened.update i fun s => s.move .notCompiled .compiling)
    | .compiling => (.inFlight, opened)
    | p => (.resolved p, opened)

/-- Publish an artifact, if the function is being compiled and none is set. -/
def publish (t : Table α) (i : Nat) (a : α) : Bool × Table α :=
  match t[i]? with
  | none => (false, t)
  | some s =>
    if s.phase = .compiling ∧ s.artifact.isNone then
      (true, (t.update i fun s => s.setArtifact a).update i fun s => s.move .compiling .ready)
    else (false, t)

/-- Record a failure, if the function is being compiled. -/
def fail (t : Table α) (i : Nat) : Bool × Table α :=
  (t[i]?.any fun s => s.phase = .compiling, t.update i fun s => s.move .compiling .failed)

/-- Tell the holders of handles that the job has ended, if it has. -/
def finish (t : Table α) (i : Nat) : Table α :=
  t.update i fun s => if s.phase.isFinal then s.resolve (.finished s.phase) else s

/-- Whether a slot has a job that has not published. -/
def inProgress (s : Slot α) : Bool := s.phase = .compiling && s.job.isSome

/-- Cancel the jobs in progress; gives their number. A job decided before keeps
its status, but counts. -/
def cancel (t : Table α) : Nat × Table α :=
  (t.countP inProgress, t.map fun s => if inProgress s then s.resolve .cancelled else s)

end Table

end StackMachine.Lifecycle
