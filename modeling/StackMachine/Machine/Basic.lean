/-
# The machine

The state a program runs on: an operand stack, frames with the locals of the
calls under way, globals, a heap with its collector, and what was printed. The
stack and the frames are lists whose head is the top.

An operation on the machine may end in a fault; the machine is then left as it
was when the fault arose, so what was popped before is gone.
-/
import StackMachine.Collector
import StackMachine.Program
import StackMachine.Settings

namespace StackMachine

/-- What stays the same while a program runs. -/
structure Env where
  program : Program := {}
  settings : Settings := {}
  deriving DecidableEq, Repr

/-- A call under way. The outermost frame has nowhere to return to. -/
structure Frame where
  func : Option Nat
  returnIp : Option Nat
  /-- Height of the operand stack under this call. -/
  base : Nat
  locals : List Value
  deriving DecidableEq, Repr

/-- Why a run has stopped. -/
inductive Stop where
  | halted (value : Option Value)
  /-- There was no next instruction. -/
  | ranOut
  deriving DecidableEq, Repr

structure Machine where
  ip : Nat := 0
  stack : List Value := []
  frames : List Frame := []
  globals : List Value := []
  heap : Heap := {}
  collector : Collector := {}
  stop : Option Stop := none
  /-- Calls that were served by compiled code. -/
  compiledCalls : Nat := 0
  output : Array String := #[]
  deriving DecidableEq, Repr

/-- Operations on the machine that may end in a fault. -/
abbrev Exec (α : Type) := EStateM Fault Machine α

/-- The slot of a variable, or the fault that there is none. -/
def slot (kind : SlotKind) (i : Int64) (size : Nat) : Except Fault Nat :=
  match slot? i size with
  | some k => .ok k
  | none => .error (.noSuchSlot kind i size)

/-- A list with a value at a place; the list grows, filled with zeros, if the
place is past its end. -/
def setGrowing (vs : List Value) (k : Nat) (v : Value) : List Value :=
  (vs ++ Value.zeros (k + 1 - vs.length)).set k v

namespace Machine

/-- Whether the run has stopped. -/
def stopped (m : Machine) : Bool := m.stop.isSome

/-! ### The operand stack -/

def push (v : Value) : Exec Unit := fun m =>
  .ok () { m with stack := v :: m.stack }

/-- Take the topmost value; `op` is named if there is none. -/
def pop (op : Opcode) : Exec Value := fun m =>
  match m.stack with
  | [] => .error (.stackUnderflow op) m
  | v :: vs => .ok v { m with stack := vs }

/-- The topmost value. -/
def peek (op : Opcode) : Exec Value := fun m =>
  match m.stack with
  | [] => .error (.stackUnderflow op) m
  | v :: _ => .ok v m

/-- Take a number. -/
def popInt (op : Opcode) : Exec Int64 := do
  let v ← pop op
  v.toInt

/-- Take a reference. -/
def popRef (op : Opcode) : Exec Addr := do
  let v ← pop op
  match v.addr? with
  | some a => return a
  | none => throw (.wrongShape op .ref v.shape)

/-! ### Variables -/

/-- The locals of the innermost call. -/
def locals (m : Machine) : List Value :=
  match m.frames with
  | [] => []
  | f :: _ => f.locals

def loadLocal (i : Int64) : Exec Value := do
  let vs := (← get).locals
  let k ← slot .local i vs.length
  return vs.getD k .zero

def storeLocal (i : Int64) (v : Value) : Exec Unit := do
  let k ← slot .local i (← get).locals.length
  modify fun m =>
    match m.frames with
    | [] => m
    | f :: fs => { m with frames := { f with locals := f.locals.set k v } :: fs }

def loadGlobal (i : Int64) : Exec Value := do
  let vs := (← get).globals
  let k ← slot .global i vs.length
  return vs.getD k .zero

/-- Globals grow on demand, up to their limit. -/
def storeGlobal (s : Settings) (i : Int64) (v : Value) : Exec Unit := do
  let k ← slot .global i s.maxGlobals
  modify fun m => { m with globals := setGrowing m.globals k v }

/-! ### The heap -/

/-- A size that may be allocated. -/
def allocSize (s : Settings) (op : Opcode) (n : Int64) : Except Fault Nat :=
  match Instr.place? n with
  | none => .error (.negativeSize op n)
  | some k => if k ≤ s.maxAlloc then .ok k else .error (.tooLarge op n s.maxAlloc)

/-- Put a new object into the heap. -/
def alloc (o : Obj) : Exec Value := fun m =>
  .ok (.ref m.heap.next) { m with heap := m.heap.alloc o }

def allocArray (s : Settings) (n : Int64) : Exec Value := do
  let k ← allocSize s .allocArray n
  alloc (.newArray k)

/-- Allocate a struct; `op` is named if the size is refused. -/
def allocStruct (s : Settings) (op : Opcode) (type n : Int64) : Exec Value := do
  let k ← allocSize s op n
  alloc (.newStruct type k)

/-- An operation on the heap alone; the machine has the heap as the operation leaves
it, also where it fails. -/
def inHeap {α : Type} (x : EStateM Fault Heap α) : Exec α := fun m =>
  match x m.heap with
  | .ok a heap => .ok a { m with heap }
  | .error e heap => .error e { m with heap }

def print (line : String) : Exec Unit := fun m =>
  .ok () { m with output := m.output.push line }

/-! ### Collection -/

/-- Everything a program can still name: the operand stack, the locals of every
call under way, and the globals. -/
def roots (m : Machine) : List Value :=
  m.stack ++ m.frames.flatMap Frame.locals ++ m.globals

def collect (m : Machine) : Machine :=
  let (heap, collector, _) := m.collector.collect m.heap m.roots
  { m with heap, collector }

/-- Collect if enough was allocated since the last time. -/
def maybeCollect (s : Settings) (m : Machine) : Machine :=
  if s.collecting && s.collectAfter < m.heap.sinceCollection then m.collect else m

/-! ### The start of a run -/

/-- A machine about to run a program from its first instruction. -/
def boot (env : Env) (output : Array String) : Machine :=
  let entry := env.program.entryFunction?
  let size :=
    match entry.bind fun i => env.program.functions[i]? with
    | some f => f.frameSize
    | none => env.settings.entryLocals
  { frames := [⟨entry, none, 0, Value.zeros size⟩]
    globals := Value.zeros env.settings.globals
    output }

end Machine

end StackMachine
