/-
# Programs

A program is one instruction stream, a pool of constants, and a table of
functions that index into the stream. Nothing is said about the table: starts
may be unsorted, repeated, or past the end of the stream.

The body of a function runs from its start to the next start above it, or to
the end of the stream (`Program.bodyEnd`, `Program.body?`).
-/
import StackMachine.Instr

namespace StackMachine

/-- One entry of the function table. The numbers are 64-bit words. -/
structure Function where
  name : String
  start : UInt64
  params : UInt64
  locals : UInt64
  returns : Bool
  deriving DecidableEq, Repr

namespace Function

/-- Where the body starts in the stream. -/
def entry (f : Function) : Nat := f.start.toNat

/-- How many arguments a call takes from the stack. -/
def arity (f : Function) : Nat := f.params.toNat

/-- Slots of a frame: parameters always fit. -/
def frameSize (f : Function) : Nat := max f.locals.toNat f.params.toNat

theorem arity_le_frameSize (f : Function) : f.arity ≤ f.frameSize := Nat.le_max_right ..

end Function

/-- An instruction stream, a constant pool and a function table. -/
structure Program where
  code : Code := []
  constants : List Int64 := []
  functions : List Function := []
  deriving DecidableEq, Repr

namespace Program

instance : Inhabited Program := ⟨{}⟩

/-- The number of instructions. -/
def size (p : Program) : Nat := p.code.length

/-- The first function that starts the stream, if any. Its frame layout is used
for the outermost frame. -/
def entryFunction? (p : Program) : Option Nat :=
  p.functions.findIdx? fun f => f.entry = 0

/-- The least start above `start`, if any. -/
def nextStart? (p : Program) (start : Nat) : Option Nat :=
  ((p.functions.map Function.entry).filter fun s => start < s).min?

/-- One past the last instruction of a body that starts at `start`. -/
def bodyEnd (p : Program) (start : Nat) : Nat :=
  min ((p.nextStart? start).getD p.size) p.size

/-- One past the last instruction of a function's body. -/
def functionEnd? (p : Program) (i : Nat) : Option Nat :=
  p.functions[i]?.map fun f => p.bodyEnd f.entry

/-- The instructions of a function's body, jumps untouched; none if there is no
such function, or it starts past the end of the stream. -/
def body? (p : Program) (i : Nat) : Option Code :=
  match p.functions[i]? with
  | none => none
  | some f =>
    let stop := p.bodyEnd f.entry
    if f.entry ≤ stop then some ((p.code.drop f.entry).take (stop - f.entry)) else none

/-- The global slot an instruction names, if it names one. -/
def globalSlot? (i : Instr) : Option Nat :=
  match i.op with
  | .loadGlobal | .storeGlobal => i.operand.bind Instr.place?
  | _ => none

/-- How many global slots the program names: one more than the greatest. -/
def globalsCount (p : Program) : Nat :=
  (((p.code.filterMap globalSlot?).map (· + 1)).max?).getD 0

end Program

end StackMachine
