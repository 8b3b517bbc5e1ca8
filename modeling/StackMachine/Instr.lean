/-
# Instructions

An instruction is an opcode with or without a signed 64-bit operand. Any opcode
may come with or without one; what an operand means, and whether it may be
missing, is up to the opcode.
-/
import StackMachine.Opcode
import StackMachine.Value

namespace StackMachine

/-- An opcode and its operand. -/
structure Instr where
  op : Opcode
  operand : Option Int64 := none
  deriving DecidableEq, Repr

/-- A sequence of instructions: a whole stream or one body. -/
abbrev Code := List Instr

namespace Instr

instance : Inhabited Instr := ⟨⟨.halt, none⟩⟩

/-- The text of an instruction: its opcode, then its operand if it has one. -/
def display (i : Instr) : String :=
  match i.operand with
  | none => i.op.name
  | some n => i.op.name ++ " " ++ decimal n.toInt

/-- A signed 64-bit integer, if it is in range. -/
def word? (n : Int) : Option Int64 :=
  if Int64.minValue.toInt ≤ n ∧ n ≤ Int64.maxValue.toInt then some (Int64.ofInt n) else none

/-- Read the text of an instruction. -/
def ofText? (s : String) : Option Instr :=
  match s.toList.span (· != ' ') with
  | (op, []) => (Opcode.ofName? (String.ofList op)).map fun op => ⟨op, none⟩
  | (op, _ :: ds) => do
    let op ← Opcode.ofName? (String.ofList op)
    let n ← (Decimal.read? ds).bind word?
    return ⟨op, some n⟩

/-- A signed operand read as a place: nothing below zero is one. -/
def place? (n : Int64) : Option Nat :=
  if 0 ≤ n.toInt then some n.toInt.toNat else none

end Instr

end StackMachine
