/-
# Why a stored program cannot be read or written
-/
import StackMachine.Decimal

namespace StackMachine.Stored

/-- The numbers that the binary form keeps in 32 bits. -/
inductive Field where
  | constantCount
  | functionCount
  | instructionCount
  | nameLength
  | start
  | params
  | locals
  deriving DecidableEq, Repr

def Field.name : Field → String
  | constantCount => "constant count"
  | functionCount => "function count"
  | instructionCount => "instruction count"
  | nameLength => "name length"
  | start => "start_ip"
  | params => "param_count"
  | locals => "local_count"

inductive Error where
  | badMagic
  | badVersion (version : Nat)
  | unexpectedEnd
  | badOpcode (byte : UInt8)
  | badText
  | tooLarge (field : Field) (value : Nat)
  /-- The text is no JSON form of a program. -/
  | badJson
  /-- There is no such file. -/
  | noFile
  deriving DecidableEq, Repr

def Error.message : Error → String
  | badMagic => "invalid magic number"
  | badVersion v => "unsupported version: " ++ decimal v
  | unexpectedEnd => "unexpected end of file"
  | badOpcode b => "invalid opcode: " ++ decimal b.toNat
  | badText => "invalid UTF-8 string"
  | tooLarge f v => f.name ++ " " ++ decimal v ++ " does not fit the u32 encoding"
  | badJson => "invalid JSON program"
  | noFile => "I/O error"

end StackMachine.Stored
