/-
# Opcodes

The forty operations of the machine. Operators that take two values, operators
that take one, and jumps are each one constructor over a small type of their
own, so that a statement about "every binary operator" is one case and not
thirteen.

* `Opcode.name`: the spelling used in listings, messages and stored programs;
* `Opcode.toByte`, `Opcode.ofByte?`: the byte used in stored programs
  (`ofByte?_toByte`, `toByte_of_ofByte?`: each undoes the other).
-/

namespace StackMachine

/-- Operators on the two topmost values. -/
inductive Binary where
  | add | sub | mul | div | mod
  | eq | ne | lt | le | gt | ge
  | and | or
  deriving DecidableEq, Repr

/-- Operators on the topmost value. -/
inductive Unary where
  | neg | not
  deriving DecidableEq, Repr

/-- When a jump is taken: always, or on the truth of the value it pops. -/
inductive Branch where
  | always
  | on (truth : Bool)
  deriving DecidableEq, Repr

/-- The operations of the machine. -/
inductive Opcode where
  | pushInt
  | pushBool (b : Bool)
  | pop
  | dup
  | binary (op : Binary)
  | unary (op : Unary)
  | jump (when : Branch)
  | loadLocal
  | storeLocal
  | loadGlobal
  | storeGlobal
  | call
  | ret
  | retVoid
  | allocArray
  | loadElem
  | storeElem
  | allocStruct
  | loadField
  | storeField
  /-- Another spelling of `allocStruct`. -/
  | new
  | printInt
  | printBool
  | halt
  deriving DecidableEq, Repr

namespace Opcode

/-- Every opcode, in the order of their bytes. -/
def all : List Opcode :=
  [pushInt, pushBool true, pushBool false, pop, dup,
   binary .add, binary .sub, binary .mul, binary .div, binary .mod, unary .neg,
   binary .eq, binary .ne, binary .lt, binary .le, binary .gt, binary .ge,
   binary .and, binary .or, unary .not,
   jump .always, jump (.on false), jump (.on true),
   loadLocal, storeLocal, loadGlobal, storeGlobal,
   call, ret, retVoid,
   allocArray, loadElem, storeElem, allocStruct, loadField, storeField, new,
   printInt, printBool, halt]

/-- The byte that stands for an opcode: its place in `all`. -/
def toByte : Opcode → UInt8
  | pushInt => 0
  | pushBool true => 1
  | pushBool false => 2
  | pop => 3
  | dup => 4
  | binary .add => 5
  | binary .sub => 6
  | binary .mul => 7
  | binary .div => 8
  | binary .mod => 9
  | unary .neg => 10
  | binary .eq => 11
  | binary .ne => 12
  | binary .lt => 13
  | binary .le => 14
  | binary .gt => 15
  | binary .ge => 16
  | binary .and => 17
  | binary .or => 18
  | unary .not => 19
  | jump .always => 20
  | jump (.on false) => 21
  | jump (.on true) => 22
  | loadLocal => 23
  | storeLocal => 24
  | loadGlobal => 25
  | storeGlobal => 26
  | call => 27
  | ret => 28
  | retVoid => 29
  | allocArray => 30
  | loadElem => 31
  | storeElem => 32
  | allocStruct => 33
  | loadField => 34
  | storeField => 35
  | new => 36
  | printInt => 37
  | printBool => 38
  | halt => 39

/-- The opcode a byte stands for, if any. -/
def ofByte? (b : UInt8) : Option Opcode :=
  all[b.toNat]?

@[simp] theorem ofByte?_toByte (op : Opcode) : ofByte? op.toByte = some op := by
  rcases op with _ | b | _ | _ | b | u | w | _ <;> try rfl
  · cases b <;> rfl
  · cases b <;> rfl
  · cases u <;> rfl
  · rcases w with _ | t
    · rfl
    · cases t <;> rfl

theorem length_all : all.length = 40 := rfl

/-- The place of an opcode in `all` is its byte. -/
theorem toByte_of_ofByte? {b : UInt8} {op : Opcode} (h : ofByte? b = some op) :
    op.toByte = b := by
  have key : ∀ i : Fin 40, (all[i.val]?).map toByte = some (UInt8.ofNat i.val) := by decide
  have hb : b.toNat < 40 := by
    have := (List.getElem?_eq_some_iff.mp h).1
    simpa [length_all] using this
  have hk := key ⟨b.toNat, hb⟩
  unfold ofByte? at h
  simp only [h, Option.map_some, Option.some.injEq] at hk
  simpa using hk

/-- The spelling of an opcode. -/
def name : Opcode → String
  | pushInt => "PUSH_I64"
  | pushBool true => "PUSH_TRUE"
  | pushBool false => "PUSH_FALSE"
  | pop => "POP"
  | dup => "DUP"
  | binary .add => "ADD"
  | binary .sub => "SUB"
  | binary .mul => "MUL"
  | binary .div => "DIV"
  | binary .mod => "MOD"
  | unary .neg => "NEG"
  | binary .eq => "CMP_EQ"
  | binary .ne => "CMP_NE"
  | binary .lt => "CMP_LT"
  | binary .le => "CMP_LE"
  | binary .gt => "CMP_GT"
  | binary .ge => "CMP_GE"
  | binary .and => "AND"
  | binary .or => "OR"
  | unary .not => "NOT"
  | jump .always => "JMP"
  | jump (.on false) => "JMP_IF_FALSE"
  | jump (.on true) => "JMP_IF_TRUE"
  | loadLocal => "LOAD_LOCAL"
  | storeLocal => "STORE_LOCAL"
  | loadGlobal => "LOAD_GLOBAL"
  | storeGlobal => "STORE_GLOBAL"
  | call => "CALL"
  | ret => "RET"
  | retVoid => "RET_VOID"
  | allocArray => "ALLOC_ARR"
  | loadElem => "LOAD_ARR"
  | storeElem => "STORE_ARR"
  | allocStruct => "ALLOC_STRUCT"
  | loadField => "LOAD_FIELD"
  | storeField => "STORE_FIELD"
  | new => "NEW"
  | printInt => "PRINT_I64"
  | printBool => "PRINT_BOOL"
  | halt => "HALT"

/-- The opcode with this exact spelling, if any. -/
def ofName? (s : String) : Option Opcode :=
  all.find? fun op => op.name = s

@[simp] theorem ofName?_name (op : Opcode) : ofName? op.name = some op := by
  rcases op with _ | b | _ | _ | b | u | w | _ <;> try decide
  · cases b <;> decide
  · cases b <;> decide
  · cases u <;> decide
  · rcases w with _ | t
    · decide
    · cases t <;> decide

/-- Opcodes that cannot execute without an operand. -/
def needsOperand : Opcode → Bool
  | pushInt | jump _ | loadLocal | storeLocal | loadGlobal | storeGlobal
  | call | allocStruct | loadField | storeField | new => true
  | _ => false

/-- Jumps, taken always or on a condition. -/
def isJump : Opcode → Bool
  | jump _ => true
  | _ => false

def isBinary : Opcode → Bool
  | binary _ => true
  | _ => false

def isUnary : Opcode → Bool
  | unary _ => true
  | _ => false

/-- Pushes of a value known without running anything. -/
def isConstantPush : Opcode → Bool
  | pushInt | pushBool _ => true
  | _ => false

end Opcode

end StackMachine
