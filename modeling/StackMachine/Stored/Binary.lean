/-
# The binary form of a program

Four fixed bytes, a version, then three counted sequences: constants,
functions, instructions. Counts, indices and lengths are 32-bit numbers,
constants and operands 64-bit words, all least significant byte first.

* `Stored.encode`: refuses a number that does not fit its 32 bits;
* `Stored.decode`: reads a program off the front of the bytes; whatever follows
  it is not looked at. A flag byte counts as set when it is not zero.

Writing and reading stand side by side for every part, in the same order, so
that the law of a sequence comes from the law of its items.
-/
import StackMachine.Bytes
import StackMachine.Program
import StackMachine.Stored.Error

namespace StackMachine.Stored

/-! ### Writing -/

/-- The bytes every binary form starts with. -/
def magic : Bytes := [73, 82, 73, 83]

/-- The only version there is. -/
def version : Nat := 1

/-- A number in 32 bits; `field` names it if it does not fit. -/
def encodeNat (field : Field) (n : Nat) : Except Error Bytes :=
  if n < UInt32.size then .ok (Bytes.le 4 n) else .error (.tooLarge field n)

def encodeFlag (b : Bool) : Bytes := [if b then 1 else 0]

/-- The items of a sequence, one after the other; the first that cannot be
written decides the error. -/
def encodeItems {α : Type} (item : α → Except Error Bytes) : List α → Except Error Bytes
  | [] => .ok []
  | a :: as => do
    let x ← item a
    let xs ← encodeItems item as
    return x ++ xs

/-- A sequence: its length, then its items. -/
def encodeSeq {α : Type} (count : Field) (item : α → Except Error Bytes) (as : List α) :
    Except Error Bytes := do
  let n ← encodeNat count as.length
  let xs ← encodeItems item as
  return n ++ xs

def encodeConstant (n : Int64) : Except Error Bytes := .ok (Bytes.ofWord n)

def encodeText (s : String) : Except Error Bytes := do
  let n ← encodeNat .nameLength (Bytes.ofText s).length
  return n ++ Bytes.ofText s

def encodeFunction (f : Function) : Except Error Bytes := do
  let name ← encodeText f.name
  let start ← encodeNat .start f.start.toNat
  let params ← encodeNat .params f.params.toNat
  let locals ← encodeNat .locals f.locals.toNat
  return name ++ start ++ params ++ locals ++ encodeFlag f.returns

def encodeInstr (i : Instr) : Except Error Bytes :=
  match i.operand with
  | none => .ok (i.op.toByte :: encodeFlag false)
  | some n => .ok (i.op.toByte :: encodeFlag true ++ Bytes.ofWord n)

/-- The binary form of a program. -/
def encode (p : Program) : Except Error Bytes := do
  let constants ← encodeSeq .constantCount encodeConstant p.constants
  let functions ← encodeSeq .functionCount encodeFunction p.functions
  let code ← encodeSeq .instructionCount encodeInstr p.code
  return magic ++ Bytes.le 4 version ++ constants ++ functions ++ code

/-! ### Reading -/

/-- A reader takes what it reads off the front of the bytes. -/
abbrev Reader (α : Type) := Bytes → Except Error (α × Bytes)

namespace Reader

def pure {α : Type} (a : α) : Reader α := fun bs => .ok (a, bs)

def fail {α : Type} (e : Error) : Reader α := fun _ => .error e

/-- Read one thing, then another that may depend on it. -/
def bind {α β : Type} (r : Reader α) (k : α → Reader β) : Reader β := fun bs =>
  match r bs with
  | .error e => .error e
  | .ok (a, rest) => k a rest

instance : Monad Reader where
  pure := pure
  bind := bind

/-- The next `n` bytes. -/
def bytes (n : Nat) : Reader Bytes := fun bs =>
  match Bytes.take? n bs with
  | none => .error .unexpectedEnd
  | some r => .ok r

def byte : Reader UInt8
  | [] => .error .unexpectedEnd
  | b :: bs => .ok (b, bs)

/-- A 32-bit number. -/
def nat : Reader Nat := do
  let bs ← bytes 4
  return Bytes.ofLe bs

def word : Reader Int64 := do
  let bs ← bytes 8
  return Bytes.word bs

def flag : Reader Bool := do
  let b ← byte
  return b != 0

/-- One thing `n` times. -/
def items {α : Type} (item : Reader α) : Nat → Reader (List α)
  | 0 => Reader.pure []
  | n + 1 => do
    let a ← item
    let as ← items item n
    return a :: as

/-- A sequence: its length, then its items. -/
def seq {α : Type} (item : Reader α) : Reader (List α) := do
  let n ← nat
  items item n

/-- A text: its length in bytes, then its bytes. -/
def text : Reader String := do
  let n ← nat
  let bs ← bytes n
  match Bytes.text? bs with
  | some s => Reader.pure s
  | none => Reader.fail .badText

def function : Reader Function := do
  let name ← text
  let start ← nat
  let params ← nat
  let locals ← nat
  let returns ← flag
  return ⟨name, UInt64.ofNat start, UInt64.ofNat params, UInt64.ofNat locals, returns⟩

def opcode : Reader Opcode := do
  let b ← byte
  match Opcode.ofByte? b with
  | some op => Reader.pure op
  | none => Reader.fail (.badOpcode b)

/-- An operand, if the flag before it says there is one. -/
def operand : Reader (Option Int64) := do
  if ← flag then
    let n ← word
    return some n
  else
    return none

def instr : Reader Instr := do
  let op ← opcode
  let operand ← operand
  return ⟨op, operand⟩

/-- The magic bytes and the version. -/
def header : Reader Unit := do
  let m ← bytes 4
  if m = magic then
    let v ← nat
    if v = version then Reader.pure () else Reader.fail (.badVersion v)
  else
    Reader.fail .badMagic

def program : Reader Program := do
  header
  let constants ← seq word
  let functions ← seq function
  let code ← seq instr
  return ⟨code, constants, functions⟩

end Reader

/-- The program whose binary form the bytes start with. -/
def decode (bs : Bytes) : Except Error Program :=
  (Reader.program bs).map Prod.fst

end StackMachine.Stored
