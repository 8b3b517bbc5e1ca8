/-
# Faults and traps

A `Fault` is a cause for which an instruction cannot go on. A `Failure` is what
a run reports: the fault alone when no instruction was running, or a trap, a
failure together with an instruction that was running and its place in the
stream.

A failure passes through everything that was running, the innermost first, and
each may attach its instruction (`Failure.attach`). The first one that does is
the one named: what comes later leaves a trap as it is (`Failure.attach_attach`).

All message texts are in `Fault.message` and `Failure.message`.
-/
import StackMachine.Instr

namespace StackMachine

/-- The kinds of numbered slots. -/
inductive SlotKind where
  | local | global | field
  deriving DecidableEq, Repr

def SlotKind.name : SlotKind → String
  | .local => "local"
  | .global => "global"
  | .field => "field"

/-- Why an instruction cannot go on. -/
inductive Fault where
  | stackUnderflow (op : Opcode)
  | missingOperand (op : Opcode)
  | unsupported (op : Opcode)
  | divisionByZero
  | indexOutOfBounds (index : Int64) (size : Nat)
  | noSuchObject (addr : Addr)
  | noSuchSlot (kind : SlotKind) (index : Int64) (size : Nat)
  /-- A reference stood where a number was wanted. -/
  | notANumber (addr : Addr)
  | wrongShape (op : Opcode) (expected found : Shape)
  | noSuchFunction (index : Int64)
  | badJump (target : Int64)
  | negativeSize (op : Opcode) (size : Int64)
  | tooLarge (op : Opcode) (size : Int64) (limit : Nat)
  /-- Compiled code has no way to halt the machine. -/
  | haltInCompiled (func : Nat)
  deriving DecidableEq, Repr

def Fault.message : Fault → String
  | stackUnderflow op => "stack underflow in " ++ op.name
  | missingOperand op => "missing operand for " ++ op.name
  | unsupported op => "unsupported opcode in compiled code: " ++ op.name
  | divisionByZero => "division by zero"
  | indexOutOfBounds i n =>
    "array index " ++ decimal i.toInt ++ " out of bounds (size " ++ decimal n ++ ")"
  | noSuchObject a => "invalid heap reference: " ++ decimal a
  | noSuchSlot k i n =>
    "invalid " ++ k.name ++ " index " ++ decimal i.toInt ++ " (size " ++ decimal n ++ ")"
  | notANumber a => "cannot convert Ref(" ++ decimal a ++ ") to int"
  | wrongShape op e f => op.name ++ ": expected " ++ e.name ++ ", found " ++ f.name
  | noSuchFunction i => "invalid function index " ++ decimal i.toInt
  | badJump t => "invalid jump target " ++ decimal t.toInt
  | negativeSize op n => op.name ++ ": negative size " ++ decimal n.toInt
  | tooLarge op n l =>
    op.name ++ ": size " ++ decimal n.toInt ++ " exceeds the allocation limit " ++ decimal l
  | haltInCompiled f => "HALT reached inside compiled function " ++ decimal f

/-- What a failed run reports. -/
inductive Failure where
  | fault (cause : Fault)
  | trap (ip : Nat) (instr : Instr) (source : Failure)
  deriving DecidableEq, Repr

namespace Failure

/-- The fault behind a failure. -/
def root : Failure → Fault
  | fault c => c
  | trap _ _ source => source.root

def message : Failure → String
  | fault c => c.message
  | trap ip i source => i.display ++ " at ip " ++ decimal ip ++ ": " ++ source.message

/-- Name the instruction that was running, unless one inside it is named already. -/
def attach (f : Failure) (ip : Nat) (i : Instr) : Failure :=
  match f with
  | fault _ => trap ip i f
  | trap _ _ _ => f

/-- An instruction that is named stays the one that is. -/
@[simp] theorem attach_attach (f : Failure) (ip ip' : Nat) (i i' : Instr) :
    (f.attach ip i).attach ip' i' = f.attach ip i := by
  cases f with
  | fault c => rfl
  | trap k x source => rfl

@[simp] theorem root_attach (f : Failure) (ip : Nat) (i : Instr) :
    (f.attach ip i).root = f.root := by
  cases f with
  | fault c => rfl
  | trap k x source => rfl

end Failure

/-- A computation that needs no state. -/
instance {σ : Type} : MonadLift (Except Fault) (EStateM Fault σ) where
  monadLift x :=
    match x with
    | .ok a => pure a
    | .error e => throw e

/-- The number a value stands for, or the fault that it stands for none. -/
def Value.toInt : Value → Except Fault Int64
  | .int n => .ok n
  | .bool b => .ok (if b then 1 else 0)
  | .ref a => .error (.notANumber a)

/-- The operand of an instruction, or the fault that it has none. -/
def Instr.arg (i : Instr) : Except Fault Int64 :=
  match i.operand with
  | some n => .ok n
  | none => .error (.missingOperand i.op)

/-- The operand as a place to jump to. -/
def Instr.target (i : Instr) : Except Fault Nat := do
  let n ← i.arg
  match Instr.place? n with
  | some t => return t
  | none => throw (.badJump n)

end StackMachine
