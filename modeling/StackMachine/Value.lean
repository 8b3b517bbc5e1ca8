/-
# Values

A value is a signed 64-bit integer, a boolean, or a reference to an object in
the heap. Integers wrap around; booleans count as 0 and 1 where a number is
wanted; a reference is never a number, and is always true.
-/
import StackMachine.Decimal

namespace StackMachine

/-- A place in the heap. -/
abbrev Addr := Nat

/-- What the operand stack, the variables and the objects hold. -/
inductive Value where
  | int (n : Int64)
  | bool (b : Bool)
  | ref (addr : Addr)
  deriving DecidableEq, Repr

/-- What a value or an object is, as messages call it. -/
inductive Shape where
  | int | bool | ref | array | struct
  deriving DecidableEq, Repr

def Shape.name : Shape → String
  | int => "int"
  | bool => "bool"
  | ref => "ref"
  | array => "array"
  | struct => "struct"

namespace Value

/-- Variables and fresh objects start at zero. -/
def zero : Value := .int 0

instance : Inhabited Value := ⟨zero⟩

/-- `n` fresh slots. -/
def zeros (n : Nat) : List Value := List.replicate n zero

@[simp] theorem length_zeros (n : Nat) : (zeros n).length = n := List.length_replicate

def shape : Value → Shape
  | int _ => .int
  | bool _ => .bool
  | ref _ => .ref

def isRef : Value → Bool
  | ref _ => true
  | _ => false

/-- The address of a reference. -/
def addr? : Value → Option Addr
  | ref a => some a
  | _ => none

/-- The number a value stands for; a reference stands for none. -/
def toInt? : Value → Option Int64
  | int n => some n
  | bool b => some (if b then 1 else 0)
  | ref _ => none

/-- The truth of a value: everything but zero and `false` is true. -/
def truth : Value → Bool
  | int n => n != 0
  | bool b => b
  | ref _ => true

/-- The text of a value. -/
def display : Value → String
  | int n => decimal n.toInt
  | bool true => "true"
  | bool false => "false"
  | ref a => "<ref " ++ decimal a ++ ">"

end Value

end StackMachine
