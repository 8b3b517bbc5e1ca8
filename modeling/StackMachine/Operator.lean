/-
# Operators

The one meaning of every operator, used by the machine, by compiled code and by
the constant folder, so that all of them agree. Arithmetic gives integers that
wrap around; comparisons and logic give booleans.

Which operand is refused first is part of the meaning: arithmetic and ordering
look at the left one first, division and remainder at the divisor first.
-/
import StackMachine.Fault

namespace StackMachine

/-- Equality: references by identity, numbers and booleans by number. A
reference equals nothing but itself. -/
def Value.same (l r : Value) : Bool :=
  match l, r with
  | .ref a, .ref b => a == b
  | l, r =>
    match l.toInt?, r.toInt? with
    | some m, some n => m == n
    | _, _ => false

/-- Both operands as numbers, the left one first. -/
def Value.numbers (l r : Value) : Except Fault (Int64 × Int64) := do
  let m ← l.toInt
  let n ← r.toInt
  return (m, n)

/-- A dividend and a divisor that is not zero, the divisor first. -/
def Value.dividing (l r : Value) : Except Fault (Int64 × Int64) := do
  let n ← r.toInt
  if n = 0 then throw .divisionByZero
  let m ← l.toInt
  return (m, n)

/-- Apply a binary operator. Division goes toward zero, and the remainder has
the sign of the dividend; the one quotient that does not fit wraps around. -/
def Binary.eval (op : Binary) (l r : Value) : Except Fault Value :=
  match op with
  | .add => (l.numbers r).map fun (m, n) => .int (m + n)
  | .sub => (l.numbers r).map fun (m, n) => .int (m - n)
  | .mul => (l.numbers r).map fun (m, n) => .int (m * n)
  | .div => (l.dividing r).map fun (m, n) => .int (m / n)
  | .mod => (l.dividing r).map fun (m, n) => .int (m % n)
  | .eq => .ok (.bool (l.same r))
  | .ne => .ok (.bool (!l.same r))
  | .lt => (l.numbers r).map fun (m, n) => .bool (m < n)
  | .le => (l.numbers r).map fun (m, n) => .bool (m ≤ n)
  | .gt => (l.numbers r).map fun (m, n) => .bool (n < m)
  | .ge => (l.numbers r).map fun (m, n) => .bool (n ≤ m)
  | .and => .ok (.bool (l.truth && r.truth))
  | .or => .ok (.bool (l.truth || r.truth))

/-- Apply a unary operator. -/
def Unary.eval (op : Unary) (v : Value) : Except Fault Value :=
  match op with
  | .neg => v.toInt.map fun n => .int (-n)
  | .not => .ok (.bool (!v.truth))

/-- Apply an opcode to two values; only binary operators apply. -/
def Opcode.evalBinary (op : Opcode) (l r : Value) : Except Fault Value :=
  match op with
  | .binary b => b.eval l r
  | op => .error (.unsupported op)

/-- Apply an opcode to one value; only unary operators apply. -/
def Opcode.evalUnary (op : Opcode) (v : Value) : Except Fault Value :=
  match op with
  | .unary u => u.eval v
  | op => .error (.unsupported op)

end StackMachine
