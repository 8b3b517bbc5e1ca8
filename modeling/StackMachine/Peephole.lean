/-
# Simplifying a body

Two passes over a body whose jumps are relative to it. Folding replaces an
operator applied to constants by the push of its value; elimination drops a push
or a duplication whose value is popped at once. Neither takes away an operator
or a pop that some jump lands on, and both move the jumps along with the
instructions.

Every instruction of the result is traced back to one of the body it came from.

* `Peephole.fold`, `Peephole.eliminate`: the passes, with origins;
* `Peephole.simplify`: one after the other.

The output of a pass is built newest first, so that what comes before an
instruction is at the head.
-/
import StackMachine.Operator

namespace StackMachine

/-- An instruction and the place in the body it came from. -/
structure Traced where
  instr : Instr
  origin : Nat
  deriving DecidableEq, Repr

namespace Peephole

/-- The value a push puts on the stack, if it is known. -/
def constant? (i : Instr) : Option Value :=
  match i.op with
  | .pushInt => i.operand.map Value.int
  | .pushBool b => some (.bool b)
  | _ => none

/-- The push of a value; a reference cannot be pushed. -/
def pushOf? : Value → Option Instr
  | .int n => some ⟨.pushInt, some n⟩
  | .bool b => some ⟨.pushBool b, none⟩
  | .ref _ => none

/-- The place a jump lands on. -/
def landing? (i : Instr) : Option Nat :=
  if i.op.isJump then i.operand.bind Instr.place? else none

/-- The places that jumps land on. -/
def landings (body : Code) : List Nat := body.filterMap landing?

/-- The instructions of a body, traced to themselves. -/
def trace (body : Code) : List Traced := body.zipIdx.map fun (i, k) => ⟨i, k⟩

/-- Move a jump along with the place it lands on: that place is now where the
first instruction that came from it or from later is. -/
def retarget (size : Nat) (origins : List Nat) (i : Instr) : Instr :=
  match landing? i with
  | some t =>
    if t ≤ size then ⟨i.op, some (Int64.ofNat (origins.countP (· < t)))⟩ else i
  | none => i

/-- Move all jumps of the output of a pass over a body of `size` instructions. -/
def remap (size : Nat) (out : List Traced) : List Traced :=
  out.map fun t => { t with instr := retarget size (out.map Traced.origin) t.instr }

/-! ### Constant folding -/

/-- The push that an operator and the pushes before it come down to. -/
def folded? (landed : List Nat) (last : Traced) : List Traced → Option (Traced × List Traced)
  | right :: left :: rest =>
    match last.instr.op with
    | .binary b =>
      if landed.contains right.origin || landed.contains last.origin then none
      else do
        let l ← constant? left.instr
        let r ← constant? right.instr
        let v ← (b.eval l r).toOption
        let i ← pushOf? v
        return (⟨i, left.origin⟩, rest)
    | .unary u => unary? u right (left :: rest)
    | _ => none
  | [operand] =>
    match last.instr.op with
    | .unary u => unary? u operand []
    | _ => none
  | [] => none
where
  /-- A unary operator applied to a constant. -/
  unary? (u : Unary) (operand : Traced) (rest : List Traced) : Option (Traced × List Traced) :=
    if landed.contains last.origin then none
    else do
      let x ← constant? operand.instr
      let v ← (u.eval x).toOption
      let i ← pushOf? v
      return (⟨i, operand.origin⟩, rest)

/-- Add an instruction to the output, folded with what comes before it. -/
def foldStep (landed : List Nat) (out : List Traced) (t : Traced) : List Traced :=
  match folded? landed t out with
  | some (i, rest) => i :: rest
  | none => t :: out

/-- Fold constants. A push that results from a fold may be folded again by a
later operator. -/
def fold (body : Code) : List Traced :=
  remap body.length ((trace body).foldl (foldStep (landings body)) []).reverse

/-! ### Dead-push elimination -/

/-- Whether an instruction only adds a value to the stack. -/
def onlyPushes (i : Instr) : Bool := i.op.isConstantPush || i.op = .dup

/-- Add an instruction to the output; a pop takes the push before it along. -/
def eliminateStep (landed : List Nat) (out : List Traced) (t : Traced) : List Traced :=
  if t.instr.op = .pop ∧ ¬ landed.contains t.origin then
    match out with
    | prev :: rest => if onlyPushes prev.instr then rest else t :: out
    | [] => [t]
  else t :: out

/-- Drop pushes whose value is popped at once. What comes together by a drop is
looked at again. -/
def eliminate (body : Code) : List Traced :=
  remap body.length ((trace body).foldl (eliminateStep (landings body)) []).reverse

/-! ### Both -/

/-- The instructions of the output of a pass. -/
def code (out : List Traced) : Code := out.map Traced.instr

/-- Fold, then eliminate; the origins are places in the body itself. -/
def simplify (body : Code) : List Traced :=
  let folded := fold body
  (eliminate (code folded)).map fun t =>
    { t with origin := (folded[t.origin]?.map Traced.origin).getD t.origin }

end Peephole

end StackMachine
