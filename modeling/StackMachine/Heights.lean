/-
# Stack heights

A body is checked without running it: every instruction takes and gives a fixed
number of values, so following both branches of every conditional jump tells how
high the operand stack is before each instruction. A body is accepted if no
instruction takes more than there is, all ways to an instruction agree on the
height, jumps stay inside, and control never runs past the last instruction.

* `Instr.effect`, `Instr.successors`: what an instruction takes and gives, and
  where it may go;
* `Heights.survey`: the height before each instruction that can be reached, and
  the greatest height of all;
* `Heights.analyze`: the greatest height alone.

Parameters live in locals, so a body starts with an empty stack.
-/
import StackMachine.Program

namespace StackMachine

/-- Why a body is refused. -/
inductive HeightError where
  | underflow (pc : Nat) (op : Opcode) (required actual : Nat)
  | mismatch (pc expected actual : Nat)
  | badJump (pc : Nat) (target : Int64) (size : Nat)
  | missingOperand (pc : Nat) (op : Opcode)
  | unknownFunction (pc : Nat) (index : Int64)
  | fallsOff (pc : Nat)
  deriving DecidableEq, Repr

def HeightError.message : HeightError → String
  | underflow pc op r a =>
    "stack underflow at pc " ++ decimal pc ++ ": " ++ op.name ++ " needs " ++ decimal r
      ++ ", stack has " ++ decimal a
  | mismatch pc e a =>
    "stack height mismatch at pc " ++ decimal pc ++ ": expected " ++ decimal e ++ ", found "
      ++ decimal a
  | badJump pc t n =>
    "jump at pc " ++ decimal pc ++ " targets " ++ decimal t.toInt ++ ", outside a body of "
      ++ decimal n ++ " instructions"
  | missingOperand pc op => "missing operand for " ++ op.name ++ " at pc " ++ decimal pc
  | unknownFunction pc i =>
    "call at pc " ++ decimal pc ++ " to unknown function " ++ decimal i.toInt
  | fallsOff pc =>
    "control leaves the body after pc " ++ decimal pc ++ " without RET, RET_VOID or HALT"

namespace Instr

/-- What an opcode takes and gives; for a call this depends on the callee, and
is none here. -/
def fixedEffect : Opcode → Option (Nat × Nat)
  | .pushInt | .pushBool _ => some (0, 1)
  | .pop => some (1, 0)
  | .dup => some (1, 2)
  | .binary _ => some (2, 1)
  | .unary _ => some (1, 1)
  | .jump .always => some (0, 0)
  | .jump (.on _) => some (1, 0)
  | .loadLocal | .loadGlobal => some (0, 1)
  | .storeLocal | .storeGlobal => some (1, 0)
  | .call => none
  | .ret => some (1, 0)
  | .retVoid | .halt => some (0, 0)
  | .allocArray => some (1, 1)
  | .loadElem => some (2, 1)
  | .storeElem => some (3, 0)
  | .allocStruct | .new => some (1, 1)
  | .loadField => some (1, 1)
  | .storeField => some (2, 0)
  | .printInt | .printBool => some (1, 0)

/-- How many values the instruction at `pc` takes off the stack, and how many it
puts there. -/
def effect (functions : List Function) (pc : Nat) (i : Instr) :
    Except HeightError (Nat × Nat) :=
  if i.op.needsOperand && i.operand.isNone then .error (.missingOperand pc i.op)
  else
    match fixedEffect i.op with
    | some e => .ok e
    | none =>
      let index := i.operand.getD (-1)
      match (place? index).bind fun k => functions[k]? with
      | some f => .ok (f.arity, if f.returns then 1 else 0)
      | none => .error (.unknownFunction pc index)

/-- Where the instruction at `pc` may go in a body of `size` instructions; one
past the end counts as a place. -/
def successors (size pc : Nat) (i : Instr) : Except HeightError (List Nat) :=
  match i.op with
  | .jump .always => do
    let t ← target
    return [t]
  | .jump (.on _) => do
    let t ← target
    return [pc + 1, t]
  | .ret | .retVoid | .halt => return []
  | _ => return [pc + 1]
where
  target : Except HeightError Nat :=
    match i.operand with
    | none => .error (.missingOperand pc i.op)
    | some raw =>
      match (place? raw).filter (· ≤ size) with
      | some t => .ok t
      | none => .error (.badJump pc raw size)

end Instr

namespace Heights

/-- The height found before each instruction, and the instructions still to be
looked at, in the order in which they were found. -/
structure Survey where
  heights : List (Option Nat)
  queue : List Nat
  deriving DecidableEq, Repr

/-- Control goes from `pc` to `next` with `height` values on the stack. -/
def Survey.reach (s : Survey) (pc height next : Nat) : Except HeightError Survey :=
  match s.heights[next]? with
  | none => .error (.fallsOff pc)
  | some none =>
    .ok { heights := s.heights.set next (some height), queue := s.queue ++ [next] }
  | some (some h) => if h = height then .ok s else .error (.mismatch next h height)

/-- Control goes from `pc` to each of some places. -/
def Survey.reachAll (s : Survey) (pc height : Nat) : List Nat → Except HeightError Survey
  | [] => .ok s
  | n :: ns => do
    let s ← s.reach pc height n
    s.reachAll pc height ns

/-- How much is left to look at: every place not yet reached may be queued once. -/
def Survey.budget (s : Survey) : Nat := 2 * s.heights.count none + s.queue.length

theorem Survey.budget_reach {s t : Survey} {pc height next : Nat}
    (h : s.reach pc height next = .ok t) : t.budget ≤ s.budget := by
  unfold reach at h
  split at h
  · cases h
  · rename_i hn
    cases h
    obtain ⟨hlt, hn⟩ := List.getElem?_eq_some_iff.mp hn
    have hpos : 0 < s.heights.count none :=
      List.count_pos_iff.mpr (hn ▸ List.getElem_mem hlt)
    have hset : (s.heights.set next (some height)).count none = s.heights.count none - 1 := by
      rw [List.count_set hlt]
      simp [hn]
    simp only [budget, hset, List.length_append, List.length_cons, List.length_nil]
    omega
  · split at h
    · cases h; exact Nat.le_refl _
    · cases h

theorem Survey.budget_reachAll {pc height : Nat} {ns : List Nat} {s t : Survey}
    (h : s.reachAll pc height ns = .ok t) : t.budget ≤ s.budget := by
  induction ns generalizing s with
  | nil => cases h; exact Nat.le_refl _
  | cons n ns ih =>
    unfold reachAll at h
    cases hr : s.reach pc height n with
    | error e => rw [hr] at h; cases h
    | ok u =>
      rw [hr] at h
      exact Nat.le_trans (ih h) (budget_reach hr)

/-- Look at the instruction at `pc`, which is reached with `height` values on
the stack: the survey after it, and the height after it. -/
def look (functions : List Function) (body : Code) (s : Survey) (pc height : Nat) (i : Instr) :
    Except HeightError (Survey × Nat) := do
  let (pops, pushes) ← i.effect functions pc
  if height < pops then throw (.underflow pc i.op pops height)
  let after := height - pops + pushes
  let next ← i.successors body.length pc
  let s ← s.reachAll pc after next
  return (s, after)

theorem budget_look {functions : List Function} {body : Code} {s t : Survey} {pc height after : Nat}
    {i : Instr} (h : look functions body s pc height i = .ok (t, after)) : t.budget ≤ s.budget := by
  unfold look at h
  cases he : i.effect functions pc with
  | error e => rw [he] at h; cases h
  | ok e =>
    obtain ⟨pops, pushes⟩ := e
    rw [he] at h
    simp only [bind, Except.bind, pure, Except.pure] at h
    by_cases hp : height < pops
    · simp only [hp, ↓reduceIte] at h; cases h
    · simp only [hp, ↓reduceIte] at h
      cases hs : i.successors body.length pc with
      | error e => rw [hs] at h; cases h
      | ok ns =>
        rw [hs] at h
        cases hr : s.reachAll pc (height - pops + pushes) ns with
        | error e => simp only [hr] at h; cases h
        | ok u =>
          simp only [hr] at h
          cases h
          exact Survey.budget_reachAll hr

/-- Look at everything that is queued, and at what that leads to; `peak` is the
greatest height so far. -/
def explore (functions : List Function) (body : Code) (s : Survey) (peak : Nat) :
    Except HeightError (List (Option Nat) × Nat) :=
  match _hq : s.queue with
  | [] => .ok (s.heights, peak)
  | pc :: rest =>
    match s.heights[pc]?.join, body[pc]? with
    | some height, some i =>
      match _hl : look functions body { s with queue := rest } pc height i with
      | .error e => .error e
      | .ok (t, after) => explore functions body t (max (max peak after) height)
    | _, _ => explore functions body { s with queue := rest } peak
termination_by s.budget
decreasing_by
  · have := budget_look _hl
    simp only [Survey.budget, _hq, List.length_cons] at this ⊢
    omega
  · simp only [Survey.budget, _hq, List.length_cons]
    omega

/-- The height before each instruction that can be reached, and the greatest
height before or after any of them. -/
def survey (body : Code) (functions : List Function) :
    Except HeightError (List (Option Nat) × Nat) :=
  if body.isEmpty then .ok ([], 0)
  else explore functions body ⟨some 0 :: List.replicate (body.length - 1) none, [0]⟩ 0

/-- The greatest height of the operand stack in a body. -/
def analyze (body : Code) (functions : List Function) : Except HeightError Nat :=
  (survey body functions).map Prod.snd

end Heights

end StackMachine
