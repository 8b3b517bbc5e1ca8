/-
# Reading characters

A reading takes something off the front of a text, or fails. Alternatives start
again from where the first one started.

* `Reading.many`: a reading again and again, for as long as it succeeds and
  takes something off the text.
-/

namespace StackMachine.Toml

/-- Something read off the front of a text, and the rest. -/
abbrev Reading (α : Type) := StateT (List Char) Option α

namespace Reading

variable {α : Type}

/-- The next character, if it passes the test. -/
def char (p : Char → Bool) : Reading Char
  | c :: cs => if p c then some (c, cs) else none
  | [] => none

/-- The next character has to be this one. -/
def this (c : Char) : Reading Unit
  | d :: cs => if d = c then some ((), cs) else none
  | [] => none

/-- The next characters have to be these. -/
def these : List Char → Reading Unit
  | [] => return ()
  | c :: cs => do
    this c
    these cs

/-- All characters that pass the test, up to the first that does not. -/
def takeWhile (p : Char → Bool) : Reading (List Char) := fun cs =>
  some (cs.takeWhile p, cs.dropWhile p)

/-- As `takeWhile`, but at least one. -/
def takeSome (p : Char → Bool) : Reading (List Char) := do
  let c ← char p
  let cs ← takeWhile p
  return c :: cs

/-- Whether the text has ended. -/
def atEnd : Reading Bool := fun cs => some (cs.isEmpty, cs)

/-- A reading, or nothing where it fails. -/
def optional (r : Reading α) : Reading (Option α) := fun cs =>
  match r cs with
  | some (a, rest) => some (some a, rest)
  | none => some (none, cs)

/-- Tell whether a reading would succeed, and take nothing. -/
def ahead (r : Reading α) : Reading Bool := fun cs => some ((r cs).isSome, cs)

/-- A reading again and again, until it fails or takes nothing. -/
def manyFrom (r : Reading α) (cs : List Char) : List α × List Char :=
  match r cs with
  | none => ([], cs)
  | some (a, rest) =>
    if _h : rest.length < cs.length then
      let (as, rest) := manyFrom r rest
      (a :: as, rest)
    else ([], cs)
termination_by cs.length

def many (r : Reading α) : Reading (List α) := fun cs => some (manyFrom r cs)

/-- One or more, with something between them. -/
def separated (r : Reading α) (between : Reading Unit) : Reading (List α) := do
  let a ← r
  let as ← many do
    between
    r
  return a :: as

/-- A number of exactly `n` decimal digits. -/
def digits (n : Nat) : Reading Nat := fun cs =>
  let ds := cs.take n
  if ds.length = n ∧ ds.all Char.isDigit then some (Nat.ofDigitChars 10 ds 0, cs.drop n) else none

/-- Fail unless a condition holds. -/
def guard (b : Bool) : Reading Unit := if b then return () else failure

end Reading

end StackMachine.Toml
