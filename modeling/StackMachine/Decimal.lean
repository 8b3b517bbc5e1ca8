/-
# Decimal integers

Integers are written in base ten with a leading minus sign where needed.

* `Decimal.chars`, `decimal`: writing;
* `Decimal.read?`: reading digits, with or without a minus sign;
* `Decimal.read?_chars`: reading what was written gives the integer back.
-/

namespace StackMachine

namespace Decimal

/-- The characters of an integer. -/
def chars : Int → List Char
  | .ofNat k => Nat.toDigits 10 k
  | .negSucc k => '-' :: Nat.toDigits 10 (k + 1)

/-- The number that a non-empty run of digits stands for. -/
def digits? (ds : List Char) : Option Nat :=
  if ds.isEmpty || !ds.all Char.isDigit then none else some (Nat.ofDigitChars 10 ds 0)

/-- Read an integer: digits, or a minus sign and digits. -/
def read? : List Char → Option Int
  | '-' :: ds => (digits? ds).map fun n => -(n : Int)
  | ds => (digits? ds).map fun n => (n : Int)

theorem isDigit_toDigits {n : Nat} {c : Char} (h : c ∈ Nat.toDigits 10 n) : c.isDigit = true :=
  Nat.isDigit_of_mem_toDigits (by decide) (by decide) h

@[simp] theorem digits?_toDigits (n : Nat) : digits? (Nat.toDigits 10 n) = some n := by
  have hne : (Nat.toDigits 10 n).isEmpty = false := by simp
  have hall : (Nat.toDigits 10 n).all Char.isDigit = true :=
    List.all_eq_true.mpr fun _ h => isDigit_toDigits h
  simp [digits?, hall, Nat.ofDigitChars_toDigits (b := 10) (by decide) (by decide)]

theorem read?_eq_of_digit {c : Char} {cs : List Char} (h : c.isDigit = true) :
    read? (c :: cs) = (digits? (c :: cs)).map fun n => (n : Int) := by
  unfold read?
  split
  · simp_all [Char.isDigit]
  · rfl

@[simp] theorem read?_chars (n : Int) : read? (chars n) = some n := by
  cases n with
  | ofNat k =>
    have hd := digits?_toDigits k
    cases hc : Nat.toDigits 10 k with
    | nil => simp at hc
    | cons c cs =>
      rw [hc] at hd
      have hdig : c.isDigit = true := isDigit_toDigits (n := k) (by rw [hc]; simp)
      simp [chars, hc, read?_eq_of_digit hdig, hd]
  | negSucc k => simp [chars, read?, Int.negSucc_eq]

end Decimal

/-- The text of an integer. -/
def decimal (n : Int) : String := String.ofList (Decimal.chars n)

end StackMachine
