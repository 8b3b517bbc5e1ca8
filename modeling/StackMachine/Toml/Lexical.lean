/-
# The small parts of a TOML text

Blanks, comments, strings, numbers, dates and times. Dates, times and numbers
with a fraction or an exponent are only checked; their value is of no use here.
-/
import StackMachine.Json.Text
import StackMachine.Toml.Reading

namespace StackMachine.Toml

open Reading

/-! ### Blanks and comments -/

def isBlank (c : Char) : Bool := c = ' ' || c = '\t'

/-- Characters of comments and of quoted text: no control character but the
tab. -/
def isPlain (c : Char) : Bool := c = '\t' || (32 ≤ c.toNat && c.toNat != 127)

def blanks : Reading Unit := do
  let _ ← takeWhile isBlank

/-- A line ends with a line feed, which a carriage return may come before. -/
def newline : Reading Unit := do
  let _ ← Reading.optional (this '\r')
  this '\n'

def comment : Reading Unit := do
  this '#'
  let _ ← takeWhile isPlain

/-- Blanks, line ends and whole comments. -/
def gap : Reading Unit := do
  let _ ← Reading.many (blank <|> newline <|> wholeComment)
where
  blank : Reading Unit := do
    let _ ← takeSome isBlank
  wholeComment : Reading Unit := do
    comment
    newline

/-- The end of a line or of the text. -/
def lineEnd : Reading Unit := do
  if ← atEnd then return () else newline

/-- What may follow a complete statement on its line. -/
def trailing : Reading Unit := do
  blanks
  let _ ← Reading.optional comment
  lineEnd

/-! ### Strings -/

/-- The character with a code point, if there is one. -/
def scalar? (n : Nat) : Option Char := if n.isValidChar then some (Char.ofNat n) else none

/-- A character given by exactly `n` hexadecimal digits. -/
def codePoint (n : Nat) : Reading Char := fun cs =>
  let ds := cs.take n
  if ds.length = n then
    ((Json.hexNat? ds).bind scalar?).map fun c => (c, cs.drop n)
  else none

/-- What follows a backslash. -/
def escaped : Reading Char := do
  let c ← char fun _ => true
  if c = 'u' then codePoint 4
  else if c = 'U' then codePoint 8
  else if c = 'b' then return '\x08'
  else if c = 't' then return '\t'
  else if c = 'n' then return '\n'
  else if c = 'f' then return '\x0c'
  else if c = 'r' then return '\r'
  else if c = '"' || c = '\\' then return c
  else failure

/-- One character of a quoted text. -/
def basicChar : Reading Char :=
  (char fun c => isPlain c && c != '"' && c != '\\') <|> do
    this '\\'
    escaped

/-- Text between quotes on one line. -/
def basic : Reading (List Char) := do
  this '"'
  let cs ← Reading.many basicChar
  this '"'
  return cs

/-- Text between apostrophes on one line, with no escapes. -/
def literal : Reading (List Char) := do
  this '\''
  let cs ← takeWhile fun c => isPlain c && c != '\''
  this '\''
  return cs

/-- One or two quotes that do not end a text over several lines: what follows
them is not enough to end it. -/
def innerQuotes (q : Char) : Reading (List Char) := fun cs =>
  match (cs.takeWhile (· = q)).length with
  | 1 => some ([q], cs.drop 1)
  | 2 => some ([q, q], cs.drop 2)
  | _ => none

/-- The end of a text over several lines; up to two quotes before it belong to
the text. -/
def closing (q : Char) : Reading (List Char) := fun cs =>
  let n := (cs.takeWhile (· = q)).length
  if n < 3 then none
  else
    let extra := min (n - 3) 2
    some (List.replicate extra q, cs.drop (extra + 3))

def lineBreak : Reading (List Char) := do
  newline
  return ['\n']

/-- A backslash at the end of a line takes the line end and all blanks after it
away. -/
def continued : Reading (List Char) := do
  this '\\'
  blanks
  newline
  let _ ← Reading.many (newline <|> do let _ ← takeSome isBlank)
  return []

/-- Text between three quotes, over any number of lines. -/
def multiBasic : Reading (List Char) := do
  these ['"', '"', '"']
  let _ ← Reading.optional newline
  let parts ← Reading.many (innerQuotes '"' <|> continued <|> lineBreak <|> one)
  let extra ← closing '"'
  return parts.flatten ++ extra
where
  one : Reading (List Char) := do
    let c ← basicChar
    return [c]

/-- Text between three apostrophes, over any number of lines. -/
def multiLiteral : Reading (List Char) := do
  these ['\'', '\'', '\'']
  let _ ← Reading.optional newline
  let parts ← Reading.many (innerQuotes '\'' <|> lineBreak <|> one)
  let extra ← closing '\''
  return parts.flatten ++ extra
where
  one : Reading (List Char) := do
    let c ← char fun c => isPlain c && c != '\''
    return [c]

def text : Reading String := do
  let cs ← multiBasic <|> basic <|> multiLiteral <|> literal
  return String.ofList cs

/-! ### Numbers -/

/-- Digits, with single underscores between them. -/
def grouped (p : Char → Bool) : Reading (List Char) := do
  let d ← char p
  let ds ← Reading.many ((char p) <|> do
    this '_'
    char p)
  return d :: ds

/-- The digits of a decimal integer: no superfluous zero at the front. -/
def wholeDigits : Reading (List Char) :=
  (do
    let b ← ahead (char fun c => c.isDigit && c != '0')
    Reading.guard b
    grouped Char.isDigit) <|> do
    this '0'
    return ['0']

/-- A sign; a minus sign counts. -/
def sign : Reading Bool := do
  let s ← Reading.optional (char fun c => c = '+' || c = '-')
  return s = some '-'

/-- An integer has to fit 64 bits. -/
def inRange (n : Int) : Reading Int := do
  Reading.guard (decide (Int64.minValue.toInt ≤ n ∧ n ≤ Int64.maxValue.toInt))
  return n

/-- An integer in base 16, 8 or 2, after the letter that says so. -/
def based (letter : Char) (base : Nat) : Reading Int := do
  these ['0', letter]
  let ds ← grouped fun c => ((Json.hexValue? c).filter (· < base)).isSome
  inRange (ds.foldl (fun n c => base * n + (Json.hexValue? c).getD 0) 0)

def integer : Reading Int :=
  based 'x' 16 <|> based 'o' 8 <|> based 'b' 2 <|> do
    let negative ← sign
    let ds ← wholeDigits
    let n := Nat.ofDigitChars 10 ds 0
    inRange (if negative then -(n : Int) else n)

/-- The least decimal numbers of this size are rounded to infinity by a 64-bit
floating-point number. -/
def infinite : Nat := Nat.pow 2 1024 - Nat.pow 2 970

/-- Whether `m · 10 ^ e` is too large for a 64-bit floating-point number. Only
numbers of about the right length are compared exactly. -/
def overflows (m : Nat) (e : Int) : Bool :=
  let size := (Nat.toDigits 10 m).length + e
  if m = 0 || size < 300 then false
  else if 320 < size then true
  else if 0 ≤ e then infinite ≤ m * Nat.pow 10 e.toNat
  else infinite * Nat.pow 10 (-e).toNat ≤ m

/-- A number with a fraction or an exponent. One that is too large is refused,
unless it is negative. -/
def float : Reading Unit :=
  (do
    let negative ← sign
    let whole ← wholeDigits
    let fraction ← Reading.optional do
      this '.'
      grouped Char.isDigit
    let exponent ← Reading.optional do
      let _ ← char fun c => c = 'e' || c = 'E'
      let negative ← sign
      let ds ← grouped Char.isDigit
      let n := Nat.ofDigitChars 10 ds 0
      return if negative then -(n : Int) else n
    Reading.guard (fraction.isSome || exponent.isSome)
    let fraction := fraction.getD []
    let m := Nat.ofDigitChars 10 (whole ++ fraction) 0
    Reading.guard (negative || !overflows m (exponent.getD 0 - fraction.length))) <|> do
    let _ ← sign
    these ['i', 'n', 'f'] <|> these ['n', 'a', 'n']

/-! ### Dates and times -/

def isLeap (year : Nat) : Bool := year % 4 = 0 && (year % 100 != 0 || year % 400 = 0)

def daysIn (year month : Nat) : Nat :=
  if month = 2 then if isLeap year then 29 else 28
  else if month = 4 || month = 6 || month = 9 || month = 11 then 30
  else 31

def date : Reading Unit := do
  let year ← digits 4
  this '-'
  let month ← digits 2
  this '-'
  let day ← digits 2
  Reading.guard (decide (1 ≤ month ∧ month ≤ 12 ∧ 1 ≤ day ∧ day ≤ daysIn year month))

/-- Hours and minutes. -/
def clock : Reading Unit := do
  let hour ← digits 2
  this ':'
  let minute ← digits 2
  Reading.guard (decide (hour ≤ 23 ∧ minute ≤ 59))

/-- A time of day; a leap second is one. -/
def time : Reading Unit := do
  clock
  this ':'
  let second ← digits 2
  Reading.guard (decide (second ≤ 60))
  let _ ← Reading.optional do
    this '.'
    let _ ← takeSome Char.isDigit

/-- The distance of a time from the universal one. -/
def zone : Reading Unit :=
  (do let _ ← char fun c => c = 'Z' || c = 'z') <|> do
    let _ ← char fun c => c = '+' || c = '-'
    clock

def dateTime : Reading Unit :=
  (do
    date
    let _ ← Reading.optional do
      let _ ← char fun c => c = 'T' || c = 't' || c = ' '
      time
      let _ ← Reading.optional zone) <|> time

end StackMachine.Toml
