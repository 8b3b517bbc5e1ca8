/-
# JSON tokens

Text is cut into tokens one character at a time. Blanks separate, six
characters are tokens of their own, quotes delimit strings, and every other run
of characters is an atom: a number or one of the three words.

* `Json.Scan.step`: the effect of one character;
* `Json.scan?`: the tokens of a text, if all of it is tokens.

Integers are read exactly, however long. A number with a fraction or an
exponent, and a zero with a minus sign, is a number that is no integer.
-/
import StackMachine.Decimal
import StackMachine.Json.Text

namespace StackMachine.Json

/-- The tokens of JSON. A string whose escapes make no text has the text
`none`. -/
inductive Token where
  | openArray | closeArray
  | openObject | closeObject
  | colon | comma
  | null
  | bool (b : Bool)
  | int (n : Int)
  | real
  | str (text : Option String)
  deriving DecidableEq, Repr

/-- One or more digits. -/
def isDigits (cs : List Char) : Bool := !cs.isEmpty && cs.all Char.isDigit

/-- The integer part of a number has no superfluous zero. -/
def isWhole : List Char → Bool
  | ['0'] => true
  | '0' :: _ => false
  | cs => isDigits cs

/-- The part of a number after `e`. -/
def isExponent : List Char → Bool
  | '+' :: cs => isDigits cs
  | '-' :: cs => isDigits cs
  | cs => isDigits cs

/-- A number without its sign, with the exponent and the fraction split off. -/
def ofUnsigned? (negative : Bool) (cs : List Char) : Option Token :=
  let isE := fun c => c = 'e' || c = 'E'
  let mantissa := cs.takeWhile fun c => !isE c
  let exponent := cs.dropWhile fun c => !isE c
  let whole := mantissa.takeWhile (· != '.')
  let fraction := mantissa.dropWhile (· != '.')
  if !isWhole whole then none
  else if !fraction.isEmpty && !isDigits (fraction.drop 1) then none
  else if !exponent.isEmpty && !isExponent (exponent.drop 1) then none
  else if fraction.isEmpty && exponent.isEmpty then
    let n := Nat.ofDigitChars 10 whole 0
    if negative then if n = 0 then some .real else some (.int (-(n : Int)))
    else some (.int n)
  else some .real

/-- The token that a run of characters spells. -/
def ofAtom? (cs : List Char) : Option Token :=
  if cs = ['n', 'u', 'l', 'l'] then some .null
  else if cs = ['t', 'r', 'u', 'e'] then some (.bool true)
  else if cs = ['f', 'a', 'l', 's', 'e'] then some (.bool false)
  else
    match cs with
    | '-' :: cs => ofUnsigned? true cs
    | cs => ofUnsigned? false cs

/-- The characters that may stand between tokens. -/
def isBlank (c : Char) : Bool := c = ' ' || c = '\t' || c = '\n' || c = '\r'

/-- The tokens of one character. -/
def punctuation? (c : Char) : Option Token :=
  if c = '[' then some .openArray
  else if c = ']' then some .closeArray
  else if c = '{' then some .openObject
  else if c = '}' then some .closeObject
  else if c = ':' then some .colon
  else if c = ',' then some .comma
  else none

/-- What has been read of the token at hand, newest first. -/
inductive Mode where
  | between
  | atom (cs : List Char)
  | text (ps : List Piece)
  | escape (ps : List Piece)
  | hex (ps : List Piece) (ds : List Char)
  deriving DecidableEq, Repr

/-- A text being cut into tokens; the tokens found are newest first. -/
structure Scan where
  mode : Mode := .between
  found : List Token := []
  deriving DecidableEq, Repr

namespace Scan

/-- A character outside strings and atoms. -/
def fresh (found : List Token) (c : Char) : Scan :=
  if isBlank c then ⟨.between, found⟩
  else if c = '"' then ⟨.text [], found⟩
  else
    match punctuation? c with
    | some t => ⟨.between, t :: found⟩
    | none => ⟨.atom [c], found⟩

/-- Whether a character ends an atom. -/
def endsAtom (c : Char) : Bool := isBlank c || c = '"' || (punctuation? c).isSome

/-- The effect of one character. -/
def step (s : Scan) (c : Char) : Option Scan :=
  match s.mode with
  | .between => some (fresh s.found c)
  | .atom cs =>
    if endsAtom c then (ofAtom? cs.reverse).map fun t => fresh (t :: s.found) c
    else some ⟨.atom (c :: cs), s.found⟩
  | .text ps =>
    if c = '"' then some ⟨.between, .str ((join? ps.reverse).map String.ofList) :: s.found⟩
    else if c = '\\' then some ⟨.escape ps, s.found⟩
    else if c.toNat < 32 then none
    else some ⟨.text (.char c :: ps), s.found⟩
  | .escape ps =>
    if c = 'u' then some ⟨.hex ps [], s.found⟩
    else (unescape? c).map fun c => ⟨.text (.char c :: ps), s.found⟩
  | .hex ps ds =>
    if ds.length < 3 then some ⟨.hex ps (c :: ds), s.found⟩
    else (hexNat? (c :: ds).reverse).map fun n => ⟨.text (.unit n :: ps), s.found⟩

/-- The tokens, oldest first, once the text has ended. -/
def finish? (s : Scan) : Option (List Token) :=
  match s.mode with
  | .between => some s.found.reverse
  | .atom cs => (ofAtom? cs.reverse).map fun t => (t :: s.found).reverse
  | _ => none

end Scan

/-- The tokens of a text. -/
def scan? (cs : List Char) : Option (List Token) :=
  (cs.foldlM Scan.step {}).bind Scan.finish?

end StackMachine.Json
