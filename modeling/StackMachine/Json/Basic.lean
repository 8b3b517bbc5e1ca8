/-
# JSON values

* `Json`: the values;
* `Json.parse?`: the value that a text spells, if it spells one;
* `Json.pretty`: a value written over several lines, indented by two blanks.

The tokens of a value are put together by a machine that keeps the containers
still open (`Json.Build.step`), so no nesting is too deep for it.
-/
import StackMachine.Json.Token

namespace StackMachine

/-- A JSON value. Members of an object keep their order and may share a key. A
string or key whose escapes make no text has the text `none`; a number that is
no integer is only known to be one. -/
inductive Json where
  | null
  | bool (b : Bool)
  | int (n : Int)
  | real
  | str (text : Option String)
  | arr (items : List Json)
  | obj (members : List (Option String × Json))
  deriving Repr

namespace Json

/-! ### Reading -/

/-- A container still open; what it holds so far is newest first. In an object,
the value of `key` is being read. -/
inductive Frame where
  | array (items : List Json)
  | object (members : List (Option String × Json)) (key : Option String)

/-- What may come next. -/
inductive Build where
  /-- A value. -/
  | value (frames : List Frame)
  /-- A value, or the end of an array that holds nothing yet. -/
  | itemOrEnd (frames : List Frame)
  /-- A key, or the end of an object that holds nothing yet. -/
  | keyOrEnd (frames : List Frame)
  /-- A key, after members. -/
  | key (members : List (Option String × Json)) (frames : List Frame)
  | colon (members : List (Option String × Json)) (key : Option String) (frames : List Frame)
  /-- A value has just ended: more of what is around it, or its end. -/
  | after (done : Json) (frames : List Frame)

namespace Build

/-- A token where a value is wanted. -/
def start (frames : List Frame) : Token → Option Build
  | .openArray => some (.itemOrEnd frames)
  | .openObject => some (.keyOrEnd frames)
  | .null => some (.after .null frames)
  | .bool b => some (.after (.bool b) frames)
  | .int n => some (.after (.int n) frames)
  | .real => some (.after .real frames)
  | .str s => some (.after (.str s) frames)
  | _ => none

/-- The effect of one token. -/
def step : Build → Token → Option Build
  | .value fs, t => start fs t
  | .itemOrEnd fs, .closeArray => some (.after (.arr []) fs)
  | .itemOrEnd fs, t => start (.array [] :: fs) t
  | .keyOrEnd fs, .closeObject => some (.after (.obj []) fs)
  | .keyOrEnd fs, .str k => some (.colon [] k fs)
  | .key ms fs, .str k => some (.colon ms k fs)
  | .colon ms k fs, .colon => some (.value (.object ms k :: fs))
  | .after j (.array items :: fs), .comma => some (.value (.array (j :: items) :: fs))
  | .after j (.array items :: fs), .closeArray => some (.after (.arr (j :: items).reverse) fs)
  | .after j (.object ms k :: fs), .comma => some (.key ((k, j) :: ms) fs)
  | .after j (.object ms k :: fs), .closeObject => some (.after (.obj ((k, j) :: ms).reverse) fs)
  | _, _ => none

/-- The value, once the tokens have ended and nothing is open. -/
def finish? : Build → Option Json
  | .after j [] => some j
  | _ => none

end Build

/-- The value that tokens spell. -/
def ofTokens? (ts : List Token) : Option Json :=
  (ts.foldlM Build.step (.value [])).bind Build.finish?

/-- The value that a text spells. -/
def parse? (cs : List Char) : Option Json :=
  (scan? cs).bind ofTokens?

/-! ### Writing -/

/-- A string between quotes. A string with no text is written as half a
character. -/
def quoted : Option String → List Char
  | some s => '"' :: (s.toList.flatMap escape ++ ['"'])
  | none => ['"', '\\', 'u', 'd', '8', '0', '0', '"']

/-- A line break and the blanks that indent the next line. -/
def newline (depth : Nat) : List Char := '\n' :: List.replicate (2 * depth) ' '

mutual

/-- A value, indented by two blanks for each container around it. -/
def pretty (depth : Nat) : Json → List Char
  | .null => ['n', 'u', 'l', 'l']
  | .bool true => ['t', 'r', 'u', 'e']
  | .bool false => ['f', 'a', 'l', 's', 'e']
  | .int n => Decimal.chars n
  | .real => ['0', '.', '5']
  | .str s => quoted s
  | .arr [] => ['[', ']']
  | .arr (j :: js) =>
    '[' :: newline (depth + 1) ++ pretty (depth + 1) j ++ prettyItems depth js
  | .obj [] => ['{', '}']
  | .obj ((k, j) :: ms) =>
    '{' :: newline (depth + 1) ++ quoted k ++ [':', ' '] ++ pretty (depth + 1) j
      ++ prettyMembers depth ms

/-- The items after the first, and the end of the array. -/
def prettyItems (depth : Nat) : List Json → List Char
  | [] => newline depth ++ [']']
  | j :: js => ',' :: newline (depth + 1) ++ pretty (depth + 1) j ++ prettyItems depth js

/-- The members after the first, and the end of the object. -/
def prettyMembers (depth : Nat) : List (Option String × Json) → List Char
  | [] => newline depth ++ ['}']
  | (k, j) :: ms =>
    ',' :: newline (depth + 1) ++ quoted k ++ [':', ' '] ++ pretty (depth + 1) j
      ++ prettyMembers depth ms

end

end Json

end StackMachine
