/-
# TOML documents

A document is a sequence of lines, each with at most one statement: an entry, or
a header that says where the following entries go.

* `Toml.value`: a value on the right of an entry;
* `Toml.lines`: the statements of a text;
* `Toml.parse?`: the table that they build.
-/
import StackMachine.Toml.Basic
import StackMachine.Toml.Lexical

namespace StackMachine.Toml

open Reading

/-! ### Keys -/

def isBare (c : Char) : Bool := c.isAlphanum || c = '_' || c = '-'

/-- One part of a key. -/
def keyPart : Reading String := do
  blanks
  let cs ← takeSome isBare <|> basic <|> literal
  blanks
  return String.ofList cs

/-- Keys and values may not be nested this deep. -/
def depthLimit : Nat := 80

/-- A key: the parts but the last, and the last. -/
def key : Reading (List String × String) := do
  let parts ← separated keyPart (this '.')
  Reading.guard (parts.length < depthLimit)
  return (parts.dropLast, parts.getLastD "")

/-! ### Values -/

def scalar : Reading Toml :=
  (do return .str (← text)) <|>
  (do these ['t', 'r', 'u', 'e']; return .bool true) <|>
  (do these ['f', 'a', 'l', 's', 'e']; return .bool false) <|>
  (do dateTime; return .other) <|>
  (do float; return .other) <|>
  (do return .int (← integer))

/-- Values between brackets; a comma may follow the last. -/
def array (item : Reading Toml) : Reading Toml := do
  this '['
  let items ← Reading.optional do
    let items ← separated (spaced item) (this ',')
    let _ ← Reading.optional (this ',')
    return items
  gap
  this ']'
  return .arr (items.getD [])
where
  spaced (item : Reading Toml) : Reading Toml := do
    gap
    let v ← item
    gap
    return v

/-- One entry: its key and its value. -/
def entry (item : Reading Toml) : Reading ((List String × String) × Toml) := do
  let k ← key
  this '='
  blanks
  let v ← item
  return (k, v)

/-- Entries between braces, on one line. -/
def braced (item : Reading Toml) : Reading Toml := do
  this '\x7b'
  let entries ← Reading.optional (separated (spaced item) (this ','))
  blanks
  this '\x7d'
  let fields ← (entries.getD []).foldlM (fun fields ((path, k), v) => put path k v fields) []
  return .record fields
where
  spaced (item : Reading Toml) : Reading ((List String × String) × Toml) := do
    let e ← entry item
    blanks
    return e

/-- A value with at most `depth` brackets and braces around its parts. -/
def value : Nat → Reading Toml
  | 0 => scalar
  | depth + 1 => scalar <|> array (value depth) <|> braced (value depth)

/-! ### Lines -/

inductive Statement where
  | entry (path : List String) (key : String) (v : Toml)
  /-- A header in single brackets. -/
  | table (path : List String) (key : String)
  /-- A header in double brackets. -/
  | tables (path : List String) (key : String)

def statement : Reading Statement :=
  (do
    these ['[', '[']
    let (path, k) ← key
    these [']', ']']
    return .tables path k) <|>
  (do
    this '['
    let (path, k) ← key
    this ']'
    return .table path k) <|> do
    let ((path, k), v) ← Toml.entry (value (depthLimit - 1))
    return .entry path k v

def line : Reading (Option Statement) := do
  blanks
  let s ← Reading.optional statement
  trailing
  return s

/-- The statements of a text; a byte order mark may come first. -/
def lines (cs : List Char) : Option (List Statement) :=
  let cs := match cs with
    | '\ufeff' :: cs => cs
    | cs => cs
  match manyFrom line cs with
  | (found, []) => some (found.filterMap id)
  | _ => none

/-- What statements have built so far, and the table that entries go to. -/
structure Building where
  fields : Fields := []
  header : List String := []

def Building.add (b : Building) : Statement → Option Building
  | .entry path k v => (putIn b.header path k v b.fields).map fun fields => { b with fields }
  | .table path k => (openTable path k b.fields).map fun fields => ⟨fields, path ++ [k]⟩
  | .tables path k => (appendTable path k b.fields).map fun fields => ⟨fields, path ++ [k]⟩

/-- The table that a text describes, if it is a document. -/
def parse? (s : String) : Option Fields := do
  let statements ← lines s.toList
  let b ← statements.foldlM Building.add {}
  return b.fields

end StackMachine.Toml
