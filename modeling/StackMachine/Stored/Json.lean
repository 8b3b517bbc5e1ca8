/-
# The JSON form of a program

A program, a function and an instruction are records. A record is written as an
object with its fields in order. It is read from an object, where unknown keys
are passed over and a known key may come once, or from an array of its fields in
order.

* `Stored.toJson`, `Stored.toText`: writing;
* `Stored.ofJson?`, `Stored.ofText`: reading.
-/
import StackMachine.Json.Basic
import StackMachine.Program
import StackMachine.Stored.Error

namespace StackMachine.Stored

/-! ### Writing -/

def jsonOfText (s : String) : Json := .str (some s)

/-- An object with these members. -/
def jsonRecord (members : List (String × Json)) : Json :=
  .obj (members.map fun (k, j) => (some k, j))

def jsonOfWord (n : Int64) : Json := .int n.toInt

def jsonOfIndex (n : UInt64) : Json := .int n.toNat

/-- An instruction; the operand is left out where there is none. -/
def jsonOfInstr (i : Instr) : Json :=
  match i.operand with
  | none => jsonRecord [("op", jsonOfText i.op.name)]
  | some n => jsonRecord [("op", jsonOfText i.op.name), ("operand", jsonOfWord n)]

def jsonOfFunction (f : Function) : Json :=
  jsonRecord
    [("name", jsonOfText f.name), ("start_ip", jsonOfIndex f.start),
     ("param_count", jsonOfIndex f.params), ("local_count", jsonOfIndex f.locals),
     ("returns_value", .bool f.returns)]

def toJson (p : Program) : Json :=
  jsonRecord
    [("instructions", .arr (p.code.map jsonOfInstr)),
     ("const_pool", .arr (p.constants.map jsonOfWord)),
     ("functions", .arr (p.functions.map jsonOfFunction))]

/-- The JSON form of a program. -/
def toText (p : Program) : String := String.ofList ((toJson p).pretty 0)

/-! ### Reading -/

/-- The value of a key that may come once; `none` inside if it does not come. -/
def member? (members : List (Option String × Json)) (key : String) : Option (Option Json) :=
  match members.filter fun m => m.1 = some key with
  | [] => some none
  | [m] => some (some m.2)
  | _ => none

/-- The fields of a record, `none` where one is missing. -/
def fields? (names : List String) : Json → Option (List (Option Json))
  | .obj members =>
    if members.any fun m => m.1.isNone then none else names.mapM (member? members)
  | .arr items =>
    if items.length ≤ names.length then
      some (items.map some ++ List.replicate (names.length - items.length) none)
    else none
  | _ => none

def textOfJson? : Json → Option String
  | .str s => s
  | _ => none

def boolOfJson? : Json → Option Bool
  | .bool b => some b
  | _ => none

def wordOfJson? : Json → Option Int64
  | .int n => Instr.word? n
  | _ => none

def indexOfJson? : Json → Option UInt64
  | .int (.ofNat n) => if n < UInt64.size then some (UInt64.ofNat n) else none
  | _ => none

/-- A list of things. -/
def listOfJson? {α : Type} (item : Json → Option α) : Json → Option (List α)
  | .arr items => items.mapM item
  | _ => none

/-- An opcode: its name, or an object that gives its name the value null. -/
def opcodeOfJson? : Json → Option Opcode
  | .str (some s) => Opcode.ofName? s
  | .obj [(some s, .null)] => Opcode.ofName? s
  | _ => none

/-- An operand that is missing or null is none. -/
def operandOfJson? : Option Json → Option (Option Int64)
  | none => some none
  | some .null => some none
  | some j => (wordOfJson? j).map some

def instrOfJson? (j : Json) : Option Instr := do
  match ← fields? ["op", "operand"] j with
  | [some op, operand] =>
    let op ← opcodeOfJson? op
    let operand ← operandOfJson? operand
    return ⟨op, operand⟩
  | _ => none

def functionOfJson? (j : Json) : Option Function := do
  match ← fields? ["name", "start_ip", "param_count", "local_count", "returns_value"] j with
  | [some name, some start, some params, some locals, some returns] =>
    let name ← textOfJson? name
    let start ← indexOfJson? start
    let params ← indexOfJson? params
    let locals ← indexOfJson? locals
    let returns ← boolOfJson? returns
    return ⟨name, start, params, locals, returns⟩
  | _ => none

/-- A list that may be left out. -/
def optionalList? {α : Type} (item : Json → Option α) : Option Json → Option (List α)
  | none => some []
  | some j => listOfJson? item j

def ofJson? (j : Json) : Option Program := do
  match ← fields? ["instructions", "const_pool", "functions"] j with
  | [some code, constants, functions] =>
    let code ← listOfJson? instrOfJson? code
    let constants ← optionalList? wordOfJson? constants
    let functions ← optionalList? functionOfJson? functions
    return ⟨code, constants, functions⟩
  | _ => none

/-- The program whose JSON form this is. -/
def ofText (s : String) : Except Error Program :=
  match (Json.parse? s.toList).bind ofJson? with
  | some p => .ok p
  | none => .error .badJson

end StackMachine.Stored
