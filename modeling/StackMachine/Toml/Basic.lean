/-
# TOML trees

A document is a table of keys and values. Tables come about in three ways, and
the way decides what may still be added to them:

* a header `[a.b]` makes `a.b` a table of its own, once (`Form.explicit`);
* it also makes `a` a table, if there is none, which a later header `[a]` may
  still open (`Form.implicit`);
* an entry `a.b = 1` makes `a` a table to which only entries of that kind add
  (`Form.dotted`).

What stands between braces is complete (`Toml.record`).

* `Toml.put`: an entry into a table;
* `Toml.openTable`, `Toml.appendTable`: what a header does.
-/

namespace StackMachine

/-- How a table came about. -/
inductive Toml.Form where
  | explicit | implicit | dotted
  deriving DecidableEq, Repr

inductive Toml where
  | str (s : String)
  | int (n : Int)
  | bool (b : Bool)
  /-- A number that is no integer, a date or a time. -/
  | other
  | arr (items : List Toml)
  /-- A table between braces. -/
  | record (fields : List (String × Toml))
  | table (form : Toml.Form) (fields : List (String × Toml))
  /-- Tables of one name, the latest first. -/
  | tables (latest : List (String × Toml)) (earlier : List (List (String × Toml)))

namespace Toml

abbrev Fields := List (String × Toml)

/-- Give a key a value, in place if it had one. -/
def set (fields : Fields) (key : String) (v : Toml) : Fields :=
  match fields with
  | [] => [(key, v)]
  | (k, w) :: fields => if k = key then (k, v) :: fields else (k, w) :: set fields key v

/-- Change the table at a path, given how it came about. Tables that are missing
on the way come about as `form` says; a path through tables of one name goes
through the latest. An entry does not reach into a table of its own. -/
def alter (form : Form) (change : Form → Fields → Option Fields) (here : Form) (fields : Fields) :
    List String → Option Fields
  | [] => change here fields
  | k :: path =>
    match fields.lookup k with
    | none => do
      let sub ← alter form change form [] path
      return set fields k (.table form sub)
    | some (.table f sub) =>
      if form = .dotted ∧ f = .explicit then none
      else do
        let sub ← alter form change f sub path
        return set fields k (.table f sub)
    | some (.tables latest earlier) => do
      let latest ← alter form change .explicit latest path
      return set fields k (.tables latest earlier)
    | some _ => none

/-- An entry: the key is new, and a path in front of it leads to a table of
entries of that kind. -/
def put (path : List String) (key : String) (v : Toml) (fields : Fields) : Option Fields :=
  alter .dotted
    (fun here fields =>
      if (here = .dotted ↔ path = []) ∨ (fields.lookup key).isSome then none
      else some (set fields key v))
    .explicit fields path

/-- A header in single brackets. -/
def openTable (path : List String) (key : String) (fields : Fields) : Option Fields :=
  alter .implicit
    (fun _ fields =>
      match fields.lookup key with
      | none => some (set fields key (.table .explicit []))
      | some (.table .implicit sub) => some (set fields key (.table .explicit sub))
      | some _ => none)
    .explicit fields path

/-- A header in double brackets. -/
def appendTable (path : List String) (key : String) (fields : Fields) : Option Fields :=
  alter .implicit
    (fun _ fields =>
      match fields.lookup key with
      | none => some (set fields key (.tables [] []))
      | some (.tables latest earlier) => some (set fields key (.tables [] (latest :: earlier)))
      | some _ => none)
    .explicit fields path

/-- An entry into the table that the last header opened. -/
def putIn (header path : List String) (key : String) (v : Toml) (fields : Fields) :
    Option Fields :=
  alter .implicit (fun _ => put path key v) .explicit fields header

/-- A table or a list with nothing in it. -/
def isEmpty : Toml → Bool
  | arr items => items.isEmpty
  | record fields => fields.isEmpty
  | table _ fields => fields.isEmpty
  | _ => false

/-- The entries of a value that is a table. -/
def fields? : Toml → Option Fields
  | record fields => some fields
  | table _ fields => some fields
  | _ => none

end Toml

end StackMachine
