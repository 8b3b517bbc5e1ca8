/-
# Settings from a file

A settings file is a TOML document. A key that it does not have keeps its
default, a key that settings do not have is let be, and a value of the wrong
kind makes the file malformed.

* `Settings.ofText`: the settings in a text, if nothing is wrong with them;
* `Settings.ofFile`: the same from a file's bytes.
-/
import StackMachine.Bytes
import StackMachine.Settings
import StackMachine.Toml.Document

namespace StackMachine

namespace CompileMode

def name : CompileMode → String
  | off => "off"
  | on => "on"
  | auto => "auto"

def ofName? (s : String) : Option CompileMode := [off, on, auto].find? (·.name = s)

end CompileMode

namespace CodeForm

def name : CodeForm → String
  | isolated => "baseline"
  | integrated => "vm_integrated"

def ofName? (s : String) : Option CodeForm := [isolated, integrated].find? (·.name = s)

end CodeForm

namespace Settings

/-- Why no settings could be had. -/
inductive LoadError where
  /-- There is no such file, or it is not text. -/
  | unreadable
  /-- The text is no document, or a value in it is of the wrong kind. -/
  | malformed
  | invalid (p : Problem)
  deriving DecidableEq, Repr

variable {α : Type}

/-- The value of a key, or a default where there is no such key. -/
def field (fields : Toml.Fields) (key : String) (read : Toml → Option α) (default : α) : Option α :=
  match fields.lookup key with
  | none => some default
  | some v => read v

def flag : Toml → Option Bool
  | .bool b => some b
  | _ => none

/-- A number from 0 up to a limit. -/
def count (limit : Nat) : Toml → Option Nat
  | .int n => if 0 ≤ n ∧ n ≤ limit then some n.toNat else none
  | _ => none

/-- A choice is written as its name, or as a table with that one name, which has
nothing in it. -/
def choice (ofName? : String → Option α) : Toml → Option α
  | .str s => ofName? s
  | v =>
    match v.fields? with
    | some [(name, v)] => if v.isEmpty then ofName? name else none
    | _ => none

/-- The largest size. -/
def largest : Nat := UInt64.size - 1

/-- The settings in a document. -/
def ofFields? (fields : Toml.Fields) : Option Settings := do
  let d : Settings := {}
  let mode ← field fields "jit_mode" (choice CompileMode.ofName?) d.mode
  let form ← field fields "jit_emitter" (choice CodeForm.ofName?) d.form
  let simplify ← field fields "jit_optimize" flag d.simplify
  let threshold ← field fields "jit_threshold" (count (UInt32.size - 1)) d.threshold
  let workers ← field fields "jit_workers" (count largest) d.workers
  let collecting ← field fields "gc_enabled" flag d.collecting
  let collectAfter ← field fields "gc_threshold" (count largest) d.collectAfter
  let reportCollections ← field fields "gc_stats" flag d.reportCollections
  let globals ← field fields "globals_capacity" (count largest) d.globals
  let maxGlobals ← field fields "max_globals" (count largest) d.maxGlobals
  let maxAlloc ← field fields "max_alloc_len" (count largest) d.maxAlloc
  let entryLocals ← field fields "entry_locals" (count largest) d.entryLocals
  return { mode, form, simplify, threshold, workers, collecting, collectAfter, reportCollections,
           globals, maxGlobals, maxAlloc, entryLocals }

/-- Refuse settings that something is wrong with. -/
def validate (s : Settings) : Except Problem Unit :=
  match s.problem? with
  | some p => .error p
  | none => .ok ()

/-- The settings in a text. -/
def ofText (text : String) : Except LoadError Settings :=
  match (Toml.parse? text).bind ofFields? with
  | none => .error .malformed
  | some s =>
    match s.validate with
    | .error p => .error (.invalid p)
    | .ok () => .ok s

/-- The settings in a file, given what is in it if there is one. -/
def ofFile (contents : Option Bytes) : Except LoadError Settings :=
  match contents.bind Bytes.text? with
  | none => .error .unreadable
  | some text => ofText text

end Settings

end StackMachine
