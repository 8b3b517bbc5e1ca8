/-
# Program files

The name of a file decides the form of the program in it: a name that ends in
`.json`, with something before the point, holds the JSON form, every other name
the binary form. The directories before the name do not matter, nor do slashes and
single points after it (`fileName_append`).
-/
import StackMachine.Bytes
import StackMachine.Stored.Binary
import StackMachine.Stored.Json

namespace StackMachine.Stored

/-- What follows the last point of a file name. A name with no point, or with
nothing before its only point, has no extension; nor has the name `..`. -/
def extension? (name : List Char) : Option (List Char) :=
  if name = ['.', '.'] then none
  else
    let ext := (name.reverse.takeWhile (· != '.')).reverse
    if ext.length + 1 < name.length then some ext else none

/-- What stands before, between and after the slashes of a path. -/
def components : List Char → List (List Char)
  | [] => [[]]
  | c :: cs =>
    if c = '/' then [] :: components cs
    else (c :: (components cs).headD []) :: (components cs).tail

/-- The components that lead somewhere: an empty one and a single point do not. -/
def names (path : List Char) : List (List Char) :=
  (components path).filter fun name => name ≠ [] ∧ name ≠ ['.']

/-- The last name in a path, if there is one. -/
def fileName (path : List Char) : List Char := (names path).getLastD []

theorem components_ne_nil (path : List Char) : components path ≠ [] := by
  cases path with
  | nil => simp [components]
  | cons c cs =>
    rw [components]
    split <;> simp

theorem components_append (dir rest : List Char) :
    components (dir ++ '/' :: rest) = components dir ++ components rest := by
  induction dir with
  | nil => rfl
  | cons c cs ih =>
    obtain ⟨name, more, hcs⟩ := List.exists_cons_of_ne_nil (components_ne_nil cs)
    by_cases hc : c = '/'
    · simp [components, hc, ih]
    · simp [components, hc, ih, hcs]

/-- **The name is the last one.** What comes after a slash decides, unless there is no
name in it. -/
theorem fileName_append (dir rest : List Char) :
    fileName (dir ++ '/' :: rest) = if fileName rest = [] then fileName dir else fileName rest := by
  have hnames : names (dir ++ '/' :: rest) = names dir ++ names rest := by
    simp [names, components_append]
  rcases List.eq_nil_or_concat (names rest) with hrest | ⟨front, name, hrest⟩
  · simp [fileName, hnames, hrest]
  · have hmem : name ∈ names rest := by simp [hrest]
    have hne : name ≠ [] := (of_decide_eq_true (List.mem_filter.mp hmem).2).1
    have hname : fileName rest = name := by simp [fileName, hrest]
    rw [hname, if_neg hne, fileName, hnames, hrest]
    simp

example : fileName "a/b.json//./".toList = "b.json".toList := by decide

/-- Whether a file of this name holds the JSON form. -/
def isJsonFile (path : String) : Bool :=
  extension? (fileName path.toList) = some ['j', 's', 'o', 'n']

/-- The contents of a file of this name that holds a program. -/
def fileContents (path : String) (p : Program) : Except Error Bytes :=
  if isJsonFile path then .ok (Bytes.ofText (toText p)) else encode p

/-- The program in a file with this name and these contents; `none` stands for a
file that does not exist. -/
def ofFile (path : String) : Option Bytes → Except Error Program
  | none => .error .noFile
  | some bs =>
    if isJsonFile path then
      match Bytes.text? bs with
      | some s => ofText s
      | none => .error .badText
    else decode bs

end StackMachine.Stored
