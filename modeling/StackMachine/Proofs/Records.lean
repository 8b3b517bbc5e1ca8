/-
# Stored programs can be read back

A record is written as an object that names every field once, so each field is
found under its name (`fields?_jsonRecord`); the readers of the fields undo their
writers, and `Json.parse?_pretty` does the rest. A file holds one of the two forms,
and its name decides which, for writing and reading alike.

`stored_round_trip` has both: the JSON form of every program reads back, and so
does every file that can be written.
-/
import StackMachine.Proofs.Encoding
import StackMachine.Proofs.Spelling
import StackMachine.Stored.File

namespace StackMachine.Stored

/-! ### Records -/

/-- A member of a record, as an object has it. -/
def keyed (m : String × Json) : Option String × Json := (some m.1, m.2)

theorem jsonRecord_eq (members : List (String × Json)) :
    jsonRecord members = .obj (members.map keyed) := rfl

theorem filter_keyed {members : List (String × Json)} {key : String}
    (h : key ∉ members.map Prod.fst) :
    (members.map keyed).filter (fun m => m.1 = some key) = [] := by
  rw [List.filter_eq_nil_iff]
  intro m hm
  obtain ⟨m, hmem, rfl⟩ := List.mem_map.mp hm
  have hne : m.1 ≠ key := fun he => h (List.mem_map.mpr ⟨m, hmem, he⟩)
  simpa [keyed] using hne

/-- A key that comes at most once is looked up. -/
theorem member?_keyed {members : List (String × Json)} (h : (members.map Prod.fst).Nodup)
    (key : String) : member? (members.map keyed) key = some (members.lookup key) := by
  induction members with
  | nil => rfl
  | cons m members ih =>
    obtain ⟨k, j⟩ := m
    obtain ⟨hk, hrest⟩ := List.nodup_cons.mp h
    by_cases heq : k = key
    · subst heq
      have habsent := filter_keyed hk
      simp [member?, keyed, habsent]
    · have hne : (key == k) = false := by simpa using Ne.symm heq
      have htail := ih hrest
      simpa [member?, keyed, heq, List.lookup, hne] using htail

/-- Every field of a record is found under its name. -/
theorem fields?_jsonRecord (names : List String) {members : List (String × Json)}
    (h : (members.map Prod.fst).Nodup) :
    fields? names (jsonRecord members) = some (names.map fun key => members.lookup key) := by
  have hnamed : (members.map keyed).any (fun m => m.1.isNone) = false := by
    simp [keyed]
  have hlookup : member? (members.map keyed) = fun key => some (members.lookup key) :=
    funext (member?_keyed h)
  rw [jsonRecord_eq, fields?, hnamed, hlookup]
  exact List.mapM_pure

/-! ### Fields -/

@[simp] theorem wordOfJson?_jsonOfWord (n : Int64) : wordOfJson? (jsonOfWord n) = some n := by
  have hrange := And.intro n.minValue_le_toInt n.toInt_le
  rw [jsonOfWord, wordOfJson?, Instr.word?, if_pos hrange, Int64.ofInt_toInt]

@[simp] theorem indexOfJson?_jsonOfIndex (n : UInt64) : indexOfJson? (jsonOfIndex n) = some n := by
  have hlt : n.toNat < UInt64.size := n.toNat_lt_size
  show (if n.toNat < UInt64.size then some (UInt64.ofNat n.toNat) else none) = _
  rw [if_pos hlt, UInt64.ofNat_toNat]

@[simp] theorem operandOfJson?_jsonOfWord (n : Int64) :
    operandOfJson? (some (jsonOfWord n)) = some (some n) := by
  show (wordOfJson? (jsonOfWord n)).map some = _
  rw [wordOfJson?_jsonOfWord, Option.map_some]

/-- A list reads back if its items do. -/
theorem listOfJson?_map {α : Type} {write : α → Json} {read : Json → Option α}
    (h : ∀ a, read (write a) = some a) (as : List α) :
    listOfJson? read (.arr (as.map write)) = some as := by
  induction as with
  | nil => rfl
  | cons a as ih =>
    rw [listOfJson?] at ih ⊢
    simp [h a, ih]

theorem instrOfJson?_jsonOfInstr (i : Instr) : instrOfJson? (jsonOfInstr i) = some i := by
  obtain ⟨op, n⟩ := i
  cases n with
  | none =>
    simp only [instrOfJson?, jsonOfInstr]
    rw [fields?_jsonRecord _ (by simp)]
    simp [List.lookup, jsonOfText, opcodeOfJson?, operandOfJson?]
  | some n =>
    simp only [instrOfJson?, jsonOfInstr]
    rw [fields?_jsonRecord _ (by simp)]
    simp [List.lookup, jsonOfText, opcodeOfJson?]

theorem functionOfJson?_jsonOfFunction (f : Function) :
    functionOfJson? (jsonOfFunction f) = some f := by
  simp only [functionOfJson?, jsonOfFunction]
  rw [fields?_jsonRecord _ (by simp)]
  simp [List.lookup, jsonOfText, textOfJson?, boolOfJson?]

theorem ofJson?_toJson (p : Program) : ofJson? (toJson p) = some p := by
  have hcode := listOfJson?_map instrOfJson?_jsonOfInstr p.code
  have hconstants := listOfJson?_map wordOfJson?_jsonOfWord p.constants
  have hfunctions := listOfJson?_map functionOfJson?_jsonOfFunction p.functions
  simp only [ofJson?, toJson]
  rw [fields?_jsonRecord _ (by simp)]
  simp [List.lookup, optionalList?, hcode, hconstants, hfunctions]

/-! ### Text and files -/

theorem ofText_toText (p : Program) : ofText (toText p) = .ok p := by
  simp [ofText, toText, Json.parse?_pretty, ofJson?_toJson]

theorem ofFile_fileContents {path : String} {p : Program} {bs : Bytes}
    (h : fileContents path p = .ok bs) : ofFile path (some bs) = .ok p := by
  by_cases hjson : isJsonFile path = true
  · rw [fileContents, if_pos hjson] at h
    cases h
    simp [ofFile, hjson, ofText_toText]
  · rw [fileContents, if_neg hjson] at h
    have hdecode := decode_append h []
    rw [List.append_nil] at hdecode
    simp [ofFile, hjson, hdecode]

theorem fileContents_ok_iff {path : String} {p : Program} :
    (∃ bs, fileContents path p = .ok bs) ↔ isJsonFile path = true ∨ p.Compact := by
  by_cases hjson : isJsonFile path = true
  · simp [fileContents, hjson]
  · simpa [fileContents, hjson] using Codec.program.writes p

/-- **Stored programs can be read back.** The JSON form of a program reads back to
the program. A program can be written to a file whose name asks for the JSON form,
and to every other file if it is compact; the file then reads back to the program. -/
theorem stored_round_trip (p : Program) :
    ofText (toText p) = .ok p ∧
      ∀ path : String,
        ((∃ bs, fileContents path p = .ok bs) ↔ isJsonFile path = true ∨ p.Compact) ∧
        ∀ bs, fileContents path p = .ok bs → ofFile path (some bs) = .ok p := by
  refine ⟨ofText_toText p, fun path => ⟨fileContents_ok_iff, ?_⟩⟩
  intro bs h
  exact ofFile_fileContents h

/-- A program whose function has a name that needs escapes and a start that has
no room in 32 bits. -/
def unwieldy : Program where
  code := [⟨.pushInt, some Int64.minValue⟩, ⟨.halt, none⟩]
  constants := [Int64.maxValue]
  functions := [⟨"a\"b\\c\n\x01𝄞", 18446744073709551615, 0, 0, true⟩]

/-- It can only be written in the JSON form, and reads back. -/
theorem stored_round_trip_unwieldy :
    (∃ bs, fileContents "out/a.json" unwieldy = .ok bs ∧
      ofFile "out/a.json" (some bs) = .ok unwieldy) ∧
      ¬ ∃ bs, fileContents "out/a.bin" unwieldy = .ok bs := by
  constructor
  · obtain ⟨hwrites, hreads⟩ := (stored_round_trip unwieldy).2 "out/a.json"
    obtain ⟨bs, h⟩ := hwrites.mpr (Or.inl (by decide))
    exact ⟨bs, h, hreads bs h⟩
  · rw [((stored_round_trip unwieldy).2 "out/a.bin").1]
    decide

end StackMachine.Stored
