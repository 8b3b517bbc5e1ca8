/-
# A JSON value can be read back from its text

The text of a value is cut into tokens, and the tokens are put together again.
The two halves meet at `Json.tokens`, the tokens of a value.

* Cutting. A number ends only at the character after it, so what a text spells
  depends on what follows. A text is `Closed` if its last token is complete with
  its last character, and it `Spells` tokens if the character that follows, or the
  end, completes the last of them. `Spells.closed` puts the two together: every
  value in a container is followed by a character that ends a number.
* Putting together. What a value adds to the containers that are open
  (`build_tokens`) does not depend on them.

`parse?_pretty` then holds for every value, at every depth.
-/
import Mathlib.Data.List.Basic
import Mathlib.Data.List.TakeWhile
import StackMachine.Json.Basic

namespace StackMachine.Json

/-! ### The tokens of a value -/

mutual

/-- The tokens of a value. -/
def tokens : Json → List Token
  | .null => [.null]
  | .bool b => [.bool b]
  | .int n => [.int n]
  | .real => [.real]
  | .str s => [.str s]
  | .arr [] => [.openArray, .closeArray]
  | .arr (j :: js) => .openArray :: tokens j ++ tokensItems js
  | .obj [] => [.openObject, .closeObject]
  | .obj ((k, j) :: ms) => .openObject :: .str k :: .colon :: tokens j ++ tokensMembers ms

/-- The tokens of the items after the first, and of the end of the array. -/
def tokensItems : List Json → List Token
  | [] => [.closeArray]
  | j :: js => .comma :: tokens j ++ tokensItems js

/-- The tokens of the members after the first, and of the end of the object. -/
def tokensMembers : List (Option String × Json) → List Token
  | [] => [.closeObject]
  | (k, j) :: ms => .comma :: .str k :: .colon :: tokens j ++ tokensMembers ms

end

/-! ### What a text spells -/

/-- All tokens of the text so far are `ts`, newest first, once the text ends or a
character comes that ends an atom. -/
inductive Scan.Settled : Scan → List Token → Prop
  | between {ts : List Token} : Settled ⟨.between, ts⟩ ts
  | atom {cs : List Char} {t : Token} {ts : List Token} (spelled : ofAtom? cs.reverse = some t) :
      Settled ⟨.atom cs, ts⟩ (t :: ts)

namespace Scan.Settled

variable {s : Scan} {ts : List Token}

theorem step {c : Char} (h : Settled s ts) (hc : endsAtom c = true) :
    s.step c = Scan.step ⟨.between, ts⟩ c := by
  cases h with
  | between => rfl
  | atom spelled => simp [Scan.step, hc, spelled]

theorem finish (h : Settled s ts) : s.finish? = some ts.reverse := by
  cases h with
  | between => rfl
  | atom spelled => simp [Scan.finish?, spelled]

end Scan.Settled

/-- The text spells the tokens, and the last of them is complete. -/
def Closed (cs : List Char) (ts : List Token) : Prop :=
  ∀ found, cs.foldlM Scan.step ⟨.between, found⟩ = some ⟨.between, ts.reverse ++ found⟩

/-- The text spells the tokens, if the text ends here or a character follows that
ends an atom. -/
def Spells (cs : List Char) (ts : List Token) : Prop :=
  ∀ found, ∃ s, cs.foldlM Scan.step ⟨.between, found⟩ = some s ∧ s.Settled (ts.reverse ++ found)

/-- The text starts with a character that ends an atom. -/
def EndsAtom (cs : List Char) : Prop := ∃ c ds, cs = c :: ds ∧ Scan.endsAtom c = true

section

variable {c : Char} {cs ds : List Char} {t : Token} {ts us : List Token}

theorem Closed.spells (h : Closed cs ts) : Spells cs ts :=
  fun found => ⟨_, h found, .between⟩

theorem Closed.append (h : Closed cs ts) (h' : Closed ds us) : Closed (cs ++ ds) (ts ++ us) := by
  intro found
  simp [List.foldlM_append, h found, h' (ts.reverse ++ found)]

/-- A value with what closes it. -/
theorem Spells.closed (h : Spells cs ts) (hc : EndsAtom ds) (h' : Closed ds us) :
    Closed (cs ++ ds) (ts ++ us) := by
  obtain ⟨c, ds, rfl, hc⟩ := hc
  intro found
  obtain ⟨s, hs, hsettled⟩ := h found
  have hrest := h' (ts.reverse ++ found)
  -- `c` ends what `cs` has left open, so it acts as it does between tokens
  rw [List.foldlM_cons, ← hsettled.step hc] at hrest
  simpa [List.foldlM_append, List.foldlM_cons, hs] using hrest

theorem Spells.scan? (h : Spells cs ts) : scan? cs = some ts := by
  obtain ⟨s, hs, hsettled⟩ := h []
  have hfinish := hsettled.finish
  rw [List.append_nil, List.reverse_reverse] at hfinish
  rw [Json.scan?, hs]
  exact hfinish

/-! ### Blanks and punctuation -/

theorem closed_nil : Closed [] [] := fun _ => rfl

theorem closed_blank (h : isBlank c = true) : Closed [c] [] := by
  intro found
  simp [Scan.step, Scan.fresh, h]

theorem closed_punctuation (h : punctuation? c = some t) : Closed [c] [t] := by
  intro found
  have hmem : c ∈ ['[', ']', '{', '}', ':', ','] := by
    by_contra hc
    simp only [List.mem_cons, List.not_mem_nil, or_false, not_or] at hc
    simp [punctuation?, hc] at h
  have hblank : isBlank c = false ∧ c ≠ '"' := by
    simp only [List.mem_cons, List.not_mem_nil, or_false] at hmem
    rcases hmem with rfl | rfl | rfl | rfl | rfl | rfl <;> exact ⟨rfl, by decide⟩
  simp [Scan.step, Scan.fresh, hblank, h]

theorem closed_blanks (n : Nat) : Closed (List.replicate n ' ') [] := by
  induction n with
  | zero => exact closed_nil
  | succ n ih => exact (closed_blank rfl).append ih

theorem closed_newline (depth : Nat) : Closed (newline depth) [] :=
  (closed_blank rfl).append (closed_blanks (2 * depth))

theorem closed_line (depth : Nat) (h : punctuation? c = some t) : Closed (c :: newline depth) [t] :=
  (closed_punctuation h).append (closed_newline depth)

/-! ### Atoms -/

theorem step_atom {found : List Token} (h : Scan.endsAtom c = false) :
    Scan.step ⟨.between, found⟩ c = some ⟨.atom [c], found⟩ := by
  simp only [Scan.endsAtom, Bool.or_eq_false_iff, decide_eq_false_iff_not, Option.isSome_eq_false_iff,
    Option.isNone_iff_eq_none] at h
  obtain ⟨⟨hb, hq⟩, hp⟩ := h
  simp [Scan.step, Scan.fresh, hb, hq, hp]

theorem foldlM_atom {found : List Token} (h : cs.any Scan.endsAtom = false) :
    cs.foldlM Scan.step ⟨.atom ds, found⟩ = some ⟨.atom (cs.reverse ++ ds), found⟩ := by
  induction cs generalizing ds with
  | nil => rfl
  | cons c cs ih =>
    obtain ⟨hc, hcs⟩ := Bool.or_eq_false_iff.mp h
    simp [List.foldlM_cons, Scan.step, hc, ih hcs]

theorem spells_atom (ht : ofAtom? (c :: cs) = some t) (h : (c :: cs).any Scan.endsAtom = false) :
    Spells (c :: cs) [t] := by
  intro found
  obtain ⟨hc, hcs⟩ := Bool.or_eq_false_iff.mp h
  refine ⟨⟨.atom (cs.reverse ++ [c]), found⟩, ?_, .atom ?_⟩
  · rw [List.foldlM_cons, step_atom hc]
    exact foldlM_atom hcs
  · simpa using ht

/-! ### Numbers -/

theorem ne_of_isDigit {d : Char} (hc : c.isDigit = true) (hd : d.isDigit = false) : c ≠ d := by
  rintro rfl
  exact Bool.false_ne_true (hd.symm.trans hc)

theorem endsAtom_of_isDigit (h : c.isDigit = true) : Scan.endsAtom c = false := by
  have hne {d : Char} (hd : d.isDigit = false) : c ≠ d := ne_of_isDigit h hd
  simp (disch := decide) [Scan.endsAtom, isBlank, punctuation?, hne]

/-- A number above zero starts with another digit than zero. -/
theorem head_toDigits {n : Nat} (h : 0 < n) : (Nat.toDigits 10 n).head? ≠ some '0' := by
  induction n using Nat.strongRecOn with
  | _ n ih =>
    by_cases hlt : n < 10
    · have hdigit : ∀ d < 10, 0 < d → d.digitChar ≠ '0' := by decide
      rw [Nat.toDigits_of_lt_base hlt]
      simpa using hdigit n hlt h
    · have hdiv : 0 < n / 10 := by omega
      have hne : Nat.toDigits 10 (n / 10) ≠ [] := Nat.toDigits_ne_nil
      rw [Nat.toDigits_of_base_le (by decide) (by omega), List.head?_append_of_ne_nil _ hne]
      exact ih (n / 10) (by omega) hdiv

theorem isWhole_of_ne_zero (h : c ≠ '0') : isWhole (c :: cs) = isDigits (c :: cs) := by
  unfold isWhole
  split <;> simp_all

theorem isWhole_toDigits (n : Nat) : isWhole (Nat.toDigits 10 n) = true := by
  rcases Nat.eq_zero_or_pos n with rfl | hpos
  · rfl
  have hhead := head_toDigits hpos
  have hall : (Nat.toDigits 10 n).all Char.isDigit = true :=
    List.all_eq_true.mpr fun _ h => Decimal.isDigit_toDigits h
  cases hds : Nat.toDigits 10 n with
  | nil => exact absurd hds Nat.toDigits_ne_nil
  | cons c cs =>
    rw [hds] at hhead hall
    rw [isWhole_of_ne_zero (by simpa using hhead)]
    simpa [isDigits] using hall

/-- Digits have neither a fraction nor an exponent. -/
theorem ofUnsigned?_toDigits (negative : Bool) (n : Nat) :
    ofUnsigned? negative (Nat.toDigits 10 n) =
      if negative then if n = 0 then some .real else some (.int (-(n : Int)))
      else some (.int n) := by
  have hne {c d : Char} (hc : c ∈ Nat.toDigits 10 n) (hd : d.isDigit = false) : c ≠ d :=
    ne_of_isDigit (Decimal.isDigit_toDigits hc) hd
  have hmantissa : ∀ c ∈ Nat.toDigits 10 n, (!(c = 'e' || c = 'E' : Bool)) = true := by
    intro c hc
    simp [hne hc (d := 'e') (by decide), hne hc (d := 'E') (by decide)]
  have hwhole : ∀ c ∈ Nat.toDigits 10 n, (c != '.') = true := by
    intro c hc
    simp [hne hc (d := '.') (by decide)]
  simp only [ofUnsigned?, List.takeWhile_eq_self_iff.mpr hmantissa,
    List.dropWhile_eq_nil_iff.mpr hmantissa, List.takeWhile_eq_self_iff.mpr hwhole,
    List.dropWhile_eq_nil_iff.mpr hwhole, isWhole_toDigits, Nat.ofDigitChars_ten_toDigits]
  rfl

theorem ofAtom?_minus : ofAtom? ('-' :: cs) = ofUnsigned? true cs := by
  simp [ofAtom?]

theorem ofAtom?_digit (h : c.isDigit = true) : ofAtom? (c :: cs) = ofUnsigned? false (c :: cs) := by
  have hne {d : Char} (hd : d.isDigit = false) : c ≠ d := ne_of_isDigit h hd
  unfold ofAtom?
  simp (disch := decide) only [List.cons.injEq, hne, false_and, if_false]
  split
  · rename_i heq
    exact absurd (List.cons.inj heq).1 (hne (by decide))
  · rfl

theorem any_endsAtom_toDigits (n : Nat) : (Nat.toDigits 10 n).any Scan.endsAtom = false := by
  rw [List.any_eq_false]
  intro c hc
  simp [endsAtom_of_isDigit (Decimal.isDigit_toDigits hc)]

theorem spells_int (n : Int) : Spells (Decimal.chars n) [.int n] := by
  cases n with
  | ofNat k =>
    have hends := any_endsAtom_toDigits k
    have htoken := ofUnsigned?_toDigits false k
    have hdigit {c : Char} (h : c ∈ Nat.toDigits 10 k) := Decimal.isDigit_toDigits h
    rw [Decimal.chars]
    cases hds : Nat.toDigits 10 k with
    | nil => exact absurd hds Nat.toDigits_ne_nil
    | cons c cs =>
      rw [hds] at hends htoken hdigit
      refine spells_atom ?_ hends
      rw [ofAtom?_digit (hdigit (List.mem_cons_self ..)), htoken]
      rfl
  | negSucc k =>
    have hends := any_endsAtom_toDigits (k + 1)
    have htoken := ofUnsigned?_toDigits true (k + 1)
    refine spells_atom ?_ (Bool.or_eq_false_iff.mpr ⟨rfl, hends⟩)
    rw [ofAtom?_minus, htoken]
    rfl

/-! ### Strings -/

/-- The piece stands for the character, whatever follows. -/
def Piece.StandsFor (p : Piece) (c : Char) : Prop :=
  ∀ ps, join? (p :: ps) = (join? ps).map (c :: ·)

theorem Piece.standsFor_char (c : Char) : (Piece.char c).StandsFor c := fun _ => rfl

theorem Piece.standsFor_control (h : c.toNat < 32) : (Piece.unit c.toNat).StandsFor c := by
  intro ps
  have hlow : isLow c.toNat = false := by simp [isLow]; omega
  have hhigh : isHigh c.toNat = false := by simp [isHigh]; omega
  rw [join?.eq_def]
  simp [hlow, hhigh]

theorem hexNat?_control :
    ∀ n < 32, hexNat? ['0', '0', hexDigit (n / 16), hexDigit (n % 16)] = some n := by
  decide

/-- A character as it is written between quotes is read as one piece. -/
theorem foldlM_escape (c : Char) (ps : List Piece) (found : List Token) :
    ∃ p : Piece, p.StandsFor c ∧
      (escape c).foldlM Scan.step ⟨.text ps, found⟩ = some ⟨.text (p :: ps), found⟩ := by
  -- seven characters have a letter of their own, other control characters a unit
  by_cases hshort : c ∈ ['"', '\\', '\x08', '\t', '\n', '\x0c', '\r']
  · refine ⟨.char c, Piece.standsFor_char c, ?_⟩
    simp only [List.mem_cons, List.not_mem_nil, or_false] at hshort
    rcases hshort with rfl | rfl | rfl | rfl | rfl | rfl | rfl <;> rfl
  simp only [List.mem_cons, List.not_mem_nil, or_false, not_or] at hshort
  obtain ⟨h1, h2, h3, h4, h5, h6, h7⟩ := hshort
  by_cases hcontrol : c.toNat < 32
  · refine ⟨.unit c.toNat, Piece.standsFor_control hcontrol, ?_⟩
    have hhex := hexNat?_control c.toNat hcontrol
    simp [escape, h1, h2, h3, h4, h5, h6, h7, hcontrol, List.foldlM_cons, Scan.step, hhex]
  · refine ⟨.char c, Piece.standsFor_char c, ?_⟩
    simp [escape, h1, h2, h3, h4, h5, h6, h7, hcontrol, Scan.step]

theorem foldlM_flatMap_escape (cs : List Char) (ps : List Piece) (found : List Token) :
    ∃ qs : List Piece, join? qs = some cs ∧
      (cs.flatMap escape).foldlM Scan.step ⟨.text ps, found⟩ =
        some ⟨.text (qs.reverse ++ ps), found⟩ := by
  induction cs generalizing ps with
  | nil => exact ⟨[], rfl, rfl⟩
  | cons c cs ih =>
    obtain ⟨p, hp, hfirst⟩ := foldlM_escape c ps found
    obtain ⟨qs, hqs, hrest⟩ := ih (p :: ps)
    refine ⟨p :: qs, ?_, ?_⟩
    · rw [hp qs, hqs]
      rfl
    · simp [List.foldlM_append, hfirst, hrest]

theorem closed_quoted (s : Option String) : Closed (quoted s) [.str s] := by
  intro found
  cases s with
  | none => rfl
  | some s =>
    obtain ⟨qs, hqs, hfold⟩ := foldlM_flatMap_escape s.toList [] found
    have hopen : Scan.step ⟨.between, found⟩ '"' = some ⟨.text [], found⟩ := rfl
    have hclose : Scan.step ⟨.text qs.reverse, found⟩ '"' =
        some ⟨.between, .str (some s) :: found⟩ := by
      simp [Scan.step, hqs]
    rw [List.append_nil] at hfold
    simp [quoted, hopen, hfold, hclose]

end

/-! ### Values -/

section

variable {c : Char} {t : Token} {depth : Nat} {j : Json} {js : List Json} {k : Option String}
  {ms : List (Option String × Json)}

theorem endsAtom_prettyItems (depth : Nat) (js : List Json) : EndsAtom (prettyItems depth js) := by
  cases js with
  | nil => exact ⟨'\n', _, rfl, rfl⟩
  | cons j js => exact ⟨',', _, rfl, rfl⟩

theorem endsAtom_prettyMembers (depth : Nat) (ms : List (Option String × Json)) :
    EndsAtom (prettyMembers depth ms) := by
  cases ms with
  | nil => exact ⟨'\n', _, rfl, rfl⟩
  | cons m ms => exact ⟨',', _, rfl, rfl⟩

/-- An item on a line of its own, and what comes after it. -/
theorem closed_item (h : punctuation? c = some t) (hj : Spells (pretty (depth + 1) j) (tokens j))
    (hjs : Closed (prettyItems depth js) (tokensItems js)) :
    Closed (c :: newline (depth + 1) ++ pretty (depth + 1) j ++ prettyItems depth js)
      (t :: tokens j ++ tokensItems js) := by
  have hrest := hj.closed (endsAtom_prettyItems depth js) hjs
  simpa using (closed_line (depth + 1) h).append hrest

/-- A member on a line of its own, and what comes after it. -/
theorem closed_member (h : punctuation? c = some t) (hj : Spells (pretty (depth + 1) j) (tokens j))
    (hms : Closed (prettyMembers depth ms) (tokensMembers ms)) :
    Closed (c :: newline (depth + 1) ++ quoted k ++ [':', ' '] ++ pretty (depth + 1) j
      ++ prettyMembers depth ms) (t :: .str k :: .colon :: tokens j ++ tokensMembers ms) := by
  have hcolon : Closed [':', ' '] [.colon] := (closed_punctuation rfl).append (closed_blank rfl)
  have hkey := (closed_line (depth + 1) h).append ((closed_quoted k).append hcolon)
  have hrest := hj.closed (endsAtom_prettyMembers depth ms) hms
  simpa using hkey.append hrest

end

mutual

/-- The text of a value spells its tokens, at every depth. -/
theorem spells_pretty (depth : Nat) : ∀ j : Json, Spells (pretty depth j) (tokens j)
  | .null => spells_atom rfl rfl
  | .bool true => spells_atom rfl rfl
  | .bool false => spells_atom rfl rfl
  | .int n => spells_int n
  | .real => spells_atom rfl rfl
  | .str s => (closed_quoted s).spells
  | .arr [] => ((closed_punctuation rfl).append (closed_punctuation rfl)).spells
  | .arr (j :: js) =>
    (closed_item rfl (spells_pretty (depth + 1) j) (closed_prettyItems depth js)).spells
  | .obj [] => ((closed_punctuation rfl).append (closed_punctuation rfl)).spells
  | .obj ((_, j) :: ms) =>
    (closed_member rfl (spells_pretty (depth + 1) j) (closed_prettyMembers depth ms)).spells

theorem closed_prettyItems (depth : Nat) : ∀ js : List Json,
    Closed (prettyItems depth js) (tokensItems js)
  | [] => (closed_newline depth).append (closed_punctuation rfl)
  | j :: js => closed_item rfl (spells_pretty (depth + 1) j) (closed_prettyItems depth js)

theorem closed_prettyMembers (depth : Nat) : ∀ ms : List (Option String × Json),
    Closed (prettyMembers depth ms) (tokensMembers ms)
  | [] => (closed_newline depth).append (closed_punctuation rfl)
  | (_, j) :: ms => closed_member rfl (spells_pretty (depth + 1) j) (closed_prettyMembers depth ms)

end

/-! ### Putting tokens together -/

/-- A value may start an array: none starts with the end of one. -/
theorem build_first (j : Json) (fs : List Frame) :
    (tokens j).foldlM Build.step (.itemOrEnd fs) =
      (tokens j).foldlM Build.step (.value (.array [] :: fs)) := by
  cases j with
  | arr items => cases items <;> rfl
  | obj members => cases members <;> rfl
  | _ => rfl

mutual

theorem build_tokens (fs : List Frame) : ∀ j : Json,
    (tokens j).foldlM Build.step (.value fs) = some (.after j fs)
  | .null => rfl
  | .bool b => rfl
  | .int n => rfl
  | .real => rfl
  | .str s => rfl
  | .arr [] => rfl
  | .arr (j :: js) => by
    have hopen : Build.step (.value fs) .openArray = some (.itemOrEnd fs) := rfl
    -- the array may still end here, but the first token of `j` says it does not
    have hfirst := build_tokens (.array [] :: fs) j
    rw [← build_first] at hfirst
    simp [tokens, hopen, hfirst, build_tokensItems fs [] j js]
  | .obj [] => rfl
  | .obj ((k, j) :: ms) => by
    have hopen : Build.step (.value fs) .openObject = some (.keyOrEnd fs) := rfl
    have hkey : Build.step (.keyOrEnd fs) (.str k) = some (.colon [] k fs) := rfl
    have hcolon : Build.step (.colon [] k fs) .colon = some (.value (.object [] k :: fs)) := rfl
    simp [tokens, hopen, hkey, hcolon, build_tokens (.object [] k :: fs) j,
      build_tokensMembers fs [] k j ms]

/-- The rest of an array whose items so far are `done`, newest first, and `j`. -/
theorem build_tokensItems (fs : List Frame) (done : List Json) (j : Json) : ∀ js : List Json,
    (tokensItems js).foldlM Build.step (.after j (.array done :: fs)) =
      some (.after (.arr (done.reverse ++ j :: js)) fs)
  | [] => by simp [tokensItems, Build.step]
  | j' :: js => by
    have hcomma : Build.step (.after j (.array done :: fs)) .comma =
      some (.value (.array (j :: done) :: fs)) := rfl
    simp [tokensItems, hcomma, build_tokens (.array (j :: done) :: fs) j',
      build_tokensItems fs (j :: done) j' js]

/-- The rest of an object whose members so far are `done`, newest first, and `j`
with the key `k`. -/
theorem build_tokensMembers (fs : List Frame) (done : List (Option String × Json))
    (k : Option String) (j : Json) : ∀ ms : List (Option String × Json),
    (tokensMembers ms).foldlM Build.step (.after j (.object done k :: fs)) =
      some (.after (.obj (done.reverse ++ (k, j) :: ms)) fs)
  | [] => by simp [tokensMembers, Build.step]
  | (k', j') :: ms => by
    have hcomma : Build.step (.after j (.object done k :: fs)) .comma =
      some (.key ((k, j) :: done) fs) := rfl
    have hkey : Build.step (.key ((k, j) :: done) fs) (.str k') =
      some (.colon ((k, j) :: done) k' fs) := rfl
    have hcolon : Build.step (.colon ((k, j) :: done) k' fs) .colon =
      some (.value (.object ((k, j) :: done) k' :: fs)) := rfl
    simp [tokensMembers, hcomma, hkey, hcolon, build_tokens (.object ((k, j) :: done) k' :: fs) j',
      build_tokensMembers fs ((k, j) :: done) k' j' ms]

end

theorem ofTokens?_tokens (j : Json) : ofTokens? (tokens j) = some j := by
  simp [ofTokens?, build_tokens, Build.finish?]

/-- **A value can be read back from its text**, at whatever depth it was written. -/
theorem parse?_pretty (depth : Nat) (j : Json) : parse? (pretty depth j) = some j := by
  rw [parse?, (spells_pretty depth j).scan?]
  exact ofTokens?_tokens j

end StackMachine.Json
