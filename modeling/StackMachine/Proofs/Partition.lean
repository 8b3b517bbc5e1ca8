/-
# Bodies share out the stream

A function says only where its body starts. Where it ends is found from all the
others, so that bodies fit together whatever the table looks like: starts may be
unsorted, repeated, at the end of the stream or past it.

* `Program.Covers`: an instruction of the stream is in the body of a function;
* `Program.covers_iff`: it is if and only if no function starts closer to it, which
  needs no ends and no bodies;
* `Program.bodies_partition`: which functions have a body, which have the same one,
  and which instructions are in it.
-/
import Mathlib
import StackMachine.Proofs.Bodies

namespace StackMachine.Program

variable {p : Program} {i ip start : Nat} {f : Function}

/-- The instruction at `ip` is in the body of function `i`. -/
def Covers (p : Program) (i ip : Nat) : Prop :=
  ∃ f body, p.functions[i]? = some f ∧ p.body? i = some body ∧
    f.entry ≤ ip ∧ ip < f.entry + body.length

/-- A body that starts inside the stream or at its end does not end before its
start. -/
theorem le_bodyEnd (h : start ≤ p.size) : start ≤ p.bodyEnd start := by
  rw [bodyEnd, le_min_iff, and_iff_left h]
  cases hn : p.nextStart? start with
  | none => exact h
  | some next => exact (nextStart?_eq_some hn).2.1.le

theorem body?_of_le (hf : p.functions[i]? = some f) (h : f.entry ≤ p.size) :
    p.body? i = some ((p.code.drop f.entry).take (p.bodyEnd f.entry - f.entry)) := by
  simp [body?, hf, le_bodyEnd h]

theorem body?_eq_none_iff (hf : p.functions[i]? = some f) : p.body? i = none ↔ p.size < f.entry := by
  constructor
  · intro hnone
    by_contra hle
    rw [body?_of_le hf (not_lt.mp hle)] at hnone
    cases hnone
  · intro hlt
    have hend := p.bodyEnd_le_size f.entry
    simp [body?, hf, show ¬ f.entry ≤ p.bodyEnd f.entry by omega]

/-- **The instructions of a body.** An instruction is in the body of the functions
that start closest before it. -/
theorem covers_iff :
    p.Covers i ip ↔ ip < p.size ∧ ∃ f, p.functions[i]? = some f ∧ f.entry ≤ ip ∧
      ∀ g ∈ p.functions, g.entry ≤ ip → g.entry ≤ f.entry := by
  constructor
  · rintro ⟨f, body, hf, hb, hle, hlt⟩
    rw [entry_add_length_body hf hb, lt_bodyEnd_iff] at hlt
    exact ⟨hlt.1, f, hf, hle, fun g hg hg' => not_lt.mp fun h => (hlt.2 g hg h).not_ge hg'⟩
  · rintro ⟨hsize, f, hf, hle, hclosest⟩
    have hb := body?_of_le hf (hle.trans hsize.le)
    refine ⟨f, _, hf, hb, hle, ?_⟩
    rw [entry_add_length_body hf hb, lt_bodyEnd_iff]
    exact ⟨hsize, fun g hg hlt => not_le.mp fun h => hlt.not_ge (hclosest g hg h)⟩

/-- Where a function starts at or before an instruction, one starts closest to it. -/
theorem exists_covers (hsize : ip < p.size) (h : ∃ f ∈ p.functions, f.entry ≤ ip) :
    ∃ i, p.Covers i ip := by
  obtain ⟨f, hf, hle⟩ := h
  let before := p.functions.toFinset.filter fun g => g.entry ≤ ip
  have hmem : ∀ g, g ∈ before ↔ g ∈ p.functions ∧ g.entry ≤ ip := fun g => by simp [before]
  obtain ⟨g, hg, hgreatest⟩ := before.exists_max_image Function.entry ⟨f, (hmem f).mpr ⟨hf, hle⟩⟩
  obtain ⟨hg, hgle⟩ := (hmem g).mp hg
  obtain ⟨i, hi⟩ := List.mem_iff_getElem?.mp hg
  exact ⟨i, covers_iff.mpr ⟨hsize, g, hi, hgle, fun x hx hxle => hgreatest x ((hmem x).mpr ⟨hx, hxle⟩)⟩⟩

/-- **Bodies share out the stream.** Whatever the starts are, a function has no body
exactly if it is not in the table or starts past the end of the stream, and a body
is the stretch of the stream from the start of its function to the end found for it.
Functions with one start have one body, bodies of functions with different starts
have no instruction in common, and every instruction at or after some start is in the
bodies of exactly the functions with the greatest start not above it, of which there
is one. -/
theorem bodies_partition (p : Program) :
    (∀ i, p.body? i = none ↔ p.functions[i]? = none ∨ ∃ f, p.functions[i]? = some f ∧ p.size < f.entry) ∧
    (∀ i f body, p.functions[i]? = some f → p.body? i = some body →
      p.functionEnd? i = some (f.entry + body.length) ∧
      ∀ k < body.length, body[k]? = p.code[f.entry + k]?) ∧
    (∀ i j f g, p.functions[i]? = some f → p.functions[j]? = some g → f.entry = g.entry →
      p.body? i = p.body? j) ∧
    (∀ i j f g, p.functions[i]? = some f → p.functions[j]? = some g → f.entry ≠ g.entry →
      ∀ ip, ¬ (p.Covers i ip ∧ p.Covers j ip)) ∧
    ∀ ip < p.size, (∃ f ∈ p.functions, f.entry ≤ ip) →
      (∃ i, p.Covers i ip) ∧
      ∀ i, p.Covers i ip ↔ ∃ f, p.functions[i]? = some f ∧ f.entry ≤ ip ∧
        ∀ g ∈ p.functions, g.entry ≤ ip → g.entry ≤ f.entry := by
  refine ⟨fun i => ?_, fun i f body hf hb => ⟨?_, fun k => getElem?_body hf hb⟩, ?_, ?_,
    fun ip hsize h => ⟨exists_covers hsize h, fun i => ?_⟩⟩
  · cases hf : p.functions[i]? with
    | none => simp [body?, hf]
    | some f => simp [body?_eq_none_iff hf]
  · rw [functionEnd?, hf, Option.map_some, entry_add_length_body hf hb]
  · intro i j f g hf hg heq
    simp only [body?, hf, hg, heq]
  · rintro i j f g hf hg hne ip ⟨hi, hj⟩
    -- Each of the two starts is the closest, so neither is above the other.
    obtain ⟨-, f', hf', hfle, hfmax⟩ := covers_iff.mp hi
    obtain ⟨-, g', hg', hgle, hgmax⟩ := covers_iff.mp hj
    obtain rfl : f = f' := Option.some.inj (hf.symm.trans hf')
    obtain rfl : g = g' := Option.some.inj (hg.symm.trans hg')
    have h1 := hfmax g (List.mem_of_getElem? hg) hgle
    have h2 := hgmax f (List.mem_of_getElem? hf) hfle
    exact hne (h2.antisymm h1)
  · rw [covers_iff, and_iff_right hsize]

/-- A table out of order: one start is repeated, one is at the end of the stream and
one past it. Nothing starts at the first instruction. -/
def scattered : Program where
  code := [⟨.halt, none⟩, ⟨.pushInt, some 1⟩, ⟨.ret, none⟩, ⟨.pushInt, some 2⟩, ⟨.ret, none⟩]
  functions := [⟨"a", 3, 0, 0, true⟩, ⟨"b", 1, 0, 0, true⟩, ⟨"c", 3, 0, 0, true⟩,
    ⟨"d", 5, 0, 0, false⟩, ⟨"e", 9, 0, 0, false⟩]

/-- The first and the third function share a body, the fourth has an empty one and the
fifth none. -/
theorem bodies_partition_scattered :
    scattered.body? 4 = none ∧ scattered.body? 3 = some [] ∧ scattered.functionEnd? 3 = some 5 ∧
      scattered.body? 0 = scattered.body? 2 ∧
      (∀ ip, ¬ (scattered.Covers 0 ip ∧ scattered.Covers 1 ip)) ∧
      scattered.Covers 0 4 ∧ scattered.Covers 2 4 ∧ ¬ scattered.Covers 1 4 ∧ ¬ scattered.Covers 3 4 := by
  obtain ⟨hnone, hstretch, hsame, hapart, hcovers⟩ := bodies_partition scattered
  obtain ⟨-, hlast⟩ := hcovers 4 (by decide) ⟨_, List.mem_of_getElem? (i := 1) rfl, by decide⟩
  refine ⟨(hnone 4).mpr (Or.inr ⟨_, rfl, by decide⟩), rfl, (hstretch 3 _ [] rfl rfl).1,
    hsame 0 2 _ _ rfl rfl rfl, hapart 0 1 _ _ rfl rfl (by decide), ?_, ?_, ?_, ?_⟩
  · exact (hlast 0).mpr ⟨_, rfl, by decide, by decide⟩
  · exact (hlast 2).mpr ⟨_, rfl, by decide, by decide⟩
  · rw [hlast]
    simp [scattered, Function.entry]
  · rw [hlast]
    simp [scattered, Function.entry]

end StackMachine.Program
