/-
# Bodies in their stream

The body of a function, with its jumps made relative, is a stretch of the
stream: the instruction at `pc` stands for the one at `start + pc`, and is the
same but for jumps (`Instr.based`), which land on the same instruction
(`Machine.jumpTarget_based`).

* `Program.lt_bodyEnd_iff`: where a body ends;
* `Program.localBody_ok`: a body that could be taken out, and its stretch;
* `Program.Verified`: a function whose body passes the check of heights, as
  `Program.signature` finds it;
* `Program.Verified.fetch`: what is on record is inside the stretch.
-/
import Mathlib
import StackMachine.Compiled.Source
import StackMachine.Machine.Control
import StackMachine.Proofs.Survey

namespace StackMachine

/-- The places of the stream are operands: no list that fits in memory is
longer. -/
def Program.Fits (p : Program) : Prop := p.size < 2 ^ 63

instance (p : Program) : Decidable p.Fits := inferInstanceAs (Decidable (p.size < 2 ^ 63))

namespace Instr

theorem place?_eq_some_iff {n : Int64} {t : Nat} : place? n = some t ↔ n.toInt = t := by
  unfold place?
  split_ifs with h
  · rw [Option.some.injEq]
    omega
  · simp only [false_iff]
    omega

/-- The instruction of the stream that an instruction of a body at `start`
stands for: its jumps count from the start of the stream. -/
def based (start : Nat) (i : Instr) : Instr :=
  if i.op.isJump then ⟨i.op, i.operand.map (· + Int64.ofNat start)⟩ else i

@[simp] theorem op_based (start : Nat) (i : Instr) : (i.based start).op = i.op := by
  unfold based
  split_ifs <;> rfl

theorem based_of_not_jump {start : Nat} {i : Instr} (h : i.op.isJump = false) :
    i.based start = i := by
  simp [based, h]

theorem based_of_data {start : Nat} {i : Instr} (h : i.op.movesData = true) :
    i.based start = i :=
  based_of_not_jump (Opcode.isJump_of_movesData h)

end Instr

/-! ### Relative jumps -/

/-- A jump from a body lands where it landed in the stream. -/
theorem Machine.jumpTarget_based {p : Program} {start t : Nat} {x : Instr} {n : Int64}
    (hp : p.Fits) (hj : x.op.isJump = true) (hn : x.operand = some n) (ht : Instr.place? n = some t)
    (hle : start + t ≤ p.size) : jumpTarget p (x.based start) = .ok (start + t) := by
  have hp' : p.size < 2 ^ 63 := hp
  have hsum : (n + Int64.ofNat start).toInt = ((start + t : Nat) : Int) := by
    rw [Int64.toInt_add, Int64.toInt_ofNat_of_lt (by omega), Instr.place?_eq_some_iff.mp ht,
      Int.bmod_eq_of_le (by omega) (by omega)]
    omega
  have hplace : Instr.place? (n + Int64.ofNat start) = some (start + t) :=
    Instr.place?_eq_some_iff.mpr hsum
  have harg : (x.based start).arg = .ok (n + Int64.ofNat start) := by
    simp [Instr.arg, Instr.based, hj, hn]
  simp [jumpTarget, Instr.target, harg, hplace, hle, bind, Except.bind, pure, Except.pure]

namespace Program

variable {p : Program} {func start size pc : Nat}

/-- What a relocated instruction is. -/
theorem relocate_ok {i x : Instr} (h : relocate func start size pc i = .ok x) :
    i = x.based start ∧ (x.op.isJump = true →
      ∃ n t, x.operand = some n ∧ Instr.place? n = some t ∧ t ≤ size) := by
  unfold relocate at h
  by_cases hj : i.op.isJump
  · simp only [hj, Bool.not_true, Bool.false_eq_true, ↓reduceIte] at h
    cases ho : i.operand with
    | none => rw [ho] at h; cases h
    | some target =>
      rw [ho] at h
      simp only at h
      split_ifs at h with hin
      cases h
      refine ⟨?_, fun _ => ⟨_, (target - Int64.ofNat start).toInt.toNat, rfl, ?_, ?_⟩⟩
      · simp only [Instr.based, hj, ↓reduceIte, Option.map_some, Int64.sub_add_cancel]
        rw [← ho]
      · exact Instr.place?_eq_some_iff.mpr (by omega)
      · omega
  · have hj' : i.op.isJump = false := by simpa using hj
    simp only [hj', Bool.not_false, ↓reduceIte] at h
    cases h
    exact ⟨(Instr.based_of_not_jump hj').symm, fun hx => by rw [hj'] at hx; cases hx⟩

theorem relocateFrom_ok {is code : Code} (h : relocateFrom func start size pc is = .ok code) :
    code.length = is.length ∧ ∀ (k : Nat) (x : Instr), code[k]? = some x → is[k]? = some (x.based start) ∧
      (x.op.isJump = true → ∃ n t, x.operand = some n ∧ Instr.place? n = some t ∧ t ≤ size) := by
  induction is generalizing pc code with
  | nil =>
    cases h
    exact ⟨rfl, fun k x hx => by simp at hx⟩
  | cons i is ih =>
    unfold relocateFrom at h
    cases hr : relocate func start size pc i with
    | error e => rw [hr] at h; cases h
    | ok x =>
      rw [hr] at h
      simp only [bind, Except.bind, pure, Except.pure] at h
      cases hrs : relocateFrom func start size (pc + 1) is with
      | error e => rw [hrs] at h; cases h
      | ok xs =>
        rw [hrs] at h
        cases h
        obtain ⟨hlen, hxs⟩ := ih hrs
        obtain ⟨hi, hx⟩ := relocate_ok hr
        refine ⟨by simp [hlen], fun k y hy => ?_⟩
        cases k with
        | zero =>
          simp only [List.getElem?_cons_zero, Option.some.injEq] at hy ⊢
          rw [← hy]
          exact ⟨hi, hx⟩
        | succ k => simpa using hxs k y (by simpa using hy)

theorem body?_eq_some {i : Nat} {f : Function} {body : Code} (hf : p.functions[i]? = some f)
    (h : p.body? i = some body) :
    f.entry ≤ p.bodyEnd f.entry ∧
      body = (p.code.drop f.entry).take (p.bodyEnd f.entry - f.entry) := by
  simp only [body?, hf] at h
  split_ifs at h with hle
  exact ⟨hle, (Option.some.inj h).symm⟩

theorem bodyEnd_le_size (start : Nat) : p.bodyEnd start ≤ p.size := Nat.min_le_right ..

theorem nextStart?_eq_none (h : p.nextStart? start = none) :
    ∀ g ∈ p.functions, g.entry ≤ start := by
  intro g hg
  have hnil := List.filter_eq_nil_iff.mp (List.min?_eq_none_iff.mp h) _ (List.mem_map_of_mem hg)
  simpa using hnil

/-- The next start is the least above. -/
theorem nextStart?_eq_some {next : Nat} (h : p.nextStart? start = some next) :
    (∃ g ∈ p.functions, g.entry = next) ∧ start < next ∧
      ∀ g ∈ p.functions, start < g.entry → next ≤ g.entry := by
  obtain ⟨hmem, hleast⟩ := List.min?_eq_some_iff.mp h
  obtain ⟨hentry, hlt⟩ := List.mem_filter.mp hmem
  refine ⟨List.mem_map.mp hentry, by simpa using hlt, fun g hg hg' => ?_⟩
  exact hleast _ (List.mem_filter.mpr ⟨List.mem_map_of_mem hg, by simpa using hg'⟩)

/-- What is before the end of a body: the stream goes on to it, and no function
starts on the way. -/
theorem lt_bodyEnd_iff {ip : Nat} :
    ip < p.bodyEnd start ↔ ip < p.size ∧ ∀ g ∈ p.functions, start < g.entry → ip < g.entry := by
  rw [bodyEnd, lt_min_iff, and_comm]
  apply and_congr_right
  intro hsize
  cases hn : p.nextStart? start with
  | none =>
    have hlast := nextStart?_eq_none hn
    exact ⟨fun _ g hg hlt => absurd hlt (hlast g hg).not_gt, fun _ => hsize⟩
  | some next =>
    obtain ⟨⟨g, hg, rfl⟩, habove, hleast⟩ := nextStart?_eq_some hn
    exact ⟨fun hlt g' hg' h => hlt.trans_le (hleast g' hg' h), fun hall => hall g hg habove⟩

/-- A body that starts inside the stream is not empty. -/
theorem lt_bodyEnd (h : start < p.size) : start < p.bodyEnd start :=
  lt_bodyEnd_iff.mpr ⟨h, fun _ _ hlt => hlt⟩

/-- A body goes up to the end found for it. -/
theorem entry_add_length_body {i : Nat} {f : Function} {body : Code}
    (hf : p.functions[i]? = some f) (hb : p.body? i = some body) :
    f.entry + body.length = p.bodyEnd f.entry := by
  obtain ⟨hle, rfl⟩ := body?_eq_some hf hb
  have hend : p.bodyEnd f.entry ≤ p.code.length := p.bodyEnd_le_size f.entry
  rw [List.length_take, List.length_drop]
  omega

theorem getElem?_body {i k : Nat} {f : Function} {body : Code} (hf : p.functions[i]? = some f)
    (hb : p.body? i = some body) (hk : k < body.length) : body[k]? = p.code[f.entry + k]? := by
  have hlen := entry_add_length_body hf hb
  obtain ⟨-, rfl⟩ := body?_eq_some hf hb
  rw [List.getElem?_take, if_pos (by omega), List.getElem?_drop]

/-- **A body is a stretch of its stream.** -/
theorem localBody_ok {i : Nat} {code : Code} (h : p.localBody i = .ok code) :
    ∃ f, p.functions[i]? = some f ∧ f.entry + code.length = p.bodyEnd f.entry ∧
      ∀ (pc : Nat) (x : Instr), code[pc]? = some x → p.code[f.entry + pc]? = some (x.based f.entry) ∧
        (x.op.isJump = true →
          ∃ n t, x.operand = some n ∧ Instr.place? n = some t ∧ t ≤ code.length) := by
  unfold localBody at h
  split at h
  · rename_i f body hf hb
    obtain ⟨hlen, hxs⟩ := relocateFrom_ok h
    rw [hlen]
    refine ⟨f, hf, entry_add_length_body hf hb, fun pc x hx => ?_⟩
    obtain ⟨h1, h2⟩ := hxs pc x hx
    have hpc : pc < body.length := (List.getElem?_eq_some_iff.mp h1).1
    exact ⟨getElem?_body hf hb hpc ▸ h1, h2⟩
  · cases h

/-! ### Functions that pass the check -/

/-- A function whose body passes the check, with its body and the heights that
were found. -/
structure Verified (p : Program) (i : Nat) (f : Function) (code : Code)
    (heights : List (Option Nat)) (peak : Nat) : Prop where
  func : p.functions[i]? = some f
  body : p.localBody i = .ok code
  survey : Heights.survey code p.functions = .ok (heights, peak)

/-- What is known about a function is known from its check. -/
theorem signature_ok {i : Nat} {g : Signature} (h : p.signature i = .ok g) :
    ∃ f code heights, p.Verified i f code heights g.stackLimit ∧ g.start = f.entry ∧
      g.arity = f.arity ∧ g.locals = f.frameSize := by
  unfold signature at h
  cases hf : p.functions[i]? with
  | none => simp only [hf] at h; cases h
  | some f =>
    simp only [hf] at h
    cases hb : p.localBody i with
    | error e => rw [hb] at h; cases h
    | ok code =>
      rw [hb] at h
      simp only [bind, Except.bind, pure, Except.pure] at h
      cases ha : Heights.analyze code p.functions with
      | error e => rw [ha] at h; cases h
      | ok peak =>
        rw [ha] at h
        cases h
        obtain ⟨heights, hs⟩ := Heights.analyze_eq_ok ha
        exact ⟨f, code, heights, ⟨hf, hb, hs⟩, rfl, rfl, rfl⟩

namespace Verified

variable {i : Nat} {f : Function} {code : Code} {heights : List (Option Nat)} {peak : Nat}

theorem accepted (h : p.Verified i f code heights peak) :
    Heights.Accepted p.functions code heights peak :=
  Heights.survey_accepted h.survey

theorem end_eq (h : p.Verified i f code heights peak) :
    f.entry + code.length = p.bodyEnd f.entry := by
  obtain ⟨g, hg, hlen, -⟩ := localBody_ok h.body
  rw [h.func] at hg
  rw [Option.some.inj hg, hlen]

/-- The instruction of the stream that `pc` stands for. -/
theorem fetch (h : p.Verified i f code heights peak) {pc : Nat} {x : Instr}
    (hx : code[pc]? = some x) : p.code[f.entry + pc]? = some (x.based f.entry) := by
  obtain ⟨g, hg, -, hxs⟩ := localBody_ok h.body
  rw [h.func] at hg
  rw [Option.some.inj hg]
  exact (hxs pc x hx).1

/-- Everything on record is inside the body. -/
theorem lt_length (h : p.Verified i f code heights peak) {pc n : Nat}
    (hh : heights[pc]? = some (some n)) : pc < code.length := by
  rw [← h.accepted.length]
  exact (List.getElem?_eq_some_iff.mp hh).1

theorem add_lt_size (h : p.Verified i f code heights peak) {pc n : Nat}
    (hh : heights[pc]? = some (some n)) : f.entry + pc < p.size := by
  have h1 := h.lt_length hh
  have h2 := h.end_eq
  have h3 := p.bodyEnd_le_size f.entry
  omega

end Verified

end Program

end StackMachine
