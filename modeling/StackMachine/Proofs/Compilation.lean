/-
# What compiling a function gives

Compiled as it is, a function gives the body that passed the check, each
instruction with its place in the stream (`Program.Plain`), in one form or the
other (`Program.compile_integrated`, `Program.compile_isolated`).

Compiled code stands for the function only if the body has an instruction, and
none that halts the machine (`Program.Returning`): it then comes to an end by
returning alone.

* `Draft.emit_iff`: what is asked of a draft before it is made an artifact, of each
  of its instructions and wherever it stands.
-/
import Mathlib
import StackMachine.Compiled.Compile
import StackMachine.Proofs.Bodies

namespace StackMachine

/-! ### What is asked of a draft -/

/-- The instruction has the operand it needs, and jumps no further than to the end
of a body of `size` instructions. -/
@[mk_iff] structure Instr.Proper (size : Nat) (x : Instr) : Prop where
  operand : x.op.needsOperand = true → x.operand.isSome = true
  jump : x.op.isJump = true → ∀ n, x.operand = some n → 0 ≤ n.toInt ∧ n.toInt ≤ size

theorem Opcode.needsOperand_of_isJump {op : Opcode} (h : op.isJump = true) :
    op.needsOperand = true := by
  cases op with
  | jump w => rfl
  | _ => cases h

namespace Draft

theorem checkOperand_eq_ok (d : Draft) (pc : Nat) (x : Instr) :
    d.checkOperand pc x = .ok () ↔ x.Proper d.code.length := by
  rw [checkOperand, Instr.proper_iff]
  cases ho : x.operand with
  | none =>
    by_cases hneeds : x.op.needsOperand = true
    · simp [hneeds]
    · have hj : ¬ x.op.isJump = true := fun hj => hneeds (Opcode.needsOperand_of_isJump hj)
      simp [hneeds, hj]
  | some n =>
    by_cases hj : x.op.isJump = true
    · by_cases hin : 0 ≤ n.toInt ∧ n.toInt ≤ d.code.length
      · simp [hj, hin]
      · simp only [Option.isNone_some, Bool.and_false, Bool.false_eq_true, ↓reduceIte, hj,
          Option.getD_some, hin]
        simp
        omega
    · simp [hj]

theorem checkIsolated_eq_ok (d : Draft) (pc : Nat) (x : Instr) :
    d.checkIsolated pc x = .ok () ↔ x.op.isolable = true ∧ x.Proper d.code.length := by
  unfold checkIsolated
  split_ifs with hiso
  · simp [hiso, checkOperand_eq_ok]
  · simp [hiso]

theorem checkFrom_eq_ok {check : Nat → Instr → Except CompileError Unit} {P : Instr → Prop}
    (hcheck : ∀ pc x, check pc x = .ok () ↔ P x) (pc : Nat) (code : Code) :
    checkFrom check pc code = .ok () ↔ ∀ x ∈ code, P x := by
  induction code generalizing pc with
  | nil => simp [checkFrom]
  | cons x code ih =>
    rw [List.forall_mem_cons, ← hcheck pc x, ← ih (pc + 1), checkFrom]
    cases check pc x with
    | ok u => simp [bind, Except.bind]
    | error e => simp [bind, Except.bind]

/-- What a draft is asked for before it is made an artifact. -/
theorem emit_iff {d : Draft} {form : CodeForm} :
    (∃ a, d.emit form = .ok a) ↔
      ∀ x ∈ d.code, (form = .isolated → x.op.isolable = true) ∧ x.Proper d.code.length := by
  have hthen : ∀ (check : Except CompileError Unit) (b : Artifact),
      (∃ a, (do check; return b) = .ok a) ↔ check = .ok () := by
    intro check b
    cases check with
    | ok u => simp [bind, Except.bind, pure, Except.pure]
    | error e => simp [bind, Except.bind]
  cases form with
  | isolated =>
    rw [emit, isolated, hthen, checkFrom_eq_ok d.checkIsolated_eq_ok]
    simp
  | integrated =>
    rw [emit, integrated, hthen, checkFrom_eq_ok d.checkOperand_eq_ok]
    simp

end Draft

namespace Program

variable {p : Program}

/-! ### Functions as they are -/

/-- The body of the function has an instruction, and none that halts. -/
def Returning (p : Program) (i : Nat) : Prop :=
  ∃ body, p.body? i = some body ∧ body ≠ [] ∧ ∀ x ∈ body, x.op ≠ .halt

/-- Code of a function as it stands in the stream, with the heights that the
check found. -/
structure Plain (p : Program) (b : CompiledBody) (f : Function) (heights : List (Option Nat))
    (peak : Nat) : Prop where
  verified : p.Verified b.func f b.code heights peak
  ips : ∀ pc, pc < b.code.length → b.ips.getD pc 0 = f.entry + pc

/-- Every instruction of the code stands for one of the stream. -/
theorem Plain.site? {b : CompiledBody} {f : Function} {heights : List (Option Nat)} {peak pc : Nat}
    (h : p.Plain b f heights peak) {x : Instr} (hx : b.code[pc]? = some x) :
    b.site? pc = some (f.entry + pc, x) := by
  unfold CompiledBody.site?
  rw [hx, Option.map_some, h.ips pc (List.getElem?_eq_some_iff.mp hx).1]

/-- The instructions of a function's body and of its code, one by one. -/
theorem Verified.getElem?_body {i : Nat} {f : Function} {code body : Code}
    {heights : List (Option Nat)} {peak pc : Nat} {x : Instr}
    (h : p.Verified i f code heights peak) (hb : p.body? i = some body) (hx : code[pc]? = some x) :
    body[pc]? = some (x.based f.entry) := by
  obtain ⟨-, rfl⟩ := body?_eq_some h.func hb
  have hend := h.end_eq
  have hpc := (List.getElem?_eq_some_iff.mp hx).1
  rw [List.getElem?_take, if_pos (by omega), List.getElem?_drop]
  exact h.fetch hx

section Returning

variable {b : CompiledBody} {f : Function} {heights : List (Option Nat)} {peak : Nat}

/-- The first instruction of such a body is on record. -/
theorem Returning.entry (hr : p.Returning b.func) (h : p.Plain b f heights peak) :
    heights[0]? = some (some 0) := by
  obtain ⟨body, hb, hne, -⟩ := hr
  refine h.verified.accepted.entry fun hnil => hne ?_
  obtain ⟨-, rfl⟩ := body?_eq_some h.verified.func hb
  have hend := h.verified.end_eq
  rw [hnil, List.length_nil] at hend
  rw [← hend]
  simp

theorem Returning.not_halt (hr : p.Returning b.func) (h : p.Plain b f heights peak) {pc : Nat}
    {x : Instr} (hx : b.code[pc]? = some x) : x.op ≠ .halt := by
  obtain ⟨body, hb, -, hno⟩ := hr
  have := hno _ (List.mem_of_getElem? (h.verified.getElem?_body hb hx))
  rwa [Instr.op_based] at this

end Returning

/-- A function taken as it is. -/
theorem plain_ok {i : Nat} {d : Draft} (h : (Source.program p).plain i = .ok d) :
    ∃ f heights peak, d.func = i ∧ d.signature.start = f.entry ∧ d.signature.arity = f.arity ∧
      d.signature.locals = f.frameSize ∧ p.Plain d.compiledBody f heights peak := by
  unfold Source.plain at h
  cases hg : (Source.program p).signature i with
  | error e => rw [hg] at h; cases h
  | ok g =>
    rw [hg] at h
    cases hb : (Source.program p).body i with
    | error e => rw [hb] at h; cases h
    | ok code =>
      rw [hb] at h
      cases h
      obtain ⟨f, code', heights, hv, hstart, harity, hlocals⟩ := signature_ok hg
      obtain rfl : code' = code := by
        have h1 : p.localBody i = .ok code := hb
        rw [hv.body] at h1
        exact Except.ok.inj h1
      refine ⟨f, heights, g.stackLimit, rfl, hstart, harity, hlocals, hv, fun pc hpc => ?_⟩
      have hpc' : pc < code'.length := hpc
      simp [Draft.compiledBody, Draft.ips, Draft.origin, hpc', hstart]

/-- A function simplified is the same function with other code. -/
theorem draft_ok {i : Nat} {simplify : Bool} {d : Draft}
    (h : (Source.program p).draft simplify i = .ok d) :
    ∃ d₀, (Source.program p).plain i = .ok d₀ ∧ d = if simplify then
      { d₀ with
        code := Peephole.code (Peephole.simplify d₀.code)
        origins := (Peephole.simplify d₀.code).map Traced.origin }
      else d₀ := by
  unfold Source.draft at h
  cases simplify with
  | false => exact ⟨d, h, rfl⟩
  | true =>
    simp only [↓reduceIte, Source.simplified] at h
    cases hd : (Source.program p).plain i with
    | error e => rw [hd] at h; cases h
    | ok d₀ =>
      rw [hd] at h
      cases h
      exact ⟨d₀, rfl, rfl⟩

/-- The artifact of a draft has its code; isolated code holds nothing that calls
or reaches the heap. -/
theorem emit_ok {d : Draft} {form : CodeForm} {a : Artifact} (h : d.emit form = .ok a) :
    (form = .integrated ∧ a = .integrated d.compiledBody) ∨
    (form = .isolated ∧ (∀ x ∈ d.code, x.op.isolable = true) ∧
      a = .isolated d.compiledBody d.signature.arity (max d.signature.locals d.signature.arity)) := by
  cases form with
  | integrated =>
    simp only [Draft.emit, Draft.integrated, bind, Except.bind] at h
    cases hc : Draft.checkFrom d.checkOperand 0 d.code with
    | error e => rw [hc] at h; cases h
    | ok u =>
      rw [hc] at h
      cases h
      exact Or.inl ⟨rfl, rfl⟩
  | isolated =>
    simp only [Draft.emit, Draft.isolated, bind, Except.bind] at h
    cases hc : Draft.checkFrom d.checkIsolated 0 d.code with
    | error e => rw [hc] at h; cases h
    | ok u =>
      rw [hc] at h
      cases h
      have hiso := (Draft.checkFrom_eq_ok d.checkIsolated_eq_ok 0 d.code).mp hc
      exact Or.inr ⟨rfl, fun x hx => (hiso x hx).1, rfl⟩

variable {s : Settings} {i : Nat} {a : Artifact}

/-- Compiling a function is making an artifact of a draft. -/
theorem compile_ok (h : p.compile s i = .ok a) :
    ∃ d, (Source.program p).draft s.simplify i = .ok d ∧ d.emit s.form = .ok a := by
  unfold Program.compile Source.compile at h
  cases hd : (Source.program p).draft s.simplify i with
  | error e => rw [hd] at h; cases h
  | ok d => rw [hd] at h; exact ⟨d, rfl, h⟩

/-- What can be compiled has passed the check. -/
theorem compile_verified (h : p.compile s i = .ok a) :
    ∃ f code heights peak, p.Verified i f code heights peak := by
  obtain ⟨d, hd, -⟩ := compile_ok h
  obtain ⟨d₀, hd₀, -⟩ := draft_ok hd
  obtain ⟨f, heights, peak, rfl, -, -, -, hp⟩ := plain_ok hd₀
  exact ⟨f, _, heights, peak, hp.verified⟩

theorem compile_integrated (hf : s.form = .integrated) (hs : s.simplify = false)
    (h : p.compile s i = .ok a) :
    ∃ b f heights peak, a = .integrated b ∧ b.func = i ∧ p.Plain b f heights peak := by
  obtain ⟨d, hd, he⟩ := compile_ok h
  rw [hs] at hd
  obtain ⟨f, heights, peak, hi, -, -, -, hp⟩ := plain_ok hd
  rcases emit_ok he with ⟨-, rfl⟩ | ⟨hform, -⟩
  · exact ⟨_, f, heights, peak, rfl, hi, hp⟩
  · rw [hf] at hform
    cases hform

/-- Isolated code is the same code, and holds nothing that calls or reaches the
heap. -/
theorem compile_isolated (hf : s.form = .isolated) (hs : s.simplify = false)
    (h : p.compile s i = .ok a) :
    ∃ b f heights peak, a = .isolated b f.arity f.frameSize ∧ b.func = i ∧
      p.Plain b f heights peak ∧ ∀ x ∈ b.code, x.op.isolable = true := by
  obtain ⟨d, hd, he⟩ := compile_ok h
  rw [hs] at hd
  obtain ⟨f, heights, peak, hi, -, harity, hlocals, hp⟩ := plain_ok hd
  rcases emit_ok he with ⟨hform, -⟩ | ⟨-, hiso, rfl⟩
  · rw [hf] at hform
    cases hform
  · rw [harity, hlocals, Nat.max_eq_left f.arity_le_frameSize]
    exact ⟨_, f, heights, peak, rfl, hi, hp, hiso⟩

end Program
end StackMachine
