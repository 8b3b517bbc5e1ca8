/-
# Taking a body out of its stream

A body can be taken out if its jumps stay in it, and then each jump counts from the
start of the body instead of the start of the stream. Whether a jump stays is found
from a difference of 64-bit words, which may wrap around. A wrapped difference is
greater than any body is long, so that the answer is the one the exact difference
gives.

* `Instr.StaysIn`: an instruction of the stream that does not jump out of a stretch;
* `Instr.within_iff`: the test made on the words decides it;
* `Instr.Moved`: the instruction of the body that stands for one of the stream;
* `Program.localBody_exact`: which bodies can be taken out, what is in them, and which
  instruction decides the error of the others.
-/
import Mathlib
import StackMachine.Proofs.Partition

namespace StackMachine

namespace Instr

variable {start size : Nat} {t : Int64} {x y : Instr}

/-- A jump has a target between `start` and `stop`, or at one of them. What is no
jump stays anywhere. -/
def StaysIn (start stop : Nat) (x : Instr) : Prop :=
  x.op.isJump = true → ∃ t, x.operand = some t ∧ start ≤ t.toInt ∧ t.toInt ≤ stop

/-- The target of a jump counts from `start` in `y`, and from the start of the stream
in `x`; all else is the same. -/
def Moved (start : Nat) (x y : Instr) : Prop :=
  (x.op.isJump = false → y = x) ∧
    (x.op.isJump = true → y.op = x.op ∧
      ∃ t r, x.operand = some t ∧ y.operand = some r ∧ r.toInt = t.toInt - start)

/-- Why a jump that does not stay in the body of `func` is refused. -/
def refusal (func pc : Nat) (x : Instr) : CompileError :=
  x.operand.elim (.missingOperand x.op pc) (.jumpsOut func pc)

/-! ### Differences of words -/

/-- A difference is exact unless it is less than the least word. -/
theorem toInt_sub_ofNat (h : start < 2 ^ 63) (hleast : -2 ^ 63 ≤ t.toInt - start) :
    (t - Int64.ofNat start).toInt = t.toInt - start := by
  have hlt := t.toInt_lt
  rw [Int64.toInt_sub, Int64.toInt_ofNat_of_lt h, Int.bmod_eq_of_le (by omega) (by omega)]

/-- A difference that is less than the least word comes out among the greatest. -/
theorem toInt_sub_ofNat_wraps (h : start < 2 ^ 63) (hleast : t.toInt - start < -2 ^ 63) :
    (t - Int64.ofNat start).toInt = t.toInt - start + 2 ^ 64 := by
  have hle := t.le_toInt
  rw [Int64.toInt_sub, Int64.toInt_ofNat_of_lt h, ← Int.add_bmod_right]
  exact Int.bmod_eq_of_le (by omega) (by omega)

/-- **The test on words is exact.** -/
theorem within_iff (h : start + size < 2 ^ 63) :
    (0 ≤ (t - Int64.ofNat start).toInt ∧ (t - Int64.ofNat start).toInt ≤ size) ↔
      start ≤ t.toInt ∧ t.toInt ≤ (start + size : Nat) := by
  have hle := t.le_toInt
  rcases le_or_gt (-2 ^ 63) (t.toInt - start) with hexact | hwraps
  · rw [toInt_sub_ofNat (by omega) hexact]
    omega
  · -- The wrapped difference is at least `2 ^ 63 - start`, which is more than `size`.
    rw [toInt_sub_ofNat_wraps (by omega) hwraps]
    omega

/-! ### One instruction -/

/-- An instruction that stays can be taken out. -/
theorem relocate_of_staysIn (func pc : Nat) (h : start + size < 2 ^ 63) (hx : x.StaysIn start (start + size)) :
    ∃ y, Program.relocate func start size pc x = .ok y := by
  unfold Program.relocate
  by_cases hj : x.op.isJump = true
  · obtain ⟨t, ht, hin⟩ := hx hj
    simp only [hj, ht, within_iff h, if_pos hin]
    exact ⟨_, rfl⟩
  · simp [hj]

/-- An instruction that does not stay is refused. -/
theorem relocate_of_not_staysIn (func pc : Nat) (h : start + size < 2 ^ 63)
    (hx : ¬ x.StaysIn start (start + size)) :
    Program.relocate func start size pc x = .error (x.refusal func pc) := by
  obtain ⟨hj, hout⟩ := Classical.not_imp.mp hx
  unfold Program.relocate refusal
  cases ht : x.operand with
  | none => simp [hj]
  | some t =>
    have hnot : ¬ (start ≤ t.toInt ∧ t.toInt ≤ (start + size : Nat)) := fun hin => hout ⟨t, ht, hin⟩
    simp only [hj, within_iff h, if_neg hnot]
    rfl

/-- What an instruction of a body stands for stays in the body, and is the same but for
the start. -/
theorem staysIn_based (h : start + size < 2 ^ 63)
    (hy : y.op.isJump = true → ∃ n t, y.operand = some n ∧ place? n = some t ∧ t ≤ size) :
    (y.based start).StaysIn start (start + size) ∧ Moved start (y.based start) y := by
  by_cases hj : y.op.isJump = true
  · obtain ⟨n, t, hn, ht, hle⟩ := hy hj
    have hplace : n.toInt = t := place?_eq_some_iff.mp ht
    have hsum : (n + Int64.ofNat start).toInt = n.toInt + start := by
      rw [Int64.toInt_add, Int64.toInt_ofNat_of_lt (by omega), Int.bmod_eq_of_le (by omega) (by omega)]
    have hoperand : (y.based start).operand = some (n + Int64.ofNat start) := by simp [based, hj, hn]
    refine ⟨fun _ => ⟨_, hoperand, by omega, by omega⟩, fun hnot => ?_, fun _ => ?_⟩
    · simp [hj] at hnot
    · exact ⟨by simp, _, n, hoperand, hn, by omega⟩
  · have hj' : y.op.isJump = false := by simpa using hj
    rw [based_of_not_jump hj']
    exact ⟨fun h => absurd h hj, fun _ => rfl, fun h => absurd h hj⟩

end Instr

namespace Program

variable {p : Program} {i start size : Nat} {f : Function}

/-! ### A whole body -/

/-- If every instruction stays, all are taken out. -/
theorem relocateFrom_of_staysIn (func pc : Nat) (h : start + size < 2 ^ 63) {is : Code}
    (hall : ∀ x ∈ is, x.StaysIn start (start + size)) :
    ∃ code, relocateFrom func start size pc is = .ok code := by
  induction is generalizing pc with
  | nil => exact ⟨[], rfl⟩
  | cons x is ih =>
    obtain ⟨hx, his⟩ := List.forall_mem_cons.mp hall
    obtain ⟨y, hy⟩ := Instr.relocate_of_staysIn func pc h hx
    obtain ⟨code, hcode⟩ := ih (pc + 1) his
    exact ⟨y :: code, by simp [relocateFrom, hy, hcode, bind, Except.bind, pure, Except.pure]⟩

/-- The first instruction that does not stay decides the error. -/
theorem relocateFrom_of_first (func pc : Nat) (h : start + size < 2 ^ 63) {before after : Code} {x : Instr}
    (hbefore : ∀ z ∈ before, z.StaysIn start (start + size))
    (hx : ¬ x.StaysIn start (start + size)) :
    relocateFrom func start size pc (before ++ x :: after) =
      .error (x.refusal func (pc + before.length)) := by
  induction before generalizing pc with
  | nil =>
    have hr := Instr.relocate_of_not_staysIn func pc h hx
    simp [relocateFrom, hr, bind, Except.bind]
  | cons z before ih =>
    obtain ⟨hz, hbefore⟩ := List.forall_mem_cons.mp hbefore
    obtain ⟨y, hy⟩ := Instr.relocate_of_staysIn func pc h hz
    have hrest := ih (pc + 1) hbefore
    rw [Nat.add_assoc, Nat.add_comm 1] at hrest
    simp [relocateFrom, hy, hrest, bind, Except.bind]

/-- Without a body there is nothing to take out. -/
theorem localBody_of_past (h : ∀ f, p.functions[i]? = some f → p.size < f.entry) :
    p.localBody i = .error (.noSuchFunction i) := by
  unfold localBody
  cases hf : p.functions[i]? with
  | none => rfl
  | some f => simp [(body?_eq_none_iff hf).mpr (h f hf)]

/-- A body that is there is taken out from its first instruction on. -/
theorem localBody_of_le (hf : p.functions[i]? = some f) (hle : f.entry ≤ p.size) :
    ∃ body, p.body? i = some body ∧ f.entry + body.length = p.bodyEnd f.entry ∧
      p.localBody i = relocateFrom i f.entry body.length 0 body := by
  have hb := body?_of_le hf hle
  exact ⟨_, hb, entry_add_length_body hf hb, by simp only [localBody, hf, hb]⟩

theorem localBody_of_staysIn (hp : p.Fits) (hf : p.functions[i]? = some f) (hle : f.entry ≤ p.size)
    (hall : ∀ ip x, f.entry ≤ ip → ip < p.bodyEnd f.entry → p.code[ip]? = some x →
      x.StaysIn f.entry (p.bodyEnd f.entry)) :
    ∃ code, p.localBody i = .ok code := by
  obtain ⟨body, hb, hlen, heq⟩ := localBody_of_le hf hle
  have hfits : f.entry + body.length < 2 ^ 63 := hlen ▸ (p.bodyEnd_le_size _).trans_lt hp
  rw [heq]
  apply relocateFrom_of_staysIn i 0 hfits
  intro x hx
  obtain ⟨k, hk⟩ := List.mem_iff_getElem?.mp hx
  have hlt : k < body.length := (List.getElem?_eq_some_iff.mp hk).1
  rw [getElem?_body hf hb hlt] at hk
  rw [hlen]
  exact hall _ x (Nat.le_add_right ..) (by omega) hk

theorem localBody_of_first (hp : p.Fits) (hf : p.functions[i]? = some f) {pc : Nat} {x : Instr}
    (hpc : f.entry + pc < p.bodyEnd f.entry) (hx : p.code[f.entry + pc]? = some x)
    (hout : ¬ x.StaysIn f.entry (p.bodyEnd f.entry))
    (hbefore : ∀ k < pc, ∀ z, p.code[f.entry + k]? = some z → z.StaysIn f.entry (p.bodyEnd f.entry)) :
    p.localBody i = .error (x.refusal i pc) := by
  have hend := p.bodyEnd_le_size f.entry
  obtain ⟨body, hb, hlen, heq⟩ := localBody_of_le hf (by omega)
  have hfits : f.entry + body.length < 2 ^ 63 := hlen ▸ hend.trans_lt hp
  have hlt : pc < body.length := by omega
  have hget : ∀ k < body.length, body[k]? = p.code[f.entry + k]? := fun k => getElem?_body hf hb
  have hsplit : body = body.take pc ++ x :: body.drop (pc + 1) := by
    rw [← hget pc hlt] at hx
    obtain ⟨_, rfl⟩ := List.getElem?_eq_some_iff.mp hx
    rw [List.getElem_cons_drop, List.take_append_drop]
  rw [← hlen] at hout hbefore
  have hstay : ∀ z ∈ body.take pc, z.StaysIn f.entry (f.entry + body.length) := by
    intro z hz
    obtain ⟨k, hk⟩ := List.mem_iff_getElem?.mp hz
    rw [List.getElem?_take] at hk
    split_ifs at hk with hkpc
    exact hbefore k hkpc z (hget k (by omega) ▸ hk)
  have hfirst : relocateFrom i f.entry body.length 0 (body.take pc ++ x :: body.drop (pc + 1)) = _ :=
    relocateFrom_of_first i 0 hfits hstay hout
  rw [← hsplit, List.length_take_of_le hlt.le, Nat.zero_add] at hfirst
  rw [heq, hfirst]

/-- What is taken out stays, and is moved to its place in the body. -/
theorem localBody_moved (hp : p.Fits) {code : Code} (h : p.localBody i = .ok code) :
    ∃ f, p.functions[i]? = some f ∧ f.entry + code.length = p.bodyEnd f.entry ∧
      ∀ pc < code.length, ∃ x y, p.code[f.entry + pc]? = some x ∧ code[pc]? = some y ∧
        x.StaysIn f.entry (p.bodyEnd f.entry) ∧ x.Moved f.entry y := by
  obtain ⟨f, hf, hlen, hxs⟩ := localBody_ok h
  have hfits : f.entry + code.length < 2 ^ 63 := hlen ▸ (p.bodyEnd_le_size _).trans_lt hp
  refine ⟨f, hf, hlen, fun pc hpc => ?_⟩
  obtain ⟨hx, hjump⟩ := hxs pc code[pc] (List.getElem?_eq_getElem hpc)
  obtain ⟨hstay, hmoved⟩ := Instr.staysIn_based hfits hjump
  exact ⟨_, _, hx, List.getElem?_eq_getElem hpc, hlen ▸ hstay, hmoved⟩

theorem functionEnd?_eq_some_iff (hf : p.functions[i]? = some f) {stop : Nat} :
    p.functionEnd? i = some stop ↔ p.bodyEnd f.entry = stop := by
  simp [functionEnd?, hf]

/-- **A body is taken out exactly if its jumps stay in it.** Whatever the starts are
and whatever 64-bit words the operands are, function `i` has a body to take out if and
only if it is in the table, starts inside the stream or at its end, and every jump
from its start up to its end has a target between the two or at one of them. The body
then is as long as the stretch, has its instructions in their places, and its jumps
count from the start. Otherwise there is no such function, or the first jump that does
not stay is refused. An operand for which the difference of words wraps around does not
stay, and is refused as a jump out of the body. -/
theorem localBody_exact {p : Program} (hp : p.Fits) (i : Nat) :
    ((∃ code, p.localBody i = .ok code) ↔
      ∃ f stop, p.functions[i]? = some f ∧ p.functionEnd? i = some stop ∧ f.entry ≤ p.size ∧
        ∀ ip x, f.entry ≤ ip → ip < stop → p.code[ip]? = some x → x.StaysIn f.entry stop) ∧
    ((∀ f, p.functions[i]? = some f → p.size < f.entry) →
      p.localBody i = .error (.noSuchFunction i)) ∧
    ∀ f stop, p.functions[i]? = some f → p.functionEnd? i = some stop →
      (∀ code, p.localBody i = .ok code → f.entry + code.length = stop ∧
        ∀ pc < code.length, ∃ x y, p.code[f.entry + pc]? = some x ∧ code[pc]? = some y ∧
          x.Moved f.entry y) ∧
      ∀ pc x, f.entry + pc < stop → p.code[f.entry + pc]? = some x →
        (¬ x.StaysIn f.entry stop →
          (∀ k < pc, ∀ z, p.code[f.entry + k]? = some z → z.StaysIn f.entry stop) →
          p.localBody i = .error (x.refusal i pc)) ∧
        ∀ t, x.op.isJump = true → x.operand = some t →
          (t - Int64.ofNat f.entry).toInt ≠ t.toInt - f.entry →
          ¬ x.StaysIn f.entry stop ∧
          relocate i f.entry (stop - f.entry) pc x = .error (.jumpsOut i pc t) := by
  refine ⟨⟨?_, ?_⟩, localBody_of_past, fun f stop hf hstop => ?_⟩
  · rintro ⟨code, hcode⟩
    obtain ⟨f, hf, hlen, hall⟩ := localBody_moved hp hcode
    have hend := p.bodyEnd_le_size f.entry
    refine ⟨f, _, hf, (functionEnd?_eq_some_iff hf).mpr rfl, by omega, fun ip x hle hlt hx => ?_⟩
    obtain ⟨pc, rfl⟩ := Nat.exists_eq_add_of_le hle
    obtain ⟨x', _, hx', -, hstay, -⟩ := hall pc (by omega)
    obtain rfl : x = x' := Option.some.inj (hx.symm.trans hx')
    exact hstay
  · rintro ⟨f, stop, hf, hstop, hle, hall⟩
    obtain rfl := (functionEnd?_eq_some_iff hf).mp hstop
    exact localBody_of_staysIn hp hf hle hall
  · obtain rfl := (functionEnd?_eq_some_iff hf).mp hstop
    refine ⟨fun code hcode => ?_, fun pc x hpc hx => ⟨localBody_of_first hp hf hpc hx, ?_⟩⟩
    · obtain ⟨f', hf', hlen, hall⟩ := localBody_moved hp hcode
      obtain rfl : f = f' := Option.some.inj (hf.symm.trans hf')
      refine ⟨hlen, fun pc hpc => ?_⟩
      obtain ⟨x, y, hx, hy, -, hmoved⟩ := hall pc hpc
      exact ⟨x, y, hx, hy, hmoved⟩
    · intro t hj ht hwraps
      have hsize : f.entry + (p.bodyEnd f.entry - f.entry) < 2 ^ 63 := by
        have := (p.bodyEnd_le_size f.entry).trans_lt hp
        omega
      have hout : ¬ x.StaysIn f.entry (f.entry + (p.bodyEnd f.entry - f.entry)) := by
        intro hstay
        obtain ⟨t', ht', hle, -⟩ := hstay hj
        obtain rfl : t = t' := Option.some.inj (ht.symm.trans ht')
        exact hwraps (Instr.toInt_sub_ofNat (by omega) (by omega))
      have hrefused := Instr.relocate_of_not_staysIn i pc hsize hout
      rw [Instr.refusal, ht] at hrefused
      rw [Nat.add_sub_of_le (by omega)] at hout
      exact ⟨hout, hrefused⟩

/-- The second function jumps to both ends of its body. The first, which starts after
it, jumps to the least word there is. The third starts past the end of the stream. -/
def hopping : Program where
  code := [⟨.halt, none⟩, ⟨.jump .always, some 4⟩, ⟨.jump (.on false), some 1⟩, ⟨.ret, none⟩,
    ⟨.jump .always, some Int64.minValue⟩]
  functions := [⟨"far", 4, 0, 0, false⟩, ⟨"near", 1, 0, 0, true⟩, ⟨"past", 6, 0, 0, false⟩]

/-- Counted from the start of the first function the least word is the greatest, less
three. The jump is refused all the same. -/
theorem localBody_exact_hopping :
    hopping.Fits ∧ (Int64.minValue - Int64.ofNat 4).toInt = 2 ^ 63 - 4 ∧
      hopping.localBody 0 = .error (.jumpsOut 0 0 Int64.minValue) ∧
      (∃ code, hopping.localBody 1 = .ok code ∧ 1 + code.length = 4) ∧
      hopping.localBody 2 = .error (.noSuchFunction 2) := by
  have hfits : hopping.Fits := by decide
  have hwraps : (Int64.minValue - Int64.ofNat 4).toInt = 2 ^ 63 - 4 := by decide
  refine ⟨hfits, hwraps, ?_, ?_, ?_⟩
  · obtain ⟨-, -, h⟩ := localBody_exact hfits 0
    obtain ⟨hfirst, hjump⟩ := (h _ 5 rfl rfl).2 0 _ (by decide) rfl
    have hout := (hjump Int64.minValue rfl rfl (by decide)).1
    exact hfirst hout (by simp)
  · obtain ⟨hiff, -, h⟩ := localBody_exact hfits 1
    have hstay : ∀ ip x, 1 ≤ ip → ip < 4 → hopping.code[ip]? = some x → x.StaysIn 1 4 := by
      intro ip x hle hlt hx
      interval_cases ip <;> cases hx
      · exact fun _ => ⟨4, rfl, by decide, by decide⟩
      · exact fun _ => ⟨1, rfl, by decide, by decide⟩
      · intro hret
        cases hret
    obtain ⟨code, hcode⟩ := hiff.mpr ⟨_, 4, rfl, rfl, by decide, hstay⟩
    exact ⟨code, hcode, ((h _ 4 rfl rfl).1 code hcode).1⟩
  · exact (localBody_exact hfits 2).2.1 (by decide)

end Program
end StackMachine
