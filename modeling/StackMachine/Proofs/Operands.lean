/-
# Code that has the operands it takes

The check of heights gives the number of operands at every place of a body.
Simplified code need not have just that many: a jump into a dropped pair leaves
some behind. It never has fewer. So what is kept by both passes is stated as a
bound from below: a set of places, each with the numbers of operands that will
do there, which control does not leave (`Heights.Safe`). Whatever runs code from
a place in such a set finds its operands, and comes to an end by returning alone
(`Heights.Lasts`).

* `Heights.lasts_of_accepted`: a body that passed the check;
* `Heights.Lasts.fold`, `Heights.Lasts.eliminate`: what the passes make of it;
* `Program.compile_lasts`: all that compiling gives.
-/
import Mathlib
import StackMachine.Proofs.Compilation
import StackMachine.Proofs.Elimination
import StackMachine.Proofs.Folding
import StackMachine.Proofs.Origins
import StackMachine.Proofs.Soundness

namespace StackMachine
namespace Heights

variable {fs : List Function} {value : Bool} {code body : Code} {E E' : Nat → Nat → Prop}
  {pc h h' : Nat} {x : Instr}

/-- A set of places with operands that control does not leave, and in which no
call ends without the value it owes. -/
structure Safe (fs : List Function) (value : Bool) (code : Code) (E : Nat → Nat → Prop) : Prop where
  up : ∀ {pc h h'}, E pc h → h ≤ h' → E pc h'
  enough : ∀ {pc h}, E pc h → ∃ x, code[pc]? = some x ∧ Enough fs E pc h x
  owes : ∀ {pc h x}, E pc h → code[pc]? = some x → value = true → x.op ≠ .retVoid

/-- From `pc` on, with `h` operands or more, the code never runs short. -/
def Lasts (fs : List Function) (value : Bool) (code : Code) (pc h : Nat) : Prop :=
  ∃ E, Safe fs value code E ∧ E pc h

/-- What lasts is safe in its turn. -/
theorem safe_lasts (fs : List Function) (value : Bool) (code : Code) :
    Safe fs value code (Lasts fs value code) where
  up := fun ⟨E, hs, hE⟩ hle => ⟨E, hs, hs.up hE hle⟩
  enough := by
    rintro pc h ⟨E, hs, hE⟩
    obtain ⟨x, hx, hen⟩ := hs.enough hE
    exact ⟨x, hx, hen.mono le_rfl fun hk hle => ⟨E, hs, hs.up hk hle⟩⟩
  owes := fun ⟨_, hs, hE⟩ hx hv => hs.owes hE hx hv

theorem Lasts.up (hl : Lasts fs value code pc h) (hle : h ≤ h') : Lasts fs value code pc h' :=
  (safe_lasts fs value code).up hl hle

theorem Lasts.enough (hl : Lasts fs value code pc h) :
    ∃ x, code[pc]? = some x ∧ Enough fs (Lasts fs value code) pc h x :=
  (safe_lasts fs value code).enough hl

theorem Lasts.enough_at (hl : Lasts fs value code pc h) (hx : code[pc]? = some x) :
    Enough fs (Lasts fs value code) pc h x := by
  obtain ⟨y, hy, hen⟩ := hl.enough
  obtain rfl : x = y := Option.some.inj (hx.symm.trans hy)
  exact hen

theorem Lasts.owes (hl : Lasts fs value code pc h) (hx : code[pc]? = some x) (hv : value = true) :
    x.op ≠ .retVoid :=
  (safe_lasts fs value code).owes hl hx hv

theorem Lasts.lt_length (hl : Lasts fs value code pc h) : pc < code.length := by
  obtain ⟨x, hx, -⟩ := hl.enough
  exact (List.getElem?_eq_some_iff.mp hx).1

/-! ### Isolated code -/

section Isolated

variable {c c' : Context}

theorem Lasts.step (hl : Lasts fs value code pc c.stack.length) {pc' : Nat}
    (hs : Context.step code pc c = .on pc' c') : Lasts fs value code pc' c'.stack.length := by
  obtain ⟨x, hx, hen⟩ := hl.enough
  exact Context.step_enough hx hen hs

/-- Isolated code that owes a value ends with one. -/
theorem Lasts.ended (hl : Lasts fs true code pc c.stack.length)
    (hs : Context.step code pc c = .ended c') : ∃ v, c'.result = some v := by
  obtain ⟨x, hx, hen⟩ := hl.enough
  obtain ⟨hr, hop | hop⟩ := Context.step_ended_op hx hs
  · obtain ⟨v, vs, hst⟩ := List.exists_cons_of_length_pos (hen.of_ret hop)
    rw [Context.exec_ret hop hst] at hr
    cases hr
    exact ⟨v, rfl⟩
  · exact absurd hop (hl.owes hx rfl)

end Isolated

/-! ### Bodies that pass the check -/

/-- A body lasts from wherever the check gets to. -/
theorem lasts_of_accepted {heights : List (Option Nat)} {peak : Nat}
    (ha : Heights.Accepted fs code heights peak)
    (howes : ∀ (pc h : Nat) (x : Instr), heights[pc]? = some (some h) → code[pc]? = some x →
      value = true → x.op ≠ .retVoid)
    (hh : heights[pc]? = some (some h)) : Lasts fs value code pc h := by
  refine ⟨fun t k => ∃ h₀ ≤ k, heights[t]? = some (some h₀), ⟨?_, ?_, ?_⟩, h, le_rfl, hh⟩
  · rintro t k k' ⟨h₀, hle, ht⟩ hk
    exact ⟨h₀, hle.trans hk, ht⟩
  · rintro t k ⟨h₀, hle, ht⟩
    obtain ⟨x, hx, hc⟩ := (ha.settled t h₀ ht).checked
    exact ⟨x, hx, hc.mono hle fun ht hk => ⟨_, hk, ht⟩⟩
  · rintro t k x ⟨h₀, -, ht⟩ hx
    exact howes t h₀ x ht hx

/-! ### The passes -/

open Peephole

/-- An instruction that is kept takes what it took, and goes on where what comes
next has gone to. -/
theorem Enough.retarget {size j : Nat} {origins : List Nat} (hl : origins.Nodup)
    (hx : Enough fs E pc h x) (hnext : ∀ k, E (pc + 1) k → E' (j + 1) k)
    (hland : ∀ t k, landing? x = some t → E t k → t ≤ size ∧ E' (origins.countP (· < t)) k) :
    Enough fs E' j h (retarget size origins x) := by
  cases hx with
  | data pops pushes hd ho he hen hk =>
    rw [retarget_of_not_jump (Opcode.isJump_of_movesData hd)]
    exact .data pops pushes hd ho he hen (hnext _ hk)
  | jump n t hop hn ht hk =>
    have hat : landing? x = some t := landing?_eq_some_iff.mpr ⟨by rw [hop]; rfl, n, hn, ht⟩
    obtain ⟨hle, hk'⟩ := hland t _ hat hk
    obtain ⟨n', hr, hn'⟩ := retarget_of_jump hl hat hle
    rw [hr]
    exact .jump n' _ hop rfl hn' hk'
  | branch b n t hop hn ht hen hk hk' =>
    have hat : landing? x = some t := landing?_eq_some_iff.mpr ⟨by rw [hop]; rfl, n, hn, ht⟩
    obtain ⟨hle, hk'⟩ := hland t _ hat hk'
    obtain ⟨n', hr, hn'⟩ := retarget_of_jump hl hat hle
    rw [hr]
    exact .branch b n' _ hop rfl hn' hen (hnext _ hk) hk'
  | call n k g hop hn hk hg hen hk' =>
    rw [retarget_of_not_jump (by rw [hop]; rfl)]
    exact .call n k g hop hn hk hg hen (hnext _ hk')
  | ret hop hen =>
    rw [retarget_of_not_jump (by rw [hop]; rfl)]
    exact .ret hop hen
  | retVoid hop =>
    rw [retarget_of_not_jump (by rw [hop]; rfl)]
    exact .retVoid hop
  | halt hop =>
    rw [retarget_of_not_jump (by rw [hop]; rfl)]
    exact .halt hop

theorem movesData_of_constant {v : Value} (hv : constant? x = some v) :
    x.op.movesData = true ∧ Instr.fixedEffect x.op = some (0, 1) ∧
      (x.op.needsOperand = true → x.operand.isSome = true) := by
  obtain ⟨op, operand⟩ := x
  cases op with
  | pushInt =>
    obtain ⟨n, rfl, -⟩ := Option.map_eq_some_iff.mp hv
    exact ⟨rfl, rfl, fun _ => rfl⟩
  | pushBool b => exact ⟨rfl, rfl, fun h => by cases h⟩
  | _ => cases hv

/-- A stretch that computes a constant adds one operand. -/
theorem Lasts.computes {j k : Nat} {v : Value} (hc : Computes body j k v)
    (hl : Lasts fs value body j h) : Lasts fs value body k (h + 1) := by
  induction hc generalizing h with
  | push hx hv =>
    obtain ⟨hd, he, -⟩ := movesData_of_constant hv
    exact ((hl.enough_at hx).of_data hd he).2
  | binary _ _ hx hop _ _ _ ihl ihr =>
    have hen := (ihr (ihl hl)).enough_at hx
    obtain ⟨-, hnext⟩ := hen.of_data (by rw [hop]; rfl) (by rw [hop]; rfl)
    exact hnext.up (by omega)
  | unary _ hx hop _ _ ih =>
    have hen := (ih hl).enough_at hx
    obtain ⟨-, hnext⟩ := hen.of_data (by rw [hop]; rfl) (by rw [hop]; rfl)
    exact hnext.up (by omega)

/-- The place of a piece whose start lasts. -/
def AtPiece (fs : List Function) (value : Bool) (body : Code) (j h : Nat) : Prop :=
  ∃ k, Starts body k ∧ Peephole.slot body k = j ∧ Lasts fs value body k h

/-- The instruction that a piece comes down to has its operands. It ends a call
without a value only if the one at the start of the piece does. -/
theorem enough_piece {k : Nat} (hk : Starts body k) (hl : Lasts fs value body k h) :
    ∃ y, (Peephole.code (fold body))[Peephole.slot body k]? = some y ∧
      (y.op = .retVoid → ∃ x, body[k]? = some x ∧ x.op = .retVoid) ∧
      Enough fs (AtPiece fs value body) (Peephole.slot body k) h y := by
  obtain ⟨before, after, heq, hb, ha⟩ := hk
  have hlt := hl.lt_length
  cases ha with
  | nil => omega
  | @cons t k' _ after htile hrest =>
    obtain ⟨hslot, hslot', hnext⟩ := slot_piece heq htile hb hrest
    have hfetch := getElem?_fold heq
    rw [← hslot] at hfetch hslot'
    refine ⟨_, hfetch, ?_⟩
    cases htile with
    | kept hx =>
      refine ⟨fun hop => ⟨t.instr, hx, by rwa [(like_retarget ..).op] at hop⟩, ?_⟩
      refine (hl.enough_at hx).retarget (nodup_origins body) (fun k hk => ?_) fun i k hi hk => ?_
      · exact ⟨_, hnext, hslot', hk⟩
      · have hle := hk.lt_length.le
        have hstarts := starts_of_landing (mem_landings_of_fetch hx hi) hle
        exact ⟨hle, i, hstarts, by rw [Peephole.slot, if_pos hle], hk⟩
    | folded hc hp =>
      have hv := constant?_of_pushOf? hp
      obtain ⟨hd, he, ho⟩ := movesData_of_constant hv
      rw [retarget_of_not_jump (isJump_of_constant hv)]
      refine ⟨fun hop => ?_, .data 0 1 hd ho he (Nat.zero_le h) ?_⟩
      · rw [hop] at hd
        cases hd
      · exact ⟨_, hnext, hslot', hl.computes hc⟩

theorem safe_fold (fs : List Function) (value : Bool) (body : Code) :
    Safe fs value (Peephole.code (fold body)) (AtPiece fs value body) where
  up := fun ⟨k, hk, hj, hl⟩ hle => ⟨k, hk, hj, hl.up hle⟩
  enough := by
    rintro j h ⟨k, hk, rfl, hl⟩
    obtain ⟨y, hy, -, hen⟩ := enough_piece hk hl
    exact ⟨y, hy, hen⟩
  owes := by
    rintro j h y ⟨k, hk, rfl, hl⟩ hy hv hop
    obtain ⟨y', hy', hback, -⟩ := enough_piece hk hl
    obtain rfl : y = y' := Option.some.inj (hy.symm.trans hy')
    obtain ⟨x, hx, hop'⟩ := hback hop
    exact hl.owes hx hv hop'

theorem Lasts.fold (hl : Lasts fs value body 0 h) :
    Lasts fs value (Peephole.code (Peephole.fold body)) 0 h :=
  ⟨_, safe_fold fs value body, 0, starts_zero body, slot_zero body, hl⟩

theorem effect_of_onlyPushes (hp : onlyPushes x = true) :
    x.op.movesData = true ∧ ∃ pops, Instr.fixedEffect x.op = some (pops, pops + 1) := by
  obtain ⟨op, operand⟩ := x
  cases op with
  | pushInt | pushBool b => exact ⟨rfl, 0, rfl⟩
  | dup => exact ⟨rfl, 1, rfl⟩
  | _ => cases hp

/-- Behind the dropped pairs that a place is inside of, fewer operands will do:
those that the pairs would have popped are not missed. -/
theorem Lasts.settles (hl : Lasts fs value body pc h) :
    ∃ k ∈ kept body, place body k = place body pc ∧ pending body pc ≤ h ∧
      Lasts fs value body k (h - pending body pc) := by
  have hlt := hl.lt_length
  induction hj : body.length - pc generalizing pc h with
  | zero => omega
  | succ j ih =>
    obtain ⟨x, hx, hen⟩ := hl.enough
    cases fate hx with
    | kept hmem hhere _ =>
      rw [hhere]
      exact ⟨pc, hmem, rfl, Nat.zero_le h, hl⟩
    | push hdrop hp hnext =>
      obtain ⟨hd, pops, he⟩ := effect_of_onlyPushes hp
      obtain ⟨hle, hl'⟩ := hen.of_data hd he
      obtain ⟨k, hk, hplace, hle', hl''⟩ := ih hl' hl'.lt_length (by omega)
      rw [place_succ_of_notMem hdrop] at hplace
      exact ⟨k, hk, hplace, by omega, hl''.up (by omega)⟩
    | pop hdrop hp hhere =>
      obtain ⟨hle, hl'⟩ := hen.of_data (by rw [hp]; rfl) (by rw [hp]; rfl)
      obtain ⟨k, hk, hplace, hle', hl''⟩ := ih hl' hl'.lt_length (by omega)
      rw [place_succ_of_notMem hdrop] at hplace
      exact ⟨k, hk, hplace, by omega, hl''.up (by omega)⟩

/-- The place of an instruction that is kept and lasts. -/
def AtKept (fs : List Function) (value : Bool) (body : Code) (j h : Nat) : Prop :=
  ∃ k ∈ kept body, place body k = j ∧ Lasts fs value body k h

theorem Lasts.atKept (hl : Lasts fs value body pc h) : AtKept fs value body (place body pc) h := by
  obtain ⟨k, hk, hplace, -, hl'⟩ := hl.settles
  exact ⟨k, hk, hplace, hl'.up (Nat.sub_le _ _)⟩

theorem safe_eliminate (fs : List Function) (value : Bool) (body : Code) :
    Safe fs value (Peephole.code (eliminate body)) (AtKept fs value body) where
  up := fun ⟨k, hk, hj, hl⟩ hle => ⟨k, hk, hj, hl.up hle⟩
  enough := by
    rintro j h ⟨k, hk, rfl, hl⟩
    obtain ⟨x, hx, hen⟩ := hl.enough
    refine ⟨_, getElem?_code hx hk, hen.retarget (nodup_kept body) (fun i hi => ?_) fun t i _ hi => ?_⟩
    · rw [← place_succ_of_mem hk]
      exact hi.atKept
    · exact ⟨hi.lt_length.le, hi.atKept⟩
  owes := by
    rintro j h y ⟨k, hk, rfl, hl⟩ hy hv hop
    obtain ⟨x, hx, -⟩ := hl.enough
    rw [getElem?_code hx hk] at hy
    rw [← Option.some.inj hy, (like_retarget ..).op] at hop
    exact hl.owes hx hv hop

theorem Lasts.eliminate (hl : Lasts fs value body 0 h) :
    Lasts fs value (Peephole.code (Peephole.eliminate body)) 0 h :=
  ⟨_, safe_eliminate fs value body, place_zero body ▸ hl.atKept⟩

theorem code_simplify (body : Code) :
    Peephole.code (simplify body) =
      Peephole.code (Peephole.eliminate (Peephole.code (Peephole.fold body))) := by
  simp [Peephole.code, simplify, Function.comp_def]

/-- **Simplified code lasts where the body does.** -/
theorem Lasts.simplify (hl : Lasts fs value body 0 h) :
    Lasts fs value (Peephole.code (Peephole.simplify body)) 0 h := by
  rw [code_simplify]
  exact hl.fold.eliminate

end Heights

/-! ### Compiled code -/

namespace Program

variable {p : Program} {i : Nat}

/-- The check of function `i` gets to an instruction with this opcode. -/
def Reaches (p : Program) (i : Nat) (op : Opcode) : Prop :=
  ∃ ip h x, p.heightAt? i ip = some h ∧ p.code[ip]? = some x ∧ x.op = op

instance (p : Program) (i : Nat) (op : Opcode) : Decidable (p.Reaches i op) :=
  decidable_of_iff
    (∃ ip : Fin p.code.length, (p.heightAt? i ip).isSome = true ∧ (p.code.get ip).op = op) <| by
    constructor
    · rintro ⟨ip, hh, hop⟩
      obtain ⟨h, hh⟩ := Option.isSome_iff_exists.mp hh
      exact ⟨ip, h, p.code.get ip, hh, List.getElem?_eq_getElem ip.isLt, hop⟩
    · rintro ⟨ip, h, x, hh, hx, hop⟩
      obtain ⟨hlt, rfl⟩ := List.getElem?_eq_some_iff.mp hx
      exact ⟨⟨ip, hlt⟩, by rw [hh]; rfl, hop⟩

/-- A body that passed the check lasts from its start, if it has one. -/
theorem Verified.lasts {f : Function} {code : Code} {heights : List (Option Nat)} {peak : Nat}
    (hv : p.Verified i f code heights peak)
    (howes : f.returns = true → ¬ p.Reaches i .retVoid) (hne : code ≠ []) :
    Heights.Lasts p.functions f.returns code 0 0 := by
  refine Heights.lasts_of_accepted hv.accepted (fun pc h x hh hx hret hop => ?_)
    (hv.accepted.entry hne)
  exact howes hret ⟨_, h, _, hv.heightAt? hh, hv.fetch hx, by rw [Instr.op_based, hop]⟩

/-- The code of a draft: the body, simplified or not. -/
theorem draft_code {simplify : Bool} {d : Draft}
    (h : (Source.program p).draft simplify i = .ok d) :
    ∃ f code heights peak, d.func = i ∧ d.signature.arity = f.arity ∧
      p.Verified i f code heights peak ∧
      d.code = if simplify then Peephole.code (Peephole.simplify code) else code := by
  obtain ⟨d₀, hd₀, rfl⟩ := draft_ok h
  obtain ⟨f, heights, peak, rfl, -, harity, -, hplain⟩ := plain_ok hd₀
  refine ⟨f, d₀.code, heights, peak, ?_, ?_, hplain.verified, ?_⟩ <;> split_ifs
  · rfl
  · rfl
  · exact harity
  · exact harity
  · rfl
  · rfl

/-- **Code compiled from a function lasts**, under any settings, unless the
function has no instruction. Isolated code takes the function's arguments, and
holds nothing that calls. -/
theorem compile_lasts {s : Settings} {a : Artifact} (h : p.compile s i = .ok a)
    (howes : ∀ f, p.functions[i]? = some f → f.returns = true → ¬ p.Reaches i .retVoid) :
    ∃ f, p.functions[i]? = some f ∧ a.body.func = i ∧
      (a.body.code = [] ∧ p.size ≤ f.entry ∨
        Heights.Lasts p.functions f.returns a.body.code 0 0) ∧
      ∀ b arity locals, a = .isolated b arity locals →
        arity = f.arity ∧ ∀ x ∈ b.code, x.op.isolable = true := by
  obtain ⟨d, hd, he⟩ := compile_ok h
  obtain ⟨f, code, heights, peak, hfunc, harity, hv, hcode⟩ := draft_code hd
  have hbody : a.body = d.compiledBody := by
    rcases emit_ok he with ⟨-, rfl⟩ | ⟨-, -, rfl⟩ <;> rfl
  refine ⟨f, hv.func, by rw [hbody]; exact hfunc, ?_, ?_⟩
  · rw [hbody, show d.compiledBody.code = d.code from rfl, hcode]
    by_cases hnil : code = []
    · have hend := hv.end_eq
      rw [hnil, List.length_nil] at hend
      refine Or.inl ⟨by rw [hnil]; split_ifs <;> rfl, ?_⟩
      by_contra hlt
      have := lt_bodyEnd (not_le.mp hlt)
      omega
    · have hl := hv.lasts (howes f hv.func) hnil
      refine Or.inr ?_
      split_ifs
      · exact hl.simplify
      · exact hl
  · rintro b arity locals rfl
    rcases emit_ok he with ⟨-, heq⟩ | ⟨-, hiso, heq⟩
    · cases heq
    · cases heq
      exact ⟨harity, hiso⟩

end Program
end StackMachine
