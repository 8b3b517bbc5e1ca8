/-
# What a survey of heights tells

A body that passes the check comes with a height before each instruction that
can be reached, and these heights fit together: every such instruction finds
what it takes, and leads only to instructions of the body, each of which is on
record with the height it is reached with (`Heights.Accepted`). So whatever
follows the successors of a body never leaves it, and the heights on record are
the heights it finds (`Heights.survey_accepted`).

The search looks at one queued instruction after another. On the way, an
instruction on record is queued or has been looked at (`Heights.Explored`), and
the record only grows (`Heights.Extends`), so that what was looked at stays
right.

What this says of an instruction depends on its opcode, in seven cases
(`Heights.Checked`); later files take these cases and look at no opcode table.
-/
import Mathlib
import StackMachine.Heights

namespace StackMachine
namespace Heights

variable {fs : List Function} {body : Code}

/-- The instruction at `pc` is reached with `height` values on the stack: it
finds what it takes, and the places it may go to are on record with the height
after it. Neither height is above `peak`. -/
def Settled (fs : List Function) (body : Code) (heights : List (Option Nat)) (peak pc height : Nat) :
    Prop :=
  ∃ i pops pushes next, body[pc]? = some i ∧ i.effect fs pc = .ok (pops, pushes) ∧ pops ≤ height ∧
    i.successors body.length pc = .ok next ∧
    (∀ n ∈ next, heights[n]? = some (some (height - pops + pushes))) ∧
    height ≤ peak ∧ height - pops + pushes ≤ peak

/-- Heights that fit a body. -/
structure Accepted (fs : List Function) (body : Code) (heights : List (Option Nat)) (peak : Nat) :
    Prop where
  length : heights.length = body.length
  entry : body ≠ [] → heights[0]? = some (some 0)
  settled : ∀ pc h : Nat, heights[pc]? = some (some h) → Settled fs body heights peak pc h

/-! ### The record grows -/

/-- What `a` has on record `b` has, too. -/
def Extends (a b : List (Option Nat)) : Prop :=
  a.length = b.length ∧ ∀ n h : Nat, a[n]? = some (some h) → b[n]? = some (some h)

theorem Extends.refl (a : List (Option Nat)) : Extends a a := ⟨rfl, fun _ _ h => h⟩

theorem Extends.trans {a b c : List (Option Nat)} (h : Extends a b) (h' : Extends b c) :
    Extends a c :=
  ⟨h.1.trans h'.1, fun n k hn => h'.2 n k (h.2 n k hn)⟩

/-- What was looked at stays right, under a greater bound, too. -/
theorem Settled.mono {a b : List (Option Nat)} {peak peak' pc height : Nat} (hab : Extends a b)
    (hp : peak ≤ peak') (h : Settled fs body a peak pc height) :
    Settled fs body b peak' pc height := by
  obtain ⟨i, pops, pushes, next, h1, h2, h3, h4, h5, h6, h7⟩ := h
  exact ⟨i, pops, pushes, next, h1, h2, h3, h4, fun n hn => hab.2 _ _ (h5 n hn), h6.trans hp,
    h7.trans hp⟩

/-- Reaching places puts them on record, queues what is new there, and changes
nothing else. -/
structure Reached (s t : Survey) (height : Nat) (next : List Nat) : Prop where
  ext : Extends s.heights t.heights
  next : ∀ n ∈ next, t.heights[n]? = some (some height)
  new : ∀ n h : Nat, t.heights[n]? = some (some h) → s.heights[n]? = some (some h) ∨ n ∈ t.queue
  queue : ∀ n ∈ s.queue, n ∈ t.queue

theorem reach_ok {s t : Survey} {pc height n : Nat} (h : s.reach pc height n = .ok t) :
    Reached s t height [n] := by
  unfold Survey.reach at h
  split at h
  · cases h
  · rename_i hn
    cases h
    obtain ⟨hlt, hn⟩ := List.getElem?_eq_some_iff.mp hn
    refine ⟨⟨by simp, fun k x hk => ?_⟩, fun k hk => ?_, fun k x hk => ?_, fun k hk => ?_⟩
    · rw [List.getElem?_set]
      split_ifs with he
      · subst he
        rw [List.getElem?_eq_getElem hlt, hn] at hk
        simp at hk
      · exact hk
    · rw [List.mem_singleton.mp hk, List.getElem?_set_self hlt]
    · rw [List.getElem?_set] at hk
      split_ifs at hk with he
      · exact Or.inr (by simp [he])
      · exact Or.inl hk
    · exact List.mem_append_left _ hk
  · rename_i x hn
    split at h
    · rename_i hx
      cases h
      refine ⟨.refl _, fun k hk => ?_, fun k y hk => Or.inl hk, fun k hk => hk⟩
      rw [List.mem_singleton.mp hk, hn, hx]
    · cases h

theorem reachAll_ok {pc height : Nat} {ns : List Nat} {s t : Survey}
    (h : s.reachAll pc height ns = .ok t) : Reached s t height ns := by
  induction ns generalizing s with
  | nil =>
    cases h
    exact ⟨.refl _, by simp, fun k x hk => Or.inl hk, fun k hk => hk⟩
  | cons n ns ih =>
    unfold Survey.reachAll at h
    cases hr : s.reach pc height n with
    | error e => rw [hr] at h; cases h
    | ok u =>
      rw [hr] at h
      have h1 := reach_ok hr
      have h2 := ih h
      refine ⟨h1.ext.trans h2.ext, fun k hk => ?_, fun k x hk => ?_, fun k hk => ?_⟩
      · rcases List.mem_cons.mp hk with rfl | hk
        · exact h2.ext.2 _ _ (h1.next _ (by simp))
        · exact h2.next k hk
      · rcases h2.new k x hk with hu | hq
        · rcases h1.new k x hu with hs | hq
          · exact Or.inl hs
          · exact Or.inr (h2.queue k hq)
        · exact Or.inr hq
      · exact h2.queue k (h1.queue k hk)

/-- What a look at an instruction found. -/
theorem look_ok {s t : Survey} {pc height after : Nat} {i : Instr}
    (h : look fs body s pc height i = .ok (t, after)) :
    ∃ pops pushes next, i.effect fs pc = .ok (pops, pushes) ∧ pops ≤ height ∧
      after = height - pops + pushes ∧ i.successors body.length pc = .ok next ∧
      s.reachAll pc after next = .ok t := by
  unfold look at h
  cases he : i.effect fs pc with
  | error e => rw [he] at h; cases h
  | ok e =>
    obtain ⟨pops, pushes⟩ := e
    rw [he] at h
    simp only [bind, Except.bind, pure, Except.pure] at h
    by_cases hp : height < pops
    · simp only [hp, ↓reduceIte] at h; cases h
    · simp only [hp, ↓reduceIte] at h
      cases hs : i.successors body.length pc with
      | error e => rw [hs] at h; cases h
      | ok next =>
        rw [hs] at h
        cases hr : s.reachAll pc (height - pops + pushes) next with
        | error e => simp only [hr] at h; cases h
        | ok u =>
          simp only [hr] at h
          cases h
          exact ⟨pops, pushes, next, rfl, by omega, rfl, rfl, hr⟩

/-! ### The search -/

/-- What is on record is queued, or was looked at. -/
structure Explored (fs : List Function) (body : Code) (s : Survey) (peak : Nat) : Prop where
  length : s.heights.length = body.length
  seen : ∀ pc h : Nat, s.heights[pc]? = some (some h) → pc ∈ s.queue ∨ Settled fs body s.heights peak pc h

/-- Looking at the first instruction of the queue. -/
theorem Explored.look {s t : Survey} {peak pc height after : Nat} {rest : List Nat} {i : Instr}
    (hI : Explored fs body s peak) (hq : s.queue = pc :: rest)
    (hh : s.heights[pc]? = some (some height)) (hi : body[pc]? = some i)
    (h : look fs body { s with queue := rest } pc height i = .ok (t, after)) :
    Explored fs body t (max (max peak after) height) := by
  obtain ⟨pops, pushes, next, he, hle, rfl, hn, hr⟩ := look_ok h
  have hR := reachAll_ok hr
  have hlen : t.heights.length = body.length := by rw [← hR.ext.1]; exact hI.length
  refine ⟨hlen, fun k x hk => ?_⟩
  by_cases hkp : k = pc
  · subst hkp
    have hx : x = height := by
      have := hR.ext.2 _ _ hh
      rw [hk] at this
      simpa using this
    subst hx
    exact Or.inr ⟨i, pops, pushes, next, hi, he, hle, hn, hR.next, by omega, by omega⟩
  · rcases hR.new k x hk with hs | hq'
    · rcases hI.seen k x hs with hm | hset
      · rw [hq] at hm
        rcases List.mem_cons.mp hm with rfl | hm
        · exact absurd rfl hkp
        · exact Or.inl (hR.queue k hm)
      · exact Or.inr (hset.mono hR.ext (by omega))
    · exact Or.inl hq'

theorem explore_ok {s : Survey} {peak : Nat} {heights : List (Option Nat)} {top : Nat}
    (hI : Explored fs body s peak) (h : explore fs body s peak = .ok (heights, top)) :
    Extends s.heights heights ∧ Explored fs body ⟨heights, []⟩ top := by
  fun_induction explore fs body s peak with
  | case1 s peak hq =>
    cases h
    refine ⟨.refl _, hI.length, fun k x hk => ?_⟩
    have := hI.seen k x hk
    rwa [hq] at this
  | case2 => cases h
  | case3 s peak pc rest hq height i hi hh t after hl ih =>
    have hh' : s.heights[pc]? = some (some height) := by simpa [Option.join_eq_some_iff] using hh
    obtain ⟨h1, h2⟩ := ih (hI.look hq hh' hi hl) h
    obtain ⟨_, _, _, _, _, _, _, hr⟩ := look_ok hl
    exact ⟨(reachAll_ok hr).ext.trans h1, h2⟩
  | case4 s peak pc rest hq hno ih =>
    -- a place that is not on record is never queued; to pass it over is harmless
    refine ih ⟨hI.length, fun k x hk => ?_⟩ h
    rcases hI.seen k x hk with hm | hset
    · rw [hq] at hm
      rcases List.mem_cons.mp hm with rfl | hm
      · have hlt : k < body.length := by
          rw [← hI.length]
          exact (List.getElem?_eq_some_iff.mp hk).1
        exact absurd (List.getElem?_eq_getElem hlt) (hno x _ (by simp [hk]))
      · exact Or.inl hm
    · exact Or.inr hset

/-- **Heights that pass the check fit the body.** -/
theorem survey_accepted {heights : List (Option Nat)} {peak : Nat}
    (h : survey body fs = .ok (heights, peak)) : Accepted fs body heights peak := by
  unfold survey at h
  split at h
  · rename_i he
    cases h
    have hb : body = [] := by simpa using he
    subst hb
    exact ⟨rfl, fun hn => absurd rfl hn, fun pc x hx => by simp at hx⟩
  · rename_i he
    have hb : body ≠ [] := by simpa using he
    have hlen : 0 < body.length := List.length_pos_iff.mpr hb
    have h0 : Explored fs body ⟨some 0 :: List.replicate (body.length - 1) none, [0]⟩ 0 := by
      refine ⟨by simp; omega, fun pc x hx => Or.inl ?_⟩
      cases pc with
      | zero => simp
      | succ pc => simp [List.getElem?_replicate] at hx
    obtain ⟨h1, h2⟩ := explore_ok h0 h
    exact ⟨h2.length, fun _ => h1.2 0 0 (by simp), fun pc x hx => (h2.seen pc x hx).resolve_left (by simp)⟩

/-- The heights behind an accepted maximum. -/
theorem analyze_eq_ok {peak : Nat} (h : analyze body fs = .ok peak) :
    ∃ heights, survey body fs = .ok (heights, peak) := by
  unfold analyze at h
  cases hs : survey body fs with
  | error e => rw [hs] at h; cases h
  | ok x =>
    rw [hs] at h
    cases h
    exact ⟨x.1, rfl⟩

/-! ### By opcode -/

end Heights

/-- Opcodes that go on with the next instruction, whatever they do. -/
def Opcode.movesData : Opcode → Bool
  | jump _ | call | ret | retVoid | halt => false
  | _ => true

theorem Opcode.isJump_of_movesData {op : Opcode} (h : op.movesData = true) : op.isJump = false := by
  cases op
  case jump => cases h
  all_goals rfl

namespace Heights

/-- With `h` operands the instruction at `pc` has those it takes, and control
goes on to places that `E` allows. -/
inductive Enough (fs : List Function) (E : Nat → Nat → Prop) (pc h : Nat) (x : Instr) : Prop
  | data (pops pushes : Nat) (op : x.op.movesData = true)
      (operand : x.op.needsOperand = true → x.operand.isSome = true)
      (effect : Instr.fixedEffect x.op = some (pops, pushes)) (enough : pops ≤ h)
      (next : E (pc + 1) (h - pops + pushes))
  | jump (n : Int64) (t : Nat) (op : x.op = .jump .always) (operand : x.operand = some n)
      (place : Instr.place? n = some t) (next : E t h)
  | branch (b : Bool) (n : Int64) (t : Nat) (op : x.op = .jump (.on b)) (operand : x.operand = some n)
      (place : Instr.place? n = some t) (enough : 1 ≤ h) (next : E (pc + 1) (h - 1))
      (landing : E t (h - 1))
  | call (n : Int64) (k : Nat) (g : Function) (op : x.op = .call) (operand : x.operand = some n)
      (place : Instr.place? n = some k) (callee : fs[k]? = some g) (enough : g.arity ≤ h)
      (next : E (pc + 1) (h - g.arity + if g.returns then 1 else 0))
  | ret (op : x.op = .ret) (enough : 1 ≤ h)
  | retVoid (op : x.op = .retVoid)
  | halt (op : x.op = .halt)

/-- More operands will do as well. -/
theorem Enough.mono {E E' : Nat → Nat → Prop} {pc h h' : Nat} {x : Instr} (hx : Enough fs E pc h x)
    (hle : h ≤ h') (hE : ∀ {t k k'}, E t k → k ≤ k' → E' t k') : Enough fs E' pc h' x := by
  cases hx with
  | data pops pushes hd ho he hen hnext =>
    exact .data pops pushes hd ho he (hen.trans hle) (hE hnext (by omega))
  | jump n t hop hn ht hnext => exact .jump n t hop hn ht (hE hnext hle)
  | branch b n t hop hn ht hen hnext hland =>
    exact .branch b n t hop hn ht (hen.trans hle) (hE hnext (by omega)) (hE hland (by omega))
  | call n k g hop hn hk hg hen hnext =>
    exact .call n k g hop hn hk hg (hen.trans hle) (hE hnext (by omega))
  | ret hop hen => exact .ret hop (hen.trans hle)
  | retVoid hop => exact .retVoid hop
  | halt hop => exact .halt hop

theorem Enough.of_data {E : Nat → Nat → Prop} {pc h pops pushes : Nat} {x : Instr}
    (hx : Enough fs E pc h x) (hd : x.op.movesData = true)
    (he : Instr.fixedEffect x.op = some (pops, pushes)) :
    pops ≤ h ∧ E (pc + 1) (h - pops + pushes) := by
  cases hx with
  | data pops' pushes' _ _ he' hen hnext =>
    obtain ⟨rfl, rfl⟩ := Prod.mk.inj (Option.some.inj (he.symm.trans he'))
    exact ⟨hen, hnext⟩
  | jump _ _ hop | branch _ _ _ hop | call _ _ _ hop | ret hop | retVoid hop | halt hop =>
    rw [hop] at hd
    cases hd

theorem Enough.of_ret {E : Nat → Nat → Prop} {pc h : Nat} {x : Instr} (hx : Enough fs E pc h x)
    (hr : x.op = .ret) : 1 ≤ h := by
  cases hx with
  | ret _ hen => exact hen
  | data _ _ hd => rw [hr] at hd; cases hd
  | jump _ _ hop | branch _ _ _ hop | call _ _ _ hop | retVoid hop | halt hop =>
    rw [hr] at hop
    cases hop

/-- What is known of an instruction that is reached with `h` values on the
stack: it has its operands, and goes on to places on record. -/
abbrev Checked (fs : List Function) (heights : List (Option Nat)) : (pc h : Nat) → Instr → Prop :=
  Enough fs fun t k => heights[t]? = some (some k)

theorem eq_call_of_fixedEffect {op : Opcode} (h : Instr.fixedEffect op = none) : op = .call := by
  cases op
  case jump w => cases w <;> cases h
  case call => rfl
  all_goals cases h

/-- Every effect but that of a call is in the table. -/
theorem effect_of_ne_call {x : Instr} {pc pops pushes : Nat} (hc : x.op ≠ .call)
    (h : x.effect fs pc = .ok (pops, pushes)) :
    Instr.fixedEffect x.op = some (pops, pushes) ∧
      (x.op.needsOperand = true → x.operand.isSome = true) := by
  unfold Instr.effect at h
  split_ifs at h with hn
  refine ⟨?_, fun ho => ?_⟩
  · cases he : Instr.fixedEffect x.op with
    | some e =>
      rw [he] at h
      cases h
      rfl
    | none => exact absurd (eq_call_of_fixedEffect he) hc
  · simp only [ho, Bool.true_and, Bool.not_eq_true] at hn
    simpa [Option.isSome_iff_ne_none] using hn

/-- The place a jump on record lands on. -/
theorem target_ok {x : Instr} {size pc t : Nat}
    (h : Instr.successors.target size pc x = .ok t) :
    ∃ n, x.operand = some n ∧ Instr.place? n = some t := by
  unfold Instr.successors.target at h
  cases ho : x.operand with
  | none => rw [ho] at h; cases h
  | some n =>
    rw [ho] at h
    simp only at h
    cases hf : (Instr.place? n).filter (· ≤ size) with
    | none => rw [hf] at h; cases h
    | some t' =>
      rw [hf] at h
      cases h
      exact ⟨n, rfl, (Option.filter_eq_some_iff.mp hf).1⟩

theorem Settled.checked {heights : List (Option Nat)} {peak pc h : Nat}
    (hs : Settled fs body heights peak pc h) :
    ∃ x, body[pc]? = some x ∧ Checked fs heights pc h x := by
  obtain ⟨x, pops, pushes, next, hx, he, hle, hn, hnext, -, -⟩ := hs
  refine ⟨x, hx, ?_⟩
  cases hop : x.op
  case call =>
    unfold Instr.effect at he
    split_ifs at he with hno
    simp only [hop, Opcode.needsOperand, Bool.true_and, Option.isNone_iff_eq_none] at hno
    obtain ⟨n, ho⟩ := Option.ne_none_iff_exists'.mp hno
    simp only [hop, Instr.fixedEffect, ho, Option.getD_some] at he
    split at he
    · rename_i g hg
      cases he
      obtain ⟨k, hk, hg⟩ := Option.bind_eq_some_iff.mp hg
      have hs : x.successors body.length pc = .ok [pc + 1] := by
        unfold Instr.successors; rw [hop]; rfl
      rw [hs] at hn
      cases hn
      exact .call n k g hop ho hk hg hle (hnext _ (by simp))
    · cases he
  case jump w =>
    obtain ⟨hf, -⟩ := effect_of_ne_call (by rw [hop]; exact Opcode.noConfusion) he
    unfold Instr.successors at hn
    rw [hop] at hn hf
    cases w with
    | always =>
      cases ht : Instr.successors.target body.length pc x with
      | error e => simp only [ht] at hn; cases hn
      | ok t =>
        simp only [ht] at hn
        cases hn
        cases hf
        obtain ⟨n, ho, hp⟩ := target_ok ht
        exact .jump n t hop ho hp (by simpa using hnext t (by simp))
    | on b =>
      cases ht : Instr.successors.target body.length pc x with
      | error e => simp only [ht] at hn; cases hn
      | ok t =>
        simp only [ht] at hn
        cases hn
        cases hf
        obtain ⟨n, ho, hp⟩ := target_ok ht
        exact .branch b n t hop ho hp hle (by simpa using hnext (pc + 1) (by simp))
          (by simpa using hnext t (by simp))
  case ret =>
    obtain ⟨hf, -⟩ := effect_of_ne_call (by rw [hop]; exact Opcode.noConfusion) he
    rw [hop] at hf
    cases hf
    exact .ret hop hle
  case retVoid => exact .retVoid hop
  case halt => exact .halt hop
  all_goals
    obtain ⟨hf, ho⟩ := effect_of_ne_call (by rw [hop]; exact Opcode.noConfusion) he
    have hs : x.successors body.length pc = .ok [pc + 1] := by
      unfold Instr.successors; rw [hop]; rfl
    rw [hs] at hn
    cases hn
    exact .data pops pushes (by rw [hop]; rfl) ho hf hle (hnext _ (by simp))

end Heights
end StackMachine
