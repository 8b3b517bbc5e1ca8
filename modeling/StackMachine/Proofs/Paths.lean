/-
# Paths through a body

The check of heights looks at every instruction once. What it decides is a matter
of paths, and a loop makes for infinitely many. A path starts at the first
instruction with an empty stack and goes on wherever an instruction may lead, both
ways at a conditional jump, as long as the instruction has what it takes.

* `Heights.Path`: where paths arrive, and with how many values on the stack;
* `Heights.Sound`: nothing goes wrong on any path, and paths that meet agree;
* `Heights.Shown`: there is a path, or two, on which what an error says is so;
* `Heights.analyze_exact`: the check passes exactly the bodies that are sound, with
  the greatest height on any path, and what it refuses is shown.

One half is that every path is on record (`Heights.Accepted.path`), as the record
of a body that passes is closed under the ways on from an instruction. The other is
that the record holds nothing but paths, and that no part of the check complains of
anything but what is on a path (`Heights.Judged`).
-/
import Mathlib
import StackMachine.Proofs.Bodies

namespace StackMachine

/-- Control may go on with the next instruction. -/
def Opcode.GoesOn (op : Opcode) : Prop :=
  op ≠ .jump .always ∧ op ≠ .ret ∧ op ≠ .retVoid ∧ op ≠ .halt

instance (op : Opcode) : Decidable op.GoesOn :=
  inferInstanceAs (Decidable (op ≠ .jump .always ∧ op ≠ .ret ∧ op ≠ .retVoid ∧ op ≠ .halt))

namespace Instr

/-- Where control may go after the instruction at `pc`. This is a number, and
need not be the place of an instruction. -/
inductive Leads (x : Instr) (pc : Nat) : Int → Prop
  | next (op : x.op.GoesOn) : Leads x pc (pc + 1)
  | jump {n : Int64} (op : x.op.isJump = true) (operand : x.operand = some n) : Leads x pc n.toInt

/-- With `h` values on the stack the instruction at `pc` finds those it takes, and
leaves `k`. -/
def Carries (fs : List Function) (pc : Nat) (x : Instr) (h k : Nat) : Prop :=
  ∃ pops pushes, x.effect fs pc = .ok (pops, pushes) ∧ pops ≤ h ∧ k = h - pops + pushes

end Instr

namespace Heights

variable {fs : List Function} {body : Code}

/-- A path from the first instruction and the empty stack arrives at `pc` with `h`
values on the stack. -/
inductive Path (fs : List Function) (body : Code) : (pc h : Nat) → Prop
  | start (nonempty : 0 < body.length) : Path fs body 0 0
  | step {pc h k next : Nat} {x : Instr} (path : Path fs body pc h) (fetch : body[pc]? = some x)
      (carries : x.Carries fs pc h k) (leads : x.Leads pc next) (inside : next < body.length) :
      Path fs body next k

/-- On some path there are `m` values on the stack, before or after an instruction. -/
inductive Occurs (fs : List Function) (body : Code) (m : Nat) : Prop
  | before {pc : Nat} (path : Path fs body pc m)
  | after {pc h : Nat} {x : Instr} (path : Path fs body pc h) (fetch : body[pc]? = some x)
      (carries : x.Carries fs pc h m)

/-- Nothing is wrong with an instruction that a path arrives at with `h` values on
the stack. -/
structure Fine (fs : List Function) (body : Code) (pc h : Nat) (x : Instr) : Prop where
  operand : x.op.needsOperand = true → x.operand.isSome = true
  callee : ∀ n, x.op = .call → x.operand = some n → ∃ k g, Instr.place? n = some k ∧ fs[k]? = some g
  enough : ∀ pops pushes, x.effect fs pc = .ok (pops, pushes) → pops ≤ h
  inside : ∀ t, x.Leads pc t → 0 ≤ t ∧ t < body.length

/-- No path comes to anything wrong, and paths that arrive at one instruction
agree on the height. -/
structure Sound (fs : List Function) (body : Code) : Prop where
  fine : ∀ pc h x, Path fs body pc h → body[pc]? = some x → Fine fs body pc h x
  agree : ∀ pc h k, Path fs body pc h → Path fs body pc k → h = k

/-- A path, or two, on which there is what an error tells of. -/
inductive Shown (fs : List Function) (body : Code) : HeightError → Prop
  | underflow {pc h pops pushes : Nat} {x : Instr} (path : Path fs body pc h)
      (fetch : body[pc]? = some x) (effect : x.effect fs pc = .ok (pops, pushes)) (few : h < pops) :
      Shown fs body (.underflow pc x.op pops h)
  | mismatch {pc h k : Nat} (path : Path fs body pc h) (other : Path fs body pc k) (differ : h ≠ k) :
      Shown fs body (.mismatch pc h k)
  | badJump {pc h k : Nat} {x : Instr} {n : Int64} (path : Path fs body pc h)
      (fetch : body[pc]? = some x) (carries : x.Carries fs pc h k) (op : x.op.isJump = true)
      (operand : x.operand = some n) (outside : n.toInt < 0 ∨ body.length < n.toInt) :
      Shown fs body (.badJump pc n body.length)
  | missingOperand {pc h : Nat} {x : Instr} (path : Path fs body pc h) (fetch : body[pc]? = some x)
      (needed : x.op.needsOperand = true) (operand : x.operand = none) :
      Shown fs body (.missingOperand pc x.op)
  | unknownFunction {pc h : Nat} {x : Instr} {n : Int64} (path : Path fs body pc h)
      (fetch : body[pc]? = some x) (op : x.op = .call) (operand : x.operand = some n)
      (unknown : ∀ k, Instr.place? n = some k → fs[k]? = none) :
      Shown fs body (.unknownFunction pc n)
  | fallsOff {pc h k : Nat} {x : Instr} (path : Path fs body pc h) (fetch : body[pc]? = some x)
      (carries : x.Carries fs pc h k) (leads : x.Leads pc body.length) :
      Shown fs body (.fallsOff pc)

/-! ### Successors -/

/-- A jump lands where its operand says, if it has one and that is in the body or
one past its end. -/
theorem target_cases (size pc : Nat) (x : Instr) :
    (x.operand = none ∧ Instr.successors.target size pc x = .error (.missingOperand pc x.op)) ∨
    ∃ n, x.operand = some n ∧
      ((∃ t : Nat, n.toInt = t ∧ t ≤ size ∧ Instr.successors.target size pc x = .ok t) ∨
        ((n.toInt < 0 ∨ size < n.toInt) ∧
          Instr.successors.target size pc x = .error (.badJump pc n size))) := by
  unfold Instr.successors.target
  cases ho : x.operand with
  | none => exact Or.inl ⟨rfl, rfl⟩
  | some n =>
    refine Or.inr ⟨n, rfl, ?_⟩
    by_cases hneg : 0 ≤ n.toInt
    · obtain ⟨t, ht⟩ := Int.eq_ofNat_of_zero_le hneg
      have hplace : Instr.place? n = some t := Instr.place?_eq_some_iff.mpr ht
      by_cases hle : t ≤ size
      · exact Or.inl ⟨t, ht, hle, by simp [hplace, Option.filter, hle]⟩
      · exact Or.inr ⟨by omega, by simp [hplace, Option.filter, hle]⟩
    · have hplace : Instr.place? n = none := if_neg hneg
      exact Or.inr ⟨by omega, by simp [hplace]⟩

theorem successors_of_jump {x : Instr} {w : Branch} (hop : x.op = .jump w) (size pc : Nat) :
    x.successors size pc = (Instr.successors.target size pc x).map fun t =>
      if w = .always then [t] else [pc + 1, t] := by
  unfold Instr.successors
  rw [hop]
  cases w with
  | always => cases Instr.successors.target size pc x <;> rfl
  | on b => cases Instr.successors.target size pc x <;> rfl

theorem successors_of_not_jump {x : Instr} (hj : x.op.isJump = false) (size pc : Nat) :
    x.successors size pc = .ok (if x.op.GoesOn then [pc + 1] else []) := by
  unfold Instr.successors
  cases hop : x.op with
  | jump w => rw [hop] at hj; cases hj
  | _ => rfl

theorem leads_iff {x : Instr} {pc : Nat} {t : Int} :
    x.Leads pc t ↔
      x.op.GoesOn ∧ t = pc + 1 ∨ x.op.isJump = true ∧ ∃ n, x.operand = some n ∧ t = n.toInt := by
  constructor
  · intro h
    cases h with
    | next hop => exact Or.inl ⟨hop, rfl⟩
    | jump hop ho => exact Or.inr ⟨hop, _, ho, rfl⟩
  · rintro (⟨hop, rfl⟩ | ⟨hop, n, ho, rfl⟩)
    · exact .next hop
    · exact .jump hop ho

/-- The successors of an instruction of a body are the places it may go to. None
is further off than one past the end. -/
theorem mem_successors {x : Instr} {size pc : Nat} {next : List Nat} (hpc : pc < size)
    (h : x.successors size pc = .ok next) :
    (∀ t : Int, x.Leads pc t ↔ ∃ n ∈ next, t = n) ∧ ∀ n ∈ next, n ≤ size := by
  have hnext : pc + 1 ≤ size := hpc
  simp only [leads_iff]
  by_cases hj : x.op.isJump = true
  · obtain ⟨w, hop⟩ : ∃ w, x.op = .jump w := by
      cases hop : x.op with
      | jump w => exact ⟨w, rfl⟩
      | _ => rw [hop] at hj; cases hj
    have hgoes : x.op.GoesOn ↔ w ≠ .always := by simp [hop, Opcode.GoesOn]
    rw [successors_of_jump hop] at h
    rcases target_cases size pc x with ⟨ho, ht⟩ | ⟨n, ho, ⟨t, hn, hle, ht⟩ | ⟨-, ht⟩⟩
    · rw [ht] at h
      cases h
    · rw [ht] at h
      obtain rfl := Except.ok.inj h
      by_cases hw : w = .always
      · simp [hgoes, hw, hj, ho, hn, hle]
      · simp [hgoes, hw, hj, ho, hn, hle, hnext]
    · rw [ht] at h
      cases h
  · rw [Bool.not_eq_true] at hj
    rw [successors_of_not_jump hj] at h
    obtain rfl := Except.ok.inj h
    by_cases hgoes : x.op.GoesOn
    · simp [hgoes, hj, hnext]
    · simp [hgoes, hj]

/-! ### What goes wrong is on some path -/

theorem Path.lt_length {pc h : Nat} (hp : Path fs body pc h) : pc < body.length := by
  cases hp with
  | start hpos => exact hpos
  | step _ _ _ _ hin => exact hin

/-- A part of the check: what it finds is `P`, and what it complains of is on some
path. -/
def Judged {α : Type} (fs : List Function) (body : Code) (P : α → Prop) (r : Except HeightError α) :
    Prop :=
  (∀ a, r = .ok a → P a) ∧ ∀ e, r = .error e → Shown fs body e

section Judged

variable {α β : Type} {P : α → Prop} {Q : β → Prop}

theorem judged_ok {a : α} (h : P a) : Judged fs body P (.ok a) :=
  ⟨fun _ ha => Except.ok.inj ha ▸ h, fun _ he => by cases he⟩

theorem judged_error {e : HeightError} (h : Shown fs body e) : Judged fs body P (.error e) :=
  ⟨fun _ ha => (by cases ha), fun _ he => Except.error.inj he ▸ h⟩

theorem Judged.bind {x : Except HeightError α} {f : α → Except HeightError β}
    (hx : Judged fs body P x) (hf : ∀ a, P a → Judged fs body Q (f a)) :
    Judged fs body Q (x >>= f) := by
  cases x with
  | ok a => exact hf a (hx.1 a rfl)
  | error e => exact judged_error (hx.2 e rfl)

end Judged

variable {pc h k : Nat} {x : Instr}

theorem judged_effect (hp : Path fs body pc h) (hx : body[pc]? = some x) :
    Judged fs body (fun e => x.effect fs pc = .ok e) (x.effect fs pc) := by
  refine ⟨fun _ he => he, fun e he => ?_⟩
  unfold Instr.effect at he
  split_ifs at he with hneeds
  · rw [Bool.and_eq_true, Option.isNone_iff_eq_none] at hneeds
    cases he
    exact .missingOperand hp hx hneeds.1 hneeds.2
  · cases hf : Instr.fixedEffect x.op with
    | some e => rw [hf] at he; cases he
    | none =>
      have hop := eq_call_of_fixedEffect hf
      obtain ⟨n, ho⟩ : ∃ n, x.operand = some n := by
        simpa [hop, Opcode.needsOperand, ← Option.ne_none_iff_exists'] using hneeds
      simp only [hf, ho, Option.getD_some] at he
      cases hb : (Instr.place? n).bind fun k => fs[k]? with
      | some g => rw [hb] at he; cases he
      | none =>
        rw [hb] at he
        cases he
        refine .unknownFunction hp hx hop ho fun k hk => ?_
        rwa [hk, Option.bind_some] at hb

theorem judged_successors (hp : Path fs body pc h) (hx : body[pc]? = some x)
    (hc : x.Carries fs pc h k) :
    Judged fs body (fun next => x.successors body.length pc = .ok next)
      (x.successors body.length pc) := by
  refine ⟨fun _ hs => hs, fun e he => ?_⟩
  cases hop : x.op
  case jump w =>
    have hj : x.op.isJump = true := by rw [hop]; rfl
    rw [successors_of_jump hop] at he
    rcases target_cases body.length pc x with ⟨ho, ht⟩ | ⟨n, ho, ⟨t, -, -, ht⟩ | ⟨hout, ht⟩⟩
    · rw [ht] at he
      cases he
      exact .missingOperand hp hx (by rw [hop]; rfl) ho
    · rw [ht] at he
      cases he
    · rw [ht] at he
      cases he
      exact .badJump hp hx hc hj ho hout
  all_goals
    rw [successors_of_not_jump (by rw [hop]; rfl)] at he
    cases he

/-- What is on record was found on some path. -/
structure Recorded (fs : List Function) (body : Code) (heights : List (Option Nat)) : Prop where
  length : heights.length = body.length
  path : ∀ pc h : Nat, heights[pc]? = some (some h) → Path fs body pc h

theorem Recorded.set {heights : List (Option Nat)} (hr : Recorded fs body heights) {next : Nat}
    (hp : Path fs body next k) : Recorded fs body (heights.set next (some k)) := by
  refine ⟨by rw [List.length_set, hr.length], fun pc h hh => ?_⟩
  rw [List.getElem?_set] at hh
  split_ifs at hh with heq hlt
  · simp only [Option.some.injEq] at hh
    rw [← heq, ← hh]
    exact hp
  · exact hr.path pc h hh

/-- The instruction at `pc` goes on to `next`. -/
theorem judged_reach {s : Survey} (hr : Recorded fs body s.heights) (hp : Path fs body pc h)
    (hx : body[pc]? = some x) (hc : x.Carries fs pc h k) {next : Nat} (hl : x.Leads pc next)
    (hle : next ≤ body.length) :
    Judged fs body (fun t => Recorded fs body t.heights) (s.reach pc k next) := by
  unfold Survey.reach
  split
  · rename_i hnone
    have hend : next = body.length := by
      rw [List.getElem?_eq_none_iff, hr.length] at hnone
      omega
    exact judged_error (.fallsOff hp hx hc (hend ▸ hl))
  · rename_i hnew
    have hin : next < body.length := hr.length ▸ (List.getElem?_eq_some_iff.mp hnew).1
    exact judged_ok (hr.set (.step hp hx hc hl hin))
  · rename_i h' hold
    have hin : next < body.length := (hr.path next h' hold).lt_length
    split_ifs with heq
    · exact judged_ok hr
    · exact judged_error (.mismatch (hr.path next h' hold) (.step hp hx hc hl hin) heq)

theorem judged_reachAll {s : Survey} (hr : Recorded fs body s.heights) (hp : Path fs body pc h)
    (hx : body[pc]? = some x) (hc : x.Carries fs pc h k) {next : List Nat}
    (hl : ∀ n ∈ next, x.Leads pc n ∧ n ≤ body.length) :
    Judged fs body (fun t => Recorded fs body t.heights) (s.reachAll pc k next) := by
  induction next generalizing s with
  | nil => exact judged_ok hr
  | cons n ns ih =>
    rw [List.forall_mem_cons] at hl
    exact (judged_reach hr hp hx hc hl.1.1 hl.1.2).bind fun t ht => ih ht hl.2

/-- One instruction is looked at. -/
theorem judged_look {s : Survey} (hr : Recorded fs body s.heights) (hp : Path fs body pc h)
    (hx : body[pc]? = some x) :
    Judged fs body (fun r => Recorded fs body r.1.heights ∧ x.Carries fs pc h r.2)
      (look fs body s pc h x) := by
  unfold look
  refine (judged_effect hp hx).bind ?_
  rintro ⟨pops, pushes⟩ he
  by_cases hfew : h < pops
  · simp only [hfew, ↓reduceIte]
    exact judged_error (.underflow hp hx he hfew)
  · have hc : x.Carries fs pc h (h - pops + pushes) := ⟨pops, pushes, he, not_lt.mp hfew, rfl⟩
    simp only [hfew, ↓reduceIte]
    refine (judged_successors hp hx hc).bind fun next hs => ?_
    have hnext := mem_successors hp.lt_length hs
    have hl : ∀ n ∈ next, x.Leads pc n ∧ n ≤ body.length :=
      fun n hn => ⟨(hnext.1 n).mpr ⟨n, hn, rfl⟩, hnext.2 n hn⟩
    exact (judged_reachAll hr hp hx hc hl).bind fun t ht => judged_ok ⟨ht, hc⟩

/-- **The search**: the record is made of paths, and so are the greatest height and
whatever stops the search. -/
theorem judged_explore {s : Survey} {peak : Nat} (hr : Recorded fs body s.heights)
    (ho : Occurs fs body peak) :
    Judged fs body (fun r => Recorded fs body r.1 ∧ Occurs fs body r.2) (explore fs body s peak) := by
  fun_induction explore fs body s peak with
  | case1 s peak hq => exact judged_ok ⟨hr, ho⟩
  | case2 s peak pc rest hq height x hx hh e hl =>
    have hp := hr.path pc height (by simpa [Option.join_eq_some_iff] using hh)
    exact judged_error ((judged_look (s := ⟨s.heights, rest⟩) hr hp hx).2 e hl)
  | case3 s peak pc rest hq height x hx hh t after hl ih =>
    have hp := hr.path pc height (by simpa [Option.join_eq_some_iff] using hh)
    obtain ⟨ht, hc⟩ := (judged_look (s := ⟨s.heights, rest⟩) hr hp hx).1 _ hl
    refine ih ht ?_
    rcases max_choice (max peak after) height with hmax | hmax
    · rcases max_choice peak after with hmax' | hmax'
      · rwa [hmax, hmax']
      · rw [hmax, hmax']
        exact .after hp hx hc
    · rw [hmax]
      exact .before hp
  | case4 s peak pc rest hq hno ih => exact ih hr ho

theorem judged_survey (hbody : body ≠ []) :
    Judged fs body (fun r => Recorded fs body r.1 ∧ Occurs fs body r.2) (survey body fs) := by
  have hpos : 0 < body.length := List.length_pos_iff.mpr hbody
  have hstart : Path fs body 0 0 := .start hpos
  have hr : Recorded fs body (some 0 :: List.replicate (body.length - 1) none) := by
    refine ⟨by simp; omega, fun pc h hh => ?_⟩
    cases pc with
    | zero =>
      obtain rfl : 0 = h := by simpa using hh
      exact hstart
    | succ pc => simp [List.getElem?_replicate] at hh
  unfold survey
  simp only [List.isEmpty_iff, hbody, ↓reduceIte]
  exact judged_explore hr (.before hstart)

/-! ### Every path is on record -/

/-- What an instruction on record leads to is on record, too. -/
theorem Settled.leads {heights : List (Option Nat)} {peak : Nat}
    (hs : Settled fs body heights peak pc h) (hx : body[pc]? = some x) (hc : x.Carries fs pc h k) :
    k ≤ peak ∧ ∀ t, x.Leads pc t → ∃ n : Nat, t = n ∧ heights[n]? = some (some k) := by
  obtain ⟨y, pops, pushes, next, hy, he, -, hnext, hrecord, -, hpeak⟩ := hs
  obtain rfl : x = y := Option.some.inj (hx.symm.trans hy)
  obtain ⟨pops', pushes', he', -, rfl⟩ := hc
  obtain ⟨rfl, rfl⟩ : pops = pops' ∧ pushes = pushes' := by simpa using he.symm.trans he'
  refine ⟨hpeak, fun t ht => ?_⟩
  have hpc : pc < body.length := (List.getElem?_eq_some_iff.mp hx).1
  obtain ⟨n, hn, rfl⟩ := ((mem_successors hpc hnext).1 t).mp ht
  exact ⟨n, rfl, hrecord n hn⟩

/-- **Every path is on record** where heights fit the body. -/
theorem Accepted.path {heights : List (Option Nat)} {peak : Nat}
    (ha : Accepted fs body heights peak) (hp : Path fs body pc h) :
    heights[pc]? = some (some h) := by
  induction hp with
  | start hpos => exact ha.entry (List.length_pos_iff.mp hpos)
  | @step pc h k next x _ hx hc hl _ ih =>
    obtain ⟨n, heq, hn⟩ := ((ha.settled pc h ih).leads hx hc).2 next hl
    obtain rfl : next = n := by omega
    exact hn

theorem effect_ok {e : Nat × Nat} (h : x.effect fs pc = .ok e) :
    (x.op.needsOperand = true → x.operand.isSome = true) ∧
      ∀ n, x.op = .call → x.operand = some n → ∃ k g, Instr.place? n = some k ∧ fs[k]? = some g := by
  unfold Instr.effect at h
  split_ifs at h with hneeds
  refine ⟨fun hop => ?_, fun n hop ho => ?_⟩
  · simpa [hop, ← Option.ne_none_iff_isSome] using hneeds
  · simp only [hop, Instr.fixedEffect, ho, Option.getD_some] at h
    cases hb : (Instr.place? n).bind fun k => fs[k]? with
    | none => rw [hb] at h; cases h
    | some g =>
      obtain ⟨k, hk, hg⟩ := Option.bind_eq_some_iff.mp hb
      exact ⟨k, g, hk, hg⟩

/-- Where heights fit the body, nothing goes wrong on any path. -/
theorem Accepted.sound {heights : List (Option Nat)} {peak : Nat}
    (ha : Accepted fs body heights peak) : Sound fs body where
  fine pc h x hp hx := by
    obtain ⟨y, pops, pushes, -, hy, he, hle, -⟩ := ha.settled pc h (ha.path hp)
    obtain rfl : x = y := Option.some.inj (hx.symm.trans hy)
    refine ⟨(effect_ok he).1, (effect_ok he).2, fun pops' pushes' he' => ?_, fun t ht => ?_⟩
    · obtain ⟨rfl, -⟩ : pops = pops' ∧ pushes = pushes' := by simpa using he.symm.trans he'
      exact hle
    · have hs := ha.settled pc h (ha.path hp)
      obtain ⟨n, rfl, hn⟩ := (hs.leads hx ⟨pops, pushes, he, hle, rfl⟩).2 t ht
      have hin : n < heights.length := (List.getElem?_eq_some_iff.mp hn).1
      rw [ha.length] at hin
      omega
  agree pc h k hp hq := by
    have := (ha.path hp).symm.trans (ha.path hq)
    simpa using this

/-- No height on a path is above the greatest that was found. -/
theorem Accepted.le_peak {heights : List (Option Nat)} {peak m : Nat}
    (ha : Accepted fs body heights peak) (ho : Occurs fs body m) : m ≤ peak := by
  cases ho with
  | before hp =>
    obtain ⟨_, _, _, _, _, _, _, _, _, hle, -⟩ := ha.settled _ _ (ha.path hp)
    exact hle
  | after hp hx hc => exact ((ha.settled _ _ (ha.path hp)).leads hx hc).1

/-- Where nothing goes wrong there is no path to show an error. -/
theorem Sound.not_shown (hs : Sound fs body) {e : HeightError} : ¬ Shown fs body e := by
  intro he
  cases he with
  | underflow hp hx heff hfew =>
    have := (hs.fine _ _ _ hp hx).enough _ _ heff
    omega
  | mismatch hp hq hne => exact hne (hs.agree _ _ _ hp hq)
  | badJump hp hx _ hop ho hout =>
    have := (hs.fine _ _ _ hp hx).inside _ (.jump hop ho)
    omega
  | missingOperand hp hx hneeds ho =>
    have := (hs.fine _ _ _ hp hx).operand hneeds
    rw [ho] at this
    cases this
  | unknownFunction hp hx hop ho hunknown =>
    obtain ⟨k, g, hk, hg⟩ := (hs.fine _ _ _ hp hx).callee _ hop ho
    rw [hunknown k hk] at hg
    cases hg
  | fallsOff hp hx _ hl =>
    have := (hs.fine _ _ _ hp hx).inside _ hl
    omega

/-- **The check of heights is exact.** A body that is not empty passes if and only
if nothing goes wrong on any path through it and paths that meet agree on the
height. The number it comes to is then the greatest height on any path, before or
after an instruction. If it does not pass, some path, or two for heights that do not
agree, shows what the error says, where it says. -/
theorem analyze_exact (fs : List Function) {body : Code} (hbody : body ≠ []) :
    ((∃ m, analyze body fs = .ok m) ↔ Sound fs body) ∧
    (∀ m, analyze body fs = .ok m → IsGreatest {k | Occurs fs body k} m) ∧
    ∀ e, analyze body fs = .error e → Shown fs body e := by
  have hshown : ∀ e, analyze body fs = .error e → Shown fs body e := by
    intro e he
    apply (judged_survey hbody).2 e
    unfold analyze at he
    cases hs : survey body fs with
    | error e' => rw [hs] at he; cases he; rfl
    | ok r => rw [hs] at he; cases he
  refine ⟨⟨?_, fun hs => ?_⟩, fun m hm => ?_, hshown⟩
  · rintro ⟨m, hm⟩
    obtain ⟨heights, hs⟩ := analyze_eq_ok hm
    exact (survey_accepted hs).sound
  · cases hr : analyze body fs with
    | ok m => exact ⟨m, rfl⟩
    | error e => exact absurd (hshown e hr) hs.not_shown
  · obtain ⟨heights, hs⟩ := analyze_eq_ok hm
    exact ⟨((judged_survey hbody).1 _ hs).2, fun k hk => (survey_accepted hs).le_peak hk⟩

/-- A loop that counts up to three, with a value set aside during each round, and a
tail that is never reached and would take a value that is not there. -/
def countingUp : Code :=
  [⟨.pushInt, some 0⟩, ⟨.storeLocal, some 0⟩, ⟨.loadLocal, some 0⟩, ⟨.pushInt, some 3⟩,
   ⟨.binary .lt, none⟩, ⟨.jump (.on false), some 11⟩, ⟨.loadLocal, some 0⟩, ⟨.pushInt, some 1⟩,
   ⟨.binary .add, none⟩, ⟨.storeLocal, some 0⟩, ⟨.jump .always, some 2⟩, ⟨.retVoid, none⟩,
   ⟨.pop, none⟩]

/-- Two ways to the last instruction, one of them with a value more. -/
def unevenWays : Code :=
  [⟨.pushBool true, none⟩, ⟨.jump (.on true), some 3⟩, ⟨.pushInt, some 1⟩, ⟨.retVoid, none⟩]

/-- The loop passes with its greatest height, and the two ways are what is shown
against the other body. -/
theorem analyze_exact_cases :
    (Sound [] countingUp ∧ IsGreatest {k | Occurs [] countingUp k} 2) ∧
      Shown [] unevenWays (.mismatch 3 0 1) ∧ ¬ Sound [] unevenWays := by
  have hloop : analyze countingUp [] = .ok 2 := by cbv
  have hways : analyze unevenWays [] = .error (.mismatch 3 0 1) := by cbv
  obtain ⟨hsound, hgreatest, -⟩ := analyze_exact [] (show countingUp ≠ [] by decide)
  obtain ⟨hsound', -, hshown⟩ := analyze_exact [] (show unevenWays ≠ [] by decide)
  refine ⟨⟨hsound.mp ⟨2, hloop⟩, hgreatest 2 hloop⟩, hshown _ hways, fun hs => ?_⟩
  obtain ⟨m, hm⟩ := hsound'.mpr hs
  rw [hways] at hm
  cases hm

end Heights
end StackMachine
