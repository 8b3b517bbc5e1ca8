/-
# One scan is enough

Each pass goes over a body once, and looks again only at the end of what it has put
out. In the output all places have moved, and with them the places that jumps land on.
Still a second scan finds nothing to do. An instruction that was added as it is covers
what comes before it for good, so the output is stable: adding its instructions once
more, one after the other, changes nothing. And no jump is lost, so what was landed on
is landed on where it has gone to.

* `Peephole.Stable`: an output that would be put out again as it is;
* `Peephole.Scan`: what the passes have in common; `Scan.stable_again` is what follows
  for their output, and `code_of_stable` that stable code stays as it is;
* `Peephole.one_scan_enough`: both passes, and what is not in their output.
-/
import Mathlib
import StackMachine.Proofs.Renumbering
import StackMachine.Proofs.Sharing

namespace StackMachine
namespace Peephole

/-! ### Outputs that stay as they are -/

/-- Every instruction of an output, newest first, is added as it is to what comes
before it. -/
inductive Stable (step : List Traced → Traced → List Traced) : List Traced → Prop
  | nil : Stable step []
  | cons {t : Traced} {out : List Traced} (last : step out t = t :: out)
      (rest : Stable step out) : Stable step (t :: out)

namespace Stable

variable {step : List Traced → Traced → List Traced} {out : List Traced}

theorem tail {t : Traced} (h : Stable step (t :: out)) : Stable step out := by
  cases h with
  | cons _ rest => exact rest

theorem of_append {new : List Traced} (h : Stable step (new ++ out)) : Stable step out := by
  induction new with
  | nil => exact h
  | cons t new ih => exact ih h.tail

/-- It is put out again. -/
theorem foldl_eq (h : Stable step out) : out.reverse.foldl step [] = out := by
  induction h with
  | nil => rfl
  | cons last _ ih =>
    rw [List.reverse_cons, List.foldl_append, ih]
    exact last

/-- Each instruction was added to all that comes before it. -/
theorem step_eq {l : List Traced} (h : Stable step l.reverse) {k : Nat} {t : Traced}
    (ht : l[k]? = some t) : step (l.take k).reverse t = t :: (l.take k).reverse := by
  have hsplit : l = l.take k ++ t :: l.drop (k + 1) := by
    obtain ⟨hk, rfl⟩ := List.getElem?_eq_some_iff.mp ht
    rw [← List.drop_eq_getElem_cons hk, List.take_append_drop]
  have hrev : l.reverse = (l.drop (k + 1)).reverse ++ t :: (l.take k).reverse := by
    conv_lhs => rw [hsplit]
    simp
  rw [hrev] at h
  cases h.of_append with
  | cons last _ => exact last

end Stable

theorem take_succ_trace {body : Code} {k : Nat} {x : Instr} (hx : body[k]? = some x) :
    ((trace body).take (k + 1)).reverse = ⟨x, k⟩ :: ((trace body).take k).reverse := by
  simp [List.take_add_one, getElem?_trace_of_fetch hx]

/-! ### Scans -/

/-- What has become of an instruction: it is the same but for where it jumps to, and
is landed on if it was. -/
structure Carries (landed landed' : List Nat) (t t' : Traced) : Prop where
  like : t'.instr.Like t.instr
  lands : t.origin ∈ landed → t'.origin ∈ landed'

/-- What the step of a pass, which adds an instruction to an output, has to do with
jumps and with what is landed on. -/
structure Scan (step : List Nat → List Traced → Traced → List Traced) : Prop where
  /-- No jump is lost. -/
  jump : ∀ {landed out t u}, u ∈ t :: out → u.instr.op.isJump = true → u ∈ step landed out t
  stable : ∀ {landed out t}, Stable (step landed) out → Stable (step landed) (step landed out t)
  /-- What is added as it is still is when it has moved and more is landed on. -/
  carry : ∀ {landed landed' out out' t t'}, List.Forall₂ (Carries landed landed') out out' →
    Carries landed landed' t t' → step landed out t = t :: out → step landed' out' t' = t' :: out'

/-- The output of a scan before its jumps are moved. -/
def scanned (step : List Nat → List Traced → Traced → List Traced) (body : Code) : List Traced :=
  ((trace body).foldl (step (landings body)) []).reverse

theorem retarget_range (n : Nat) (x : Instr) : retarget n (List.range n) x = x := by
  by_cases hin : ∃ t, landing? x = some t ∧ t ≤ n
  · obtain ⟨t, ht, hle⟩ := hin
    have hcount : (List.range n).countP (· < t) = t := by
      apply le_antisymm (countP_lt_le List.nodup_range t)
      by_contra hlt
      have hj : (List.range n).countP (· < t) < n := by omega
      have hget := List.getElem?_range hj
      have := (lt_countP_iff List.pairwise_lt_range hget t).mpr (by omega)
      omega
    obtain ⟨-, m, hm, hplace⟩ := landing?_eq_some_iff.mp ht
    have hword : Int64.ofNat t = m := by
      have hint : m.toInt = t := Instr.place?_eq_some_iff.mp hplace
      rw [← Int64.ofInt_eq_ofNat, ← hint, Int64.ofInt_toInt]
    rw [retarget_inside ht hle, hcount, hword, ← hm]
  · exact retarget_outside fun t ht => by
      by_contra hle
      exact hin ⟨t, ht, by omega⟩

/-- **Stable code stays as it is.** -/
theorem code_of_stable {step : List Nat → List Traced → Traced → List Traced} {body : Code}
    (h : Stable (step (landings body)) (trace body).reverse) :
    code (remap body.length (scanned step body)) = body := by
  have hsame : scanned step body = trace body := by
    have hfoldl := h.foldl_eq
    rw [List.reverse_reverse] at hfoldl
    rw [scanned, hfoldl, List.reverse_reverse]
  have horigins : (trace body).map Traced.origin = List.range body.length := by
    apply List.ext_getElem?
    intro k
    rw [List.getElem?_map, getElem?_trace]
    by_cases hk : k < body.length
    · simp [hk]
    · simp [hk]
  apply List.ext_getElem?
  intro k
  rw [hsame, code, remap, List.map_map, List.getElem?_map, getElem?_trace, horigins]
  cases body[k]? with
  | none => rfl
  | some x => simp [retarget_range]

namespace Scan

variable {step : List Nat → List Traced → Traced → List Traced} {landed landed' : List Nat}
  {body : Code}

theorem stable_foldl (h : Scan step) (l : List Traced) {out : List Traced}
    (hout : Stable (step landed) out) : Stable (step landed) (l.foldl (step landed) out) := by
  induction l generalizing out with
  | nil => exact hout
  | cons t l ih => exact ih (h.stable hout)

theorem jump_foldl (h : Scan step) (l : List Traced) {out : List Traced} {u : Traced}
    (hu : u ∈ l ∨ u ∈ out) (hj : u.instr.op.isJump = true) : u ∈ l.foldl (step landed) out := by
  induction l generalizing out with
  | nil => simpa using hu
  | cons t l ih =>
    apply ih
    rcases hu with hu | hu
    · rcases List.mem_cons.mp hu with rfl | hu
      · exact Or.inr (h.jump List.mem_cons_self hj)
      · exact Or.inl hu
    · exact Or.inr (h.jump (List.mem_cons_of_mem _ hu) hj)

theorem stable_carry (h : Scan step) {out out' : List Traced} (hs : Stable (step landed) out)
    (hout : List.Forall₂ (Carries landed landed') out out') : Stable (step landed') out' := by
  induction hs generalizing out' with
  | nil =>
    cases hout
    exact .nil
  | cons last _ ih =>
    cases hout with
    | cons ht hout => exact .cons (h.carry hout ht last) (ih hout)

/-- A jump of the body is in the output, and lands where its target has gone to. -/
theorem mem_landings (h : Scan step) (hs : Selects body (remap body.length (scanned step body)))
    {j k : Nat} (hk : k ∈ landings body)
    (hj : ((scanned step body).map Traced.origin)[j]? = some k) :
    j ∈ landings (code (remap body.length (scanned step body))) := by
  have horigins : (remap body.length (scanned step body)).map Traced.origin =
      (scanned step body).map Traced.origin := by
    rw [remap, List.map_map]
    rfl
  have hsorted := hs.sorted
  have hlt := hs.origin_lt
  rw [horigins] at hsorted hlt
  have hmem : k ∈ (scanned step body).map Traced.origin := List.mem_of_getElem? hj
  have hcount : ((scanned step body).map Traced.origin).countP (· < k) = j := by
    have hget := getElem?_countP hsorted hmem
    have hbound := (List.getElem?_eq_some_iff.mp hget).1
    exact (List.getElem?_inj hbound (hsorted.imp Nat.ne_of_lt)).mp (hget.trans hj.symm)
  obtain ⟨x, hx, hland⟩ := List.mem_filterMap.mp hk
  obtain ⟨i, hi⟩ := List.mem_iff_getElem?.mp hx
  have hjump := (landing?_eq_some_iff.mp hland).1
  have hkept : (⟨x, i⟩ : Traced) ∈ scanned step body := by
    have htrace : (⟨x, i⟩ : Traced) ∈ trace body :=
      List.mem_of_getElem? (getElem?_trace_of_fetch hi)
    exact List.mem_reverse.mpr (h.jump_foldl _ (Or.inl htrace) hjump)
  obtain ⟨m, hm, hplace⟩ := retarget_of_jump (hsorted.imp Nat.ne_of_lt) hland (hlt k hmem).le
  refine List.mem_filterMap.mpr ⟨⟨x.op, some m⟩, ?_, ?_⟩
  · rw [code, remap, List.map_map]
    exact List.mem_map.mpr ⟨_, hkept, hm⟩
  · rw [hcount] at hplace
    exact landing?_eq_some_iff.mpr ⟨hjump, m, rfl, hplace⟩

/-- **The output is stable**, also with its jumps moved and looked at as code. -/
theorem stable_again (h : Scan step) (hs : Selects body (remap body.length (scanned step body))) :
    Stable (step (landings (code (remap body.length (scanned step body)))))
      (trace (code (remap body.length (scanned step body)))).reverse := by
  have hcarries : List.Forall₂
      (Carries (landings body) (landings (code (remap body.length (scanned step body)))))
      (scanned step body) (trace (code (remap body.length (scanned step body)))) := by
    rw [List.forall₂_iff_get]
    refine ⟨by simp [length_trace, code, remap], fun j hj hj' => ?_⟩
    have hold : (scanned step body)[j]? = some ((scanned step body).get ⟨j, hj⟩) :=
      List.getElem?_eq_getElem hj
    have hnew : (trace (code (remap body.length (scanned step body))))[j]? =
        some ((trace (code (remap body.length (scanned step body)))).get ⟨j, hj'⟩) :=
      List.getElem?_eq_getElem hj'
    generalize (scanned step body).get ⟨j, hj⟩ = t at hold
    generalize (trace (code (remap body.length (scanned step body)))).get ⟨j, hj'⟩ = t' at hnew
    rw [getElem?_trace, code, remap, List.map_map, List.getElem?_map, hold] at hnew
    cases hnew
    refine ⟨like_retarget .., fun hland => h.mem_landings hs hland ?_⟩
    rw [List.getElem?_map, hold]
    rfl
  refine h.stable_carry ?_ (List.forall₂_reverse_iff.mpr hcarries)
  rw [scanned, List.reverse_reverse]
  exact h.stable_foldl _ .nil

end Scan

/-! ### Folding -/

variable {body : Code} {landed landed' : List Nat} {t : Traced} {out : List Traced}

theorem Folds.folded?_eq {u : Traced} {rest : List Traced} (h : Folds landed t out u rest) :
    folded? landed t out = some (u, rest) := by
  cases h with
  | binary hop hi ho hl hr hv hp =>
    simp [folded?, hop, hi, ho, hl, hr, hv, hp, Except.toOption]
  | @unary operand rest b w v i hop ho hw hv hp =>
    have hunary : folded?.unary? landed t b operand rest = some (⟨i, operand.origin⟩, rest) := by
      simp [folded?.unary?, ho, hw, hv, hp, Except.toOption]
    cases rest with
    | nil => simpa [folded?, hop] using hunary
    | cons left rest => simpa [folded?, hop] using hunary

theorem Folds.length_lt {u : Traced} {rest : List Traced} (h : Folds landed t out u rest) :
    rest.length < out.length := by
  cases h with
  | binary => simp
  | unary => simp

/-- An instruction is added as it is exactly if there is nothing to fold. -/
theorem foldStep_eq_cons_iff :
    foldStep landed out t = t :: out ↔ ∀ u rest, ¬ Folds landed t out u rest := by
  constructor
  · intro h u rest hf
    rw [foldStep, hf.folded?_eq] at h
    have hrest : rest = out := (List.cons.inj h).2
    have hlt := hf.length_lt
    rw [hrest] at hlt
    exact lt_irrefl _ hlt
  · intro h
    rw [foldStep]
    cases hf : folded? landed t out with
    | none => rfl
    | some p => exact absurd (folded?_folds hf) (h p.1 p.2)

/-- A push is added as it is. -/
theorem foldStep_of_push {v : Value} {i : Instr} (hp : pushOf? v = some i) (k : Nat) :
    foldStep landed out ⟨i, k⟩ = ⟨i, k⟩ :: out := by
  rw [foldStep_eq_cons_iff]
  rcases folded_of_pushOf? hp with ⟨n, rfl⟩ | ⟨b, rfl⟩
  · intro u rest hf
    cases hf with
    | binary hop => cases hop
    | unary hop => cases hop
  · intro u rest hf
    cases hf with
    | binary hop => cases hop
    | unary hop => cases hop

/-- What can be folded after it was carried could be before. -/
theorem Folds.carried {t' u' : Traced} {out' rest' : List Traced}
    (hout : List.Forall₂ (Carries landed landed') out out') (ht : Carries landed landed' t t')
    (h : Folds landed' t' out' u' rest') : ∃ u rest, Folds landed t out u rest := by
  have hconstant : ∀ {s s' : Traced} {v : Value}, Carries landed landed' s s' →
      constant? s'.instr = some v → constant? s.instr = some v := by
    intro s s' v hs hv
    have hj : s.instr.op.isJump = false := by
      rw [← hs.like.op]
      exact isJump_of_constant hv
    rwa [hs.like.eq_of_not_jump hj] at hv
  cases h with
  | binary hop hi ho hl hr hv hp =>
    obtain ⟨right, _, hright, htail, rfl⟩ := List.forall₂_cons_right_iff.mp hout
    obtain ⟨left, rest, hleft, -, rfl⟩ := List.forall₂_cons_right_iff.mp htail
    exact ⟨_, _, .binary (ht.like.op ▸ hop) (mt hright.lands hi) (mt ht.lands ho)
      (hconstant hleft hl) (hconstant hright hr) hv hp⟩
  | unary hop ho hw hv hp =>
    obtain ⟨operand, rest, hoperand, -, rfl⟩ := List.forall₂_cons_right_iff.mp hout
    exact ⟨_, _, .unary (ht.like.op ▸ hop) (mt ht.lands ho) (hconstant hoperand hw) hv hp⟩

theorem isJump_of_operator {x : Instr} (h : (∃ b, x.op = .binary b) ∨ ∃ u, x.op = .unary u) :
    x.op.isJump = false := by
  rcases h with ⟨b, hop⟩ | ⟨u, hop⟩
  · rw [hop]
    rfl
  · rw [hop]
    rfl

theorem scan_foldStep : Scan foldStep where
  jump {landed out t u} hu hj := by
    have hne : ∀ {s : Traced}, s.instr.op.isJump = false → u ≠ s := by
      rintro s hs rfl
      rw [hs] at hj
      cases hj
    rw [foldStep]
    rcases hf : folded? landed t out with _ | ⟨s, rest⟩
    · exact hu
    · cases folded?_folds hf with
      | binary hop hi ho hl hr =>
        have ht := hne (isJump_of_operator (Or.inl ⟨_, hop⟩))
        have hright := hne (isJump_of_constant hr)
        have hleft := hne (isJump_of_constant hl)
        exact List.mem_cons_of_mem _ (by simpa [ht, hright, hleft] using hu)
      | unary hop ho hw =>
        have ht := hne (isJump_of_operator (Or.inr ⟨_, hop⟩))
        have hoperand := hne (isJump_of_constant hw)
        exact List.mem_cons_of_mem _ (by simpa [ht, hoperand] using hu)
  stable {landed out t} hs := by
    rcases hf : folded? landed t out with _ | ⟨s, rest⟩
    · have hadd : foldStep landed out t = t :: out := by rw [foldStep, hf]
      rw [hadd]
      exact .cons hadd hs
    · rw [foldStep, hf]
      cases folded?_folds hf with
      | binary hop hi ho hl hr hv hp => exact .cons (foldStep_of_push hp _) hs.tail.tail
      | unary hop ho hw hv hp => exact .cons (foldStep_of_push hp _) hs.tail
  carry {landed landed' out out' t t'} hout ht h := by
    rw [foldStep_eq_cons_iff] at h ⊢
    intro u' rest' hf
    obtain ⟨u, rest, hf⟩ := hf.carried hout ht
    exact h u rest hf

theorem stable_fold (body : Code) :
    Stable (foldStep (landings (code (fold body)))) (trace (code (fold body))).reverse :=
  scan_foldStep.stable_again (selects_fold body)

/-- What is computed from constants can be pushed. -/
theorem Computes.exists_push {j k : Nat} {v : Value} (h : Computes body j k v) :
    ∃ i, pushOf? v = some i := by
  have hpush : (∀ a, v ≠ .ref a) → ∃ i, pushOf? v = some i := by
    intro hv
    cases v with
    | int n => exact ⟨_, rfl⟩
    | bool b => exact ⟨_, rfl⟩
    | ref a => exact absurd rfl (hv a)
  apply hpush
  rintro a rfl
  cases h with
  | @push _ x _ hx hv =>
    obtain ⟨op, operand⟩ := x
    cases op with
    | pushInt => simp [constant?] at hv
    | _ => cases hv
  | binary _ _ _ _ hv => exact Binary.within_eval (S := ∅) hv a rfl
  | unary _ _ _ hv => exact Unary.within_eval (S := ∅) hv a rfl

/-- What computes a constant in one instruction is a push. -/
theorem Computes.fetch_of_one {j : Nat} {v : Value} (h : Computes body j (j + 1) v) :
    ∃ x, body[j]? = some x ∧ constant? x = some v := by
  cases h with
  | push hx hv => exact ⟨_, hx, hv⟩
  | binary hl hr =>
    have hlt := hl.lt.trans hr.lt
    omega
  | unary hw =>
    have hlt := hw.lt
    omega

/-- In stable code, whatever computes a constant is one push. -/
theorem Computes.eq_of_stable (hs : Stable (foldStep (landings body)) (trace body).reverse)
    {j k : Nat} {v : Value} (h : Computes body j k v) : k = j + 1 := by
  -- the first operator of a longer stretch comes right after pushes, and was added
  induction h with
  | push => rfl
  | @binary j i k x b l r v hl hr hx hop hv hi ho ihl ihr =>
    obtain rfl := ihl
    obtain rfl := ihr
    obtain ⟨y, hp⟩ := (Computes.binary hl hr hx hop hv hi ho).exists_push
    obtain ⟨left, hleft, hl⟩ := hl.fetch_of_one
    obtain ⟨right, hright, hr⟩ := hr.fetch_of_one
    have hadd := hs.step_eq (getElem?_trace_of_fetch hx)
    rw [take_succ_trace hright, take_succ_trace hleft, foldStep_eq_cons_iff] at hadd
    exact absurd (.binary hop hi ho hl hr hv hp) (hadd _ _)
  | @unary j k x u w v hw hx hop hv ho ih =>
    obtain rfl := ih
    obtain ⟨y, hp⟩ := (Computes.unary hw hx hop hv ho).exists_push
    obtain ⟨operand, hoperand, hw⟩ := hw.fetch_of_one
    have hadd := hs.step_eq (getElem?_trace_of_fetch hx)
    rw [take_succ_trace hoperand, foldStep_eq_cons_iff] at hadd
    exact absurd (.unary hop ho hw hv hp) (hadd _ _)

/-! ### Elimination -/

/-- An instruction is added as it is unless it pops what was pushed just before. -/
theorem eliminateStep_eq_cons_iff :
    eliminateStep landed out t = t :: out ↔
      ∀ u rest, out = u :: rest → t.instr.op = .pop → onlyPushes u.instr = true →
        t.origin ∈ landed := by
  unfold eliminateStep
  split_ifs with h
  · have hland : t.origin ∉ landed := by simpa using h.2
    cases out with
    | nil => simp
    | cons u rest =>
      simp only [List.cons.injEq]
      split_ifs with hu
      · constructor
        · intro heq
          have hlength := congrArg List.length heq
          simp only [List.length_cons] at hlength
          omega
        · intro hall
          exact absurd (hall u rest ⟨rfl, rfl⟩ h.1 hu) hland
      · simp only [true_iff]
        rintro u' rest' ⟨rfl, rfl⟩ - hu'
        exact absurd hu' hu
  · simp only [true_iff]
    rintro u rest rfl hop -
    by_contra hland
    exact h ⟨hop, by simpa using hland⟩

theorem scan_eliminateStep : Scan eliminateStep where
  jump {landed out t u} hu hj := by
    rcases eliminateStep_cases landed out t with h | ⟨prev, rest, rfl, hop, hprev, h⟩
    · rw [h]
      exact hu
    · rw [h]
      have hlast : u ≠ t := by
        rintro rfl
        rw [hop] at hj
        cases hj
      have hpush : u ≠ prev := by
        rintro rfl
        revert hprev hj
        unfold onlyPushes
        cases u.instr.op <;> simp [Opcode.isConstantPush, Opcode.isJump]
      simpa [hlast, hpush] using hu
  stable {landed out t} hs := by
    rcases eliminateStep_cases landed out t with h | ⟨prev, rest, rfl, -, -, h⟩
    · rw [h]
      exact .cons h hs
    · rw [h]
      exact hs.tail
  carry {landed landed' out out' t t'} hout ht h := by
    rw [eliminateStep_eq_cons_iff] at h ⊢
    rintro u' rest' rfl hop hu'
    obtain ⟨u, rest, hu, -, rfl⟩ := List.forall₂_cons_right_iff.mp hout
    have hpushes : onlyPushes u.instr = true := by
      rwa [onlyPushes, ← hu.like.op]
    exact ht.lands (h u rest rfl (ht.like.op ▸ hop) hpushes)

theorem stable_eliminate (body : Code) :
    Stable (eliminateStep (landings (code (eliminate body))))
      (trace (code (eliminate body))).reverse :=
  scan_eliminateStep.stable_again (selects_eliminate body)

/-- In stable code, a pop right after a push is landed on. -/
theorem landed_of_stable (hs : Stable (eliminateStep (landings body)) (trace body).reverse)
    {k : Nat} {x y : Instr} (hx : body[k]? = some x) (hy : body[k + 1]? = some y)
    (hpush : onlyPushes x = true) (hpop : y.op = .pop) : k + 1 ∈ landings body := by
  have hadd := hs.step_eq (getElem?_trace_of_fetch hy)
  rw [take_succ_trace hx, eliminateStep_eq_cons_iff] at hadd
  exact hadd _ _ rfl hpop hpush

/-! ### Both passes -/

/-- **Each pass comes to an end in one scan.** For every body, whatever its jumps and
operands, a second scan changes nothing. After folding, whatever computes a constant
without being landed on in between is one push; after elimination, nothing is pushed
and popped at once but where a jump lands on the pop. -/
theorem one_scan_enough (body : Code) :
    code (fold (code (fold body))) = code (fold body) ∧
    code (eliminate (code (eliminate body))) = code (eliminate body) ∧
    (∀ j k v, Computes (code (fold body)) j k v → k = j + 1) ∧
    ∀ (k : Nat) (x y : Instr), (code (eliminate body))[k]? = some x →
      (code (eliminate body))[k + 1]? = some y → onlyPushes x = true → y.op = .pop →
      k + 1 ∈ landings (code (eliminate body)) := by
  have hfold := stable_fold body
  have heliminate := stable_eliminate body
  exact ⟨code_of_stable hfold, code_of_stable heliminate, fun j k v h => h.eq_of_stable hfold,
    fun k x y hx hy => landed_of_stable heliminate hx hy⟩

/-- A sum that is negated, a jump to the right operand of another sum, a pop that is
jumped to right after a push, and two pushes that are popped one after the other. -/
def cascading : Code :=
  [⟨.jump .always, some 5⟩, ⟨.pushInt, some 1⟩, ⟨.pushInt, some 2⟩, ⟨.binary .add, none⟩,
   ⟨.unary .neg, none⟩, ⟨.pushInt, some 4⟩, ⟨.binary .add, none⟩, ⟨.pushBool true, none⟩,
   ⟨.pop, none⟩, ⟨.jump .always, some 8⟩, ⟨.dup, none⟩, ⟨.pushBool false, none⟩, ⟨.pop, none⟩,
   ⟨.pop, none⟩]

theorem one_scan_enough_cascading :
    code (fold cascading) =
        [⟨.jump .always, some 2⟩, ⟨.pushInt, some (-3)⟩, ⟨.pushInt, some 4⟩, ⟨.binary .add, none⟩,
         ⟨.pushBool true, none⟩, ⟨.pop, none⟩, ⟨.jump .always, some 5⟩, ⟨.dup, none⟩,
         ⟨.pushBool false, none⟩, ⟨.pop, none⟩, ⟨.pop, none⟩] ∧
      code (fold (code (fold cascading))) = code (fold cascading) ∧
      code (eliminate cascading) =
        [⟨.jump .always, some 5⟩, ⟨.pushInt, some 1⟩, ⟨.pushInt, some 2⟩, ⟨.binary .add, none⟩,
         ⟨.unary .neg, none⟩, ⟨.pushInt, some 4⟩, ⟨.binary .add, none⟩, ⟨.pushBool true, none⟩,
         ⟨.pop, none⟩, ⟨.jump .always, some 8⟩] ∧
      code (eliminate (code (eliminate cascading))) = code (eliminate cascading) ∧
      8 ∈ landings (code (eliminate cascading)) := by
  obtain ⟨hfold, heliminate, -, hlanded⟩ := one_scan_enough cascading
  refine ⟨by decide +kernel, hfold, by decide +kernel, heliminate, ?_⟩
  exact hlanded 7 ⟨.pushBool true, none⟩ ⟨.pop, none⟩ (by decide +kernel) (by decide +kernel) rfl rfl

end Peephole
end StackMachine
