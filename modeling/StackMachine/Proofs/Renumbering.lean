/-
# Origins and jumps after both passes

Each pass keeps instructions of a body, traces them to where they stood, and moves
the jumps along. The origins of the second are places in the output of the first,
and are looked up there; its jumps are moved a second time. Both come out as if one
pass had kept what is left (`Peephole.retarget_retarget`,
`Peephole.Selects.trans`).

* `Peephole.Selects`: what the output of a pass has to do with the body;
* `Peephole.Rejumped`: what becomes of a jump, in the terms of its operand;
* `Peephole.simplify_exact`: origins, instructions and jumps of simplified code; and
  that it can be made an artifact of either form if the body can.
-/
import Mathlib
import StackMachine.Proofs.Compilation
import StackMachine.Proofs.Elimination
import StackMachine.Proofs.Folding

namespace StackMachine

/-- The same instruction but for where it jumps to. -/
structure Instr.Like (x y : Instr) : Prop where
  op : x.op = y.op
  operand : y.op.isJump = false → x.operand = y.operand

namespace Instr.Like

theorem refl (x : Instr) : x.Like x := ⟨rfl, fun _ => rfl⟩

theorem trans {x y z : Instr} (h : x.Like y) (h' : y.Like z) : x.Like z where
  op := h.op.trans h'.op
  operand hz := (h.operand (by rw [h'.op]; exact hz)).trans (h'.operand hz)

theorem eq_of_not_jump {x y : Instr} (h : x.Like y) (hy : y.op.isJump = false) : x = y := by
  obtain ⟨op, operand⟩ := x
  obtain ⟨op', operand'⟩ := y
  obtain rfl : op = op' := h.op
  obtain rfl : operand = operand' := h.operand hy
  rfl

theorem based (start : Nat) (x : Instr) : x.Like (x.based start) where
  op := (op_based start x).symm
  operand hj := by
    rw [op_based] at hj
    rw [based_of_not_jump hj]

end Instr.Like

namespace Peephole

variable {body : Code} {x : Instr} {size : Nat} {origins kept : List Nat}

/-! ### One pass after another -/

/-- In an increasing list, the entries below `t` are those that come before the
number of them. -/
theorem lt_countP_iff {l : List Nat} (hl : l.Pairwise (· < ·)) {j a : Nat} (ha : l[j]? = some a)
    (t : Nat) : j < l.countP (· < t) ↔ a < t := by
  induction l generalizing j with
  | nil => simp at ha
  | cons b l ih =>
    obtain ⟨hb, hl⟩ := List.pairwise_cons.mp hl
    rw [List.countP_cons]
    by_cases hbt : b < t
    · cases j with
      | zero =>
        obtain rfl : b = a := by simpa using ha
        simp [hbt]
      | succ j =>
        have hj := ih hl (j := j) (by simpa using ha)
        simp only [hbt, decide_true, ↓reduceIte]
        omega
    · have hnone : l.countP (· < t) = 0 := by
        rw [List.countP_eq_zero]
        intro c hc
        have := hb c hc
        simp only [decide_eq_true_eq]
        omega
      have hba : b ≤ a := by
        rcases List.mem_cons.mp (List.mem_of_getElem? ha) with rfl | hmem
        · exact le_rfl
        · exact (hb a hmem).le
      simp only [hbt, hnone, decide_false, Bool.false_eq_true, ↓reduceIte]
      omega

theorem length_le_of_lt (hl : origins.Pairwise (· < ·)) (hlt : ∀ o ∈ origins, o < size) :
    origins.length ≤ size := by
  have hcount : origins.countP (· < size) = origins.length :=
    List.countP_eq_length.mpr fun o ho => by simpa using hlt o ho
  rw [← hcount]
  exact countP_lt_le (hl.imp Nat.ne_of_lt) size

theorem retarget_inside {t : Nat} (ht : landing? x = some t) (hle : t ≤ size) :
    retarget size origins x = ⟨x.op, some (Int64.ofNat (origins.countP (· < t)))⟩ := by
  simp only [retarget, ht, hle, ↓reduceIte]

theorem retarget_outside (h : ∀ t, landing? x = some t → size < t) :
    retarget size origins x = x := by
  unfold retarget
  cases ht : landing? x with
  | none => rfl
  | some t =>
    have hlt := h t ht
    simp only [show ¬ t ≤ size by omega, ↓reduceIte]

theorem like_retarget (size : Nat) (origins : List Nat) (x : Instr) :
    (retarget size origins x).Like x := by
  cases hj : x.op.isJump with
  | false =>
    rw [retarget_of_not_jump hj]
    exact .refl x
  | true =>
    refine ⟨?_, fun h => by rw [hj] at h; cases h⟩
    unfold retarget
    cases landing? x with
    | none => rfl
    | some t =>
      simp only
      split_ifs <;> rfl

/-- **Moving jumps twice is moving them once**, along with the instructions that
both passes keep. -/
theorem retarget_retarget (hl : origins.Pairwise (· < ·)) (hlt : ∀ o ∈ origins, o < size)
    (hkept : ∀ j ∈ kept, j < origins.length) :
    retarget origins.length kept (retarget size origins x) =
      retarget size (kept.map fun j => origins.getD j j) x := by
  have hlen := length_le_of_lt hl hlt
  by_cases hin : ∃ t, landing? x = some t ∧ t ≤ size
  · obtain ⟨t, ht, hle⟩ := hin
    obtain ⟨n, hr, hn⟩ := retarget_of_jump (hl.imp Nat.ne_of_lt) ht hle
    have hj := (landing?_eq_some_iff.mp ht).1
    have hland : landing? (retarget size origins x) = some (origins.countP (· < t)) := by
      rw [hr]
      exact landing?_eq_some_iff.mpr ⟨hj, n, rfl, hn⟩
    have hcount : kept.countP (· < origins.countP (· < t)) =
        (kept.map fun j => origins.getD j j).countP (· < t) := by
      rw [List.countP_map]
      apply List.countP_congr
      intro j hj
      have hget : origins[j]? = some (origins.getD j j) := by
        simp [hkept j hj]
      simpa using lt_countP_iff hl hget t
    have honce : retarget size (kept.map fun j => origins.getD j j) x = _ := retarget_inside ht hle
    rw [retarget_inside hland List.countP_le_length, honce, hcount, hr]
  · have hout : ∀ t, landing? x = some t → size < t := fun t ht => by
      by_contra hle
      exact hin ⟨t, ht, not_lt.mp hle⟩
    rw [retarget_outside hout, retarget_outside hout]
    exact retarget_outside fun t ht => hlen.trans_lt (hout t ht)

/-- The instructions come from a body: each is one of the body, in their order
there, with its jump moved along, or pushes a constant where the body pushes one. -/
structure Selects (body : Code) (out : List Traced) : Prop where
  sorted : (out.map Traced.origin).Pairwise (· < ·)
  stems : ∀ t ∈ out, ∃ x, body[t.origin]? = some x ∧
    (t.instr = retarget body.length (out.map Traced.origin) x ∨
      (∃ v, pushOf? v = some t.instr) ∧ (constant? x).isSome = true)

namespace Selects

variable {out : List Traced}

theorem origin_lt (h : Selects body out) : ∀ o ∈ out.map Traced.origin, o < body.length := by
  intro o ho
  obtain ⟨t, ht, rfl⟩ := List.mem_map.mp ho
  obtain ⟨x, hx, -⟩ := h.stems t ht
  exact (List.getElem?_eq_some_iff.mp hx).1

/-- A pass that moves the jumps in the end. -/
theorem of_remap (hsorted : (out.map Traced.origin).Pairwise (· < ·))
    (hstems : ∀ t ∈ out, body[t.origin]? = some t.instr ∨
      (∃ v, pushOf? v = some t.instr) ∧ ∃ x, body[t.origin]? = some x ∧ (constant? x).isSome = true) :
    Selects body (remap body.length out) := by
  have horigins : (remap body.length out).map Traced.origin = out.map Traced.origin := by
    rw [remap, List.map_map]
    rfl
  refine ⟨horigins ▸ hsorted, fun t ht => ?_⟩
  rw [horigins]
  obtain ⟨u, hu, rfl⟩ := List.mem_map.mp ht
  rcases hstems u hu with hx | ⟨⟨v, hv⟩, x, hx, hconst⟩
  · exact ⟨u.instr, hx, Or.inl rfl⟩
  · have hsame : retarget body.length (out.map Traced.origin) u.instr = u.instr :=
      retarget_of_not_jump (isJump_of_constant (constant?_of_pushOf? hv))
    exact ⟨x, hx, Or.inr ⟨⟨v, by rw [hsame, hv]⟩, hconst⟩⟩

/-- A pass over the output of another, with origins traced through both. -/
theorem trans {folded : List Traced} (h : Selects body folded) (h' : Selects (code folded) out) :
    Selects body (out.map fun t =>
      { t with origin := (folded[t.origin]?.map Traced.origin).getD t.origin }) := by
  have hlen : (code folded).length = (folded.map Traced.origin).length := by simp [code]
  have hkept : ∀ j ∈ out.map Traced.origin, j < (folded.map Traced.origin).length :=
    fun j hj => hlen ▸ h'.origin_lt j hj
  have horigins : (out.map fun t =>
      { t with origin := (folded[t.origin]?.map Traced.origin).getD t.origin }).map Traced.origin =
      (out.map Traced.origin).map fun j => (folded.map Traced.origin).getD j j := by
    simp [Function.comp_def]
  constructor
  · rw [horigins, List.pairwise_map]
    refine h'.sorted.imp_of_mem fun {i j} hi hj hij => ?_
    rw [List.getD_eq_getElem _ _ (hkept i hi), List.getD_eq_getElem _ _ (hkept j hj)]
    exact List.pairwise_iff_getElem.mp h.sorted i j (hkept i hi) (hkept j hj) hij
  · intro t ht
    rw [horigins]
    obtain ⟨u, hu, rfl⟩ := List.mem_map.mp ht
    obtain ⟨z, hz, hu'⟩ := h'.stems u hu
    obtain ⟨w, hw, rfl⟩ : ∃ w, folded[u.origin]? = some w ∧ w.instr = z := by
      rwa [code, List.getElem?_map, Option.map_eq_some_iff] at hz
    obtain ⟨x, hx, hw'⟩ := h.stems w (List.mem_of_getElem? hw)
    refine ⟨x, by simpa [hw] using hx, ?_⟩
    rcases hw' with hmoved | ⟨⟨v, hv⟩, hconst⟩
    · rcases hu' with hmoved' | ⟨hpush, hconst⟩
      · left
        rw [← retarget_retarget h.sorted h.origin_lt hkept, ← hmoved, ← hlen]
        exact hmoved'
      · -- what pushes a constant is no jump, and so was not changed by the first pass
        obtain ⟨v, hv⟩ := Option.isSome_iff_exists.mp hconst
        have hj : x.op.isJump = false := by
          rw [← (like_retarget ..).op, ← hmoved]
          exact isJump_of_constant hv
        rw [hmoved, retarget_of_not_jump hj] at hconst
        exact Or.inr ⟨hpush, hconst⟩
    · rcases hu' with hmoved' | ⟨hpush, -⟩
      · rw [retarget_of_not_jump (isJump_of_constant (constant?_of_pushOf? hv))] at hmoved'
        exact Or.inr ⟨⟨v, by rw [hmoved', hv]⟩, hconst⟩
      · exact Or.inr ⟨hpush, hconst⟩

end Selects

theorem Tiles.tile {j n : Nat} {out : List Traced} {t : Traced} (h : Tiles body j n out)
    (ht : t ∈ out) : ∃ k, Tile body t k := by
  induction h with
  | nil => cases ht
  | cons htile _ ih =>
    rcases List.mem_cons.mp ht with rfl | ht
    · exact ⟨_, htile⟩
    · exact ih ht

theorem Computes.constant {j k : Nat} {v : Value} (h : Computes body j k v) :
    ∃ x, body[j]? = some x ∧ (constant? x).isSome = true := by
  induction h with
  | push hx hv => exact ⟨_, hx, by rw [hv]; rfl⟩
  | binary _ _ _ _ _ _ _ ihl _ => exact ihl
  | unary _ _ _ _ _ ih => exact ih

theorem selects_fold (body : Code) : Selects body (fold body) := by
  have htiles := tiles_pieces body
  refine .of_remap htiles.sorted fun t ht => ?_
  obtain ⟨k, htile⟩ := htiles.tile ht
  cases htile with
  | kept hx => exact Or.inl hx
  | folded hc hp => exact Or.inr ⟨⟨_, hp⟩, hc.constant⟩

theorem selects_eliminate (body : Code) : Selects body (eliminate body) := by
  have hpassed : Orderly body body.length (passed body body.length) := orderly_passed le_rfl
  rw [eliminate_eq]
  refine .of_remap ?_ fun t ht => Or.inl (hpassed.instr t (List.mem_reverse.mp ht))
  rw [List.pairwise_map, List.pairwise_reverse]
  exact hpassed.sorted

theorem selects_simplify (body : Code) : Selects body (simplify body) :=
  (selects_fold body).trans (selects_eliminate _)

/-! ### Jumps -/

/-- A jump `x` of a body of `size` instructions has become `y`, with the
instructions at `origins` kept. -/
structure Rejumped (size : Nat) (origins : List Nat) (x y : Instr) : Prop where
  missing : x.operand = none → y.operand = none
  inside : ∀ n, x.operand = some n → 0 ≤ n.toInt → n.toInt ≤ size →
    ∃ m, y.operand = some m ∧ m.toInt = origins.countP fun o : Nat => (o : Int) < n.toInt
  outside : ∀ n, x.operand = some n → n.toInt < 0 ∨ size < n.toInt →
    y.operand = some n ∧ (n.toInt < 0 ∨ origins.length < n.toInt)

theorem rejumped_retarget (hl : origins.Pairwise (· < ·)) (hlt : ∀ o ∈ origins, o < size)
    (hj : x.op.isJump = true) : Rejumped size origins x (retarget size origins x) := by
  have hland : ∀ t, landing? x = some t ↔ ∃ n, x.operand = some n ∧ n.toInt = t := by
    intro t
    rw [landing?_eq_some_iff]
    simp [hj, Instr.place?_eq_some_iff]
  constructor
  · intro ho
    rw [retarget_outside fun t ht => ?_, ho]
    obtain ⟨n, hn, -⟩ := (hland t).mp ht
    rw [ho] at hn
    cases hn
  · intro n hn hpos hle
    obtain ⟨t, ht⟩ := Int.eq_ofNat_of_zero_le hpos
    have hat : landing? x = some t := (hland t).mpr ⟨n, hn, ht⟩
    have hle' : t ≤ size := by omega
    obtain ⟨m, hr, hm⟩ := retarget_of_jump (hl.imp Nat.ne_of_lt) hat hle'
    refine ⟨m, by rw [hr], ?_⟩
    rw [Instr.place?_eq_some_iff.mp hm]
    simp only [ht, Nat.cast_lt]
  · intro n hn hout
    have hlen := length_le_of_lt hl hlt
    rw [retarget_outside fun t ht => ?_]
    · exact ⟨hn, by omega⟩
    · obtain ⟨n', hn', ht'⟩ := (hland t).mp ht
      obtain rfl : n = n' := Option.some.inj (hn.symm.trans hn')
      omega

/-! ### Simplified code -/

/-- The places in a body that its simplified instructions come from. -/
def sources (body : Code) : List Nat := (simplify body).map Traced.origin

/-- A push of a constant as folding makes it. -/
def Folded (y : Instr) : Prop := (∃ n, y = ⟨.pushInt, some n⟩) ∨ ∃ b, y = ⟨.pushBool b, none⟩

theorem folded_of_pushOf? {v : Value} {y : Instr} (h : pushOf? v = some y) : Folded y := by
  cases v with
  | int n => exact Or.inl ⟨n, (Option.some.inj h).symm⟩
  | bool b => exact Or.inr ⟨b, (Option.some.inj h).symm⟩
  | ref a => cases h

theorem isConstantPush_of_constant {x : Instr} (h : (constant? x).isSome = true) :
    x.op.isConstantPush = true := by
  unfold constant? at h
  cases hop : x.op with
  | pushInt | pushBool => rfl
  | _ => rw [hop] at h; cases h

/-- Every simplified instruction is a push that folding has made, where the body
pushes a constant, or the instruction there but for where it jumps to. -/
theorem traced_simplify {k o : Nat} {y : Instr} (hy : (code (simplify body))[k]? = some y)
    (ho : (sources body)[k]? = some o) :
    ∃ x, body[o]? = some x ∧
      (Folded y ∧ x.op.isConstantPush = true ∨
        y.Like x ∧ (x.op.isJump = true → Rejumped body.length (sources body) x y)) := by
  have hs := selects_simplify body
  obtain ⟨t, ht, rfl⟩ : ∃ t, (simplify body)[k]? = some t ∧ t.instr = y := by
    rwa [code, List.getElem?_map, Option.map_eq_some_iff] at hy
  obtain rfl : t.origin = o := by
    simpa [sources, ht] using ho
  obtain ⟨x, hx, hmoved | ⟨⟨v, hv⟩, hconst⟩⟩ := hs.stems t (List.mem_of_getElem? ht)
  · refine ⟨x, hx, Or.inr ⟨hmoved ▸ like_retarget .., fun hj => ?_⟩⟩
    rw [hmoved]
    exact rejumped_retarget hs.sorted hs.origin_lt hj
  · exact ⟨x, hx, Or.inl ⟨folded_of_pushOf? hv, isConstantPush_of_constant hconst⟩⟩

/-- What is asked of a body before it is made an artifact its simplified form has,
too. -/
theorem proper_simplify {form : CodeForm}
    (h : ∀ x ∈ body, (form = .isolated → x.op.isolable = true) ∧ x.Proper body.length) :
    ∀ y ∈ code (simplify body),
      (form = .isolated → y.op.isolable = true) ∧ y.Proper (code (simplify body)).length := by
  intro y hy
  obtain ⟨k, hk⟩ := List.mem_iff_getElem?.mp hy
  have hlen : (code (simplify body)).length = (sources body).length := by simp [code, sources]
  have hlt : k < (sources body).length := hlen ▸ (List.getElem?_eq_some_iff.mp hk).1
  obtain ⟨x, hx, ⟨hfolded, -⟩ | ⟨hlike, hjump⟩⟩ :=
    traced_simplify hk (List.getElem?_eq_getElem hlt)
  · rcases hfolded with ⟨n, rfl⟩ | ⟨b, rfl⟩
    · exact ⟨fun _ => rfl, fun _ => rfl, fun hj => by cases hj⟩
    · exact ⟨fun _ => rfl, fun hn => (by cases hn), fun hj => by cases hj⟩
  · obtain ⟨hiso, hneeds, hin⟩ := h x (List.mem_of_getElem? hx)
    refine ⟨fun hf => hlike.op ▸ hiso hf, ?_⟩
    rw [hlen]
    cases hj : x.op.isJump with
    | false =>
      obtain rfl := hlike.eq_of_not_jump hj
      exact ⟨hneeds, fun hj' => by rw [hj] at hj'; cases hj'⟩
    | true =>
      obtain ⟨n, hn⟩ := Option.isSome_iff_exists.mp (hneeds (Opcode.needsOperand_of_isJump hj))
      obtain ⟨m, hm, hcount⟩ := (hjump hj).inside n hn (hin hj n hn).1 (hin hj n hn).2
      have hle : (sources body).countP (fun o : Nat => (o : Int) < n.toInt) ≤ (sources body).length :=
        List.countP_le_length
      refine ⟨fun _ => by rw [hm]; rfl, fun _ m' hm' => ?_⟩
      obtain rfl : m = m' := Option.some.inj (hm.symm.trans hm')
      omega

/-- **Origins and jumps of simplified code are exact.** Every instruction has one
origin, and origins increase and lie in the body. An instruction is a push that
folding has made, where the body pushes a constant, or that of the body but for where
it jumps to; a jump inside the body goes to where as many instructions come before it
as have their origin before the place it went to, and another goes where it went, which
is outside still. So whatever form of artifact can be made of a body can be made of its
simplified form. -/
theorem simplify_exact (body : Code) :
    (code (simplify body)).length = (sources body).length ∧
    (sources body).Pairwise (· < ·) ∧ (∀ o ∈ sources body, o < body.length) ∧
    (∀ (k o : Nat) (y : Instr), (code (simplify body))[k]? = some y → (sources body)[k]? = some o →
      ∃ x, body[o]? = some x ∧
        (Folded y ∧ x.op.isConstantPush = true ∨
          y.Like x ∧ (x.op.isJump = true → Rejumped body.length (sources body) x y))) ∧
    ∀ func signature form,
      (∃ a, Draft.emit ⟨func, signature, body, List.range body.length⟩ form = .ok a) →
      ∃ a, Draft.emit ⟨func, signature, code (simplify body), sources body⟩ form = .ok a := by
  have hs := selects_simplify body
  refine ⟨by simp [code, sources], hs.sorted, hs.origin_lt, fun k o y => traced_simplify, ?_⟩
  intro func signature form h
  rw [Draft.emit_iff] at h ⊢
  exact proper_simplify h

/-- A sum to fold, a push that is popped at once, and three jumps: to the end, to
the push that goes, and to the sum that is folded. -/
def crossing : Code :=
  [⟨.loadLocal, some 0⟩, ⟨.jump (.on false), some 10⟩, ⟨.pushInt, some 2⟩, ⟨.pushInt, some 3⟩,
   ⟨.binary .add, none⟩, ⟨.printInt, none⟩, ⟨.pushBool true, none⟩, ⟨.pop, none⟩,
   ⟨.jump .always, some 6⟩, ⟨.jump .always, some 2⟩]

theorem simplify_exact_crossing :
    code (simplify crossing) =
        [⟨.loadLocal, some 0⟩, ⟨.jump (.on false), some 6⟩, ⟨.pushInt, some 5⟩, ⟨.printInt, none⟩,
         ⟨.jump .always, some 4⟩, ⟨.jump .always, some 2⟩] ∧
      sources crossing = [0, 1, 2, 5, 8, 9] ∧
      ∃ a, Draft.emit ⟨0, ⟨"f", 1, 1, 1, 0, 0, false⟩, code (simplify crossing), sources crossing⟩
        .isolated = .ok a := by
  refine ⟨by decide +kernel, by decide +kernel, ?_⟩
  obtain ⟨-, -, -, -, hemit⟩ := simplify_exact crossing
  exact hemit 0 _ .isolated ⟨_, rfl⟩

end Peephole
end StackMachine
