/-
# Dead-push elimination

Elimination looks at whether a jump lands on a pop before it drops the pop with
the push before it. It does not look at jumps that land between the two, where
pairs that were dropped already once stood. So it keeps the meaning of a body in
every run in which no jump lands inside a dropped pair; after a jump that does,
the code that is left still has the values of those pairs on its stack
(`Peephole.eliminate_agrees_until_landing`, `Peephole.eliminate_keeps_operand`).

* `Peephole.kept`, `Peephole.place`: the places that are kept, and where they go;
* `Peephole.pending`: how many dropped pairs a place is inside of;
* `Peephole.Fate`: what becomes of an instruction.
-/
import Mathlib
import StackMachine.Proofs.Passes

namespace StackMachine
namespace Peephole

variable {body : Code} {k : Nat} {x : Instr}

/-! ### What the pass keeps -/

/-- The places whose instructions elimination keeps, in order. -/
def kept (body : Code) : List Nat := (eliminate body).map Traced.origin

/-- Where the first instruction that is kept from a place on goes to. -/
def place (body : Code) (k : Nat) : Nat := (kept body).countP (· < k)

/-- The output of the pass, newest first, when it comes to a place. -/
def passed (body : Code) (k : Nat) : List Traced :=
  ((trace body).take k).foldl (eliminateStep (landings body)) []

/-- How many dropped pairs a place is inside of: what comes before it and is
dropped only by a pop at this place or later. -/
def pending (body : Code) (k : Nat) : Nat :=
  (passed body k).countP fun t => !(kept body).contains t.origin

theorem passed_succ (hx : body[k]? = some x) :
    passed body (k + 1) = eliminateStep (landings body) (passed body k) ⟨x, k⟩ := by
  rw [passed, List.take_add_one, getElem?_trace_of_fetch hx, Option.toList_some, List.foldl_append]
  rfl

theorem eliminate_eq (body : Code) :
    eliminate body = remap body.length (passed body body.length).reverse := by
  rw [passed, ← length_trace, List.take_length, length_trace, eliminate]

theorem kept_eq (body : Code) :
    kept body = ((passed body body.length).map Traced.origin).reverse := by
  rw [kept, eliminate_eq]
  simp [remap]

/-- One instruction is added, or drops the push before it. -/
theorem eliminateStep_cases (landed : List Nat) (out : List Traced) (t : Traced) :
    eliminateStep landed out t = t :: out ∨
      ∃ u rest, out = u :: rest ∧ t.instr.op = .pop ∧ onlyPushes u.instr = true ∧
        eliminateStep landed out t = rest := by
  unfold eliminateStep
  split_ifs with h
  · cases out with
    | nil => exact Or.inl rfl
    | cons u rest =>
      by_cases hu : onlyPushes u.instr = true
      · exact Or.inr ⟨u, rest, rfl, h.1, hu, by simp [hu]⟩
      · exact Or.inl (by simp [hu])
  · exact Or.inl rfl

/-- The output, newest first, holds instructions of the body from before `k`. -/
structure Orderly (body : Code) (k : Nat) (out : List Traced) : Prop where
  sorted : out.Pairwise fun t u => u.origin < t.origin
  early : ∀ t ∈ out, t.origin < k
  instr : ∀ t ∈ out, body[t.origin]? = some t.instr

theorem Orderly.cons {out : List Traced} (h : Orderly body k out) (hx : body[k]? = some x) :
    Orderly body (k + 1) (⟨x, k⟩ :: out) where
  sorted := List.pairwise_cons.mpr ⟨h.early, h.sorted⟩
  early t ht := by
    rcases List.mem_cons.mp ht with rfl | ht
    · exact Nat.lt_succ_self k
    · exact Nat.lt_succ_of_lt (h.early t ht)
  instr t ht := by
    rcases List.mem_cons.mp ht with rfl | ht
    · exact hx
    · exact h.instr t ht

theorem Orderly.tail {out : List Traced} {u : Traced} (h : Orderly body k (u :: out)) :
    Orderly body (k + 1) out where
  sorted := (List.pairwise_cons.mp h.sorted).2
  early t ht := Nat.lt_succ_of_lt (h.early t (List.mem_cons_of_mem _ ht))
  instr t ht := h.instr t (List.mem_cons_of_mem _ ht)

theorem orderly_passed (hk : k ≤ body.length) : Orderly body k (passed body k) := by
  induction k with
  | zero => exact ⟨List.Pairwise.nil, fun t ht => by simp [passed] at ht, fun t ht => by simp [passed] at ht⟩
  | succ k ih =>
    have hx : body[k]? = some (body[k]) := List.getElem?_eq_getElem hk
    have h := ih (Nat.le_of_succ_le hk)
    rw [passed_succ hx]
    rcases eliminateStep_cases (landings body) (passed body k) ⟨body[k], k⟩ with
      he | ⟨u, rest, hout, -, -, he⟩
    · rw [he]
      exact h.cons hx
    · rw [he]
      rw [hout] at h
      exact h.tail

/-! ### What becomes of an instruction -/

/-- Of what is passed at `k`, the newest `d` are dropped later, and the others
stay below what is yet to come. -/
structure Split (body : Code) (k d : Nat) (new : List Traced) : Prop where
  eq : passed body body.length = new ++ (passed body k).drop d
  le : d ≤ (passed body k).length
  late : ∀ t ∈ new, k ≤ t.origin
  pushes : ∀ t ∈ (passed body k).take d, onlyPushes t.instr = true

theorem mem_kept : k ∈ kept body ↔ ∃ t ∈ passed body body.length, t.origin = k := by
  rw [kept_eq, List.mem_reverse, List.mem_map]

theorem Split.kept_iff {d : Nat} {new : List Traced} (h : Split body k d new) {i : Nat} (hi : i < k) :
    i ∈ kept body ↔ ∃ t ∈ (passed body k).drop d, t.origin = i := by
  rw [mem_kept, h.eq]
  constructor
  · rintro ⟨t, ht, rfl⟩
    rcases List.mem_append.mp ht with ht | ht
    · exact absurd (h.late t ht) (by omega)
    · exact ⟨t, ht, rfl⟩
  · rintro ⟨t, ht, rfl⟩
    exact ⟨t, List.mem_append_right _ ht, rfl⟩

/-- The values that are pending are those of the newest pushes. -/
theorem Split.pending_eq {d : Nat} {new : List Traced} (h : Split body k d new)
    (hk : k ≤ body.length) : pending body k = d := by
  have ho := orderly_passed hk
  have hsplit := List.take_append_drop d (passed body k)
  have hnew : ((passed body k).take d).countP (fun t => !(kept body).contains t.origin) = d := by
    rw [List.countP_eq_length.mpr, List.length_take, Nat.min_eq_left h.le]
    intro t ht
    have hlt := ho.early t (List.mem_of_mem_take ht)
    rw [Bool.not_eq_true', List.contains_eq_mem, decide_eq_false_iff_not, h.kept_iff hlt]
    rintro ⟨u, hu, heq⟩
    have hsorted := ho.sorted
    rw [← hsplit, List.pairwise_append] at hsorted
    exact absurd (hsorted.2.2 t ht u hu) (by omega)
  have hold : ((passed body k).drop d).countP (fun t => !(kept body).contains t.origin) = 0 := by
    rw [List.countP_eq_zero]
    intro t ht
    have hlt := ho.early t (List.mem_of_mem_drop ht)
    rw [Bool.not_eq_true', Bool.not_eq_false, List.contains_iff_mem, h.kept_iff hlt]
    exact ⟨t, ht, rfl⟩
  unfold pending
  rw [← hsplit, List.countP_append, hnew, hold, Nat.add_zero]

/-- What becomes of the instruction at `k`. -/
inductive Fate (body : Code) (k : Nat) (x : Instr) : Prop
  | kept (mem : k ∈ kept body) (here : pending body k = 0) (next : pending body (k + 1) = 0)
  | push (drop : k ∉ Peephole.kept body) (pushes : onlyPushes x = true)
      (next : pending body (k + 1) = pending body k + 1)
  | pop (drop : k ∉ Peephole.kept body) (pops : x.op = .pop)
      (here : pending body k = pending body (k + 1) + 1)

theorem Split.back {d : Nat} {new : List Traced} (hx : body[k]? = some x)
    (h : Split body (k + 1) d new) : (∃ d new, Split body k d new) ∧ Fate body k x := by
  have hk : k + 1 ≤ body.length := (List.getElem?_eq_some_iff.mp hx).1
  have hd := h.pending_eq hk
  have ho := orderly_passed (Nat.le_of_succ_le hk)
  obtain ⟨heq, hle, hlate, hpushes⟩ := h
  have hmem := fun i (hi : i < k + 1) => Split.kept_iff ⟨heq, hle, hlate, hpushes⟩ hi
  have hpass := passed_succ hx
  rcases eliminateStep_cases (landings body) (passed body k) ⟨x, k⟩ with
    he | ⟨u, rest, hout, hop, hu, he⟩ <;> rw [he] at hpass <;> rw [hpass] at heq hle hpushes hmem
  · cases d with
    | zero =>
      -- the instruction stays, and so does all that was passed before
      have hs : Split body k 0 (new ++ [⟨x, k⟩]) := by
        refine ⟨by simpa using heq, Nat.zero_le _, fun t ht => ?_, fun t ht => by simp at ht⟩
        rcases List.mem_append.mp ht with ht | ht
        · exact Nat.le_of_succ_le (hlate t ht)
        · rw [List.mem_singleton.mp ht]
      refine ⟨⟨_, _, hs⟩, .kept ?_ (hs.pending_eq (Nat.le_of_succ_le hk)) hd⟩
      rw [hmem k (Nat.lt_succ_self k)]
      exact ⟨⟨x, k⟩, List.mem_cons_self .., rfl⟩
    | succ d =>
      -- a later pop drops it
      have hs : Split body k d new := by
        refine ⟨by simpa using heq, by simpa using hle,
          fun t ht => Nat.le_of_succ_le (hlate t ht), fun t ht => hpushes t ?_⟩
        rw [List.take_succ_cons]
        exact List.mem_cons_of_mem _ ht
      have hp := hs.pending_eq (Nat.le_of_succ_le hk)
      refine ⟨⟨_, _, hs⟩, .push ?_ (hpushes ⟨x, k⟩ (by simp)) (by omega)⟩
      rw [hmem k (Nat.lt_succ_self k), List.drop_succ_cons]
      rintro ⟨t, ht, rfl⟩
      exact absurd (ho.early t (List.mem_of_mem_drop ht)) (Nat.lt_irrefl _)
  · -- it drops the push before it
    have hs : Split body k (d + 1) new := by
      refine ⟨by simpa [hout] using heq, by simpa [hout] using hle,
        fun t ht => Nat.le_of_succ_le (hlate t ht), fun t ht => ?_⟩
      rw [hout, List.take_succ_cons] at ht
      rcases List.mem_cons.mp ht with rfl | ht
      · exact hu
      · exact hpushes t ht
    have hp := hs.pending_eq (Nat.le_of_succ_le hk)
    refine ⟨⟨_, _, hs⟩, .pop ?_ hop (by omega)⟩
    rw [hmem k (Nat.lt_succ_self k)]
    rintro ⟨t, ht, rfl⟩
    rw [hout] at ho
    exact absurd (ho.early t (List.mem_cons_of_mem _ (List.mem_of_mem_drop ht))) (Nat.lt_irrefl _)

theorem exists_split (hk : k ≤ body.length) : ∃ d new, Split body k d new := by
  induction hj : body.length - k generalizing k with
  | zero =>
    obtain rfl : k = body.length := by omega
    exact ⟨0, [], by simp, Nat.zero_le _, by simp, by simp⟩
  | succ j ih =>
    have hlt : k < body.length := by omega
    obtain ⟨d, new, h⟩ := ih (Nat.succ_le_of_lt hlt) (by omega)
    exact (h.back (List.getElem?_eq_getElem hlt)).1

/-- **An instruction is kept, or is one half of a dropped pair.** -/
theorem fate (hx : body[k]? = some x) : Fate body k x := by
  obtain ⟨d, new, h⟩ := exists_split (Nat.succ_le_of_lt (List.getElem?_eq_some_iff.mp hx).1)
  exact (h.back hx).2

/-! ### Where an instruction goes to -/

theorem sorted_kept (body : Code) : (kept body).Pairwise (· < ·) := by
  rw [kept_eq, List.pairwise_reverse, List.pairwise_map]
  exact (orderly_passed le_rfl).sorted

theorem nodup_kept (body : Code) : (kept body).Nodup := (sorted_kept body).imp Nat.ne_of_lt

theorem place_succ_of_mem (h : k ∈ kept body) : place body (k + 1) = place body k + 1 := by
  rw [place, countP_lt_succ, List.count_eq_one_of_mem (nodup_kept body) h]
  rfl

theorem place_succ_of_notMem (h : k ∉ kept body) : place body (k + 1) = place body k := by
  rw [place, countP_lt_succ, List.count_eq_zero_of_not_mem h]
  rfl

theorem getElem?_place (h : k ∈ kept body) : (kept body)[place body k]? = some k :=
  getElem?_countP (sorted_kept body) h

/-- The code that is left has the instruction, with its jump moved along. -/
theorem getElem?_code (hx : body[k]? = some x) (h : k ∈ kept body) :
    (code (eliminate body))[place body k]? = some (retarget body.length (kept body) x) := by
  have hkept : kept body = (passed body body.length).reverse.map Traced.origin := by
    rw [kept_eq, List.map_reverse]
  have hplace := getElem?_place h
  rw [hkept, List.getElem?_map, Option.map_eq_some_iff] at hplace
  obtain ⟨t, ht, rfl⟩ := hplace
  have hmem : t ∈ passed body body.length := List.mem_reverse.mp (List.mem_of_getElem? ht)
  obtain rfl : t.instr = x := by
    have := (orderly_passed le_rfl).instr t hmem
    rw [hx] at this
    exact (Option.some.inj this).symm
  rw [code, eliminate_eq, remap, ← hkept, List.map_map, List.getElem?_map, hkept, ht]
  rfl

/-! ### Steps -/

theorem place_zero (body : Code) : place body 0 = 0 := by simp [place]

/-- **An instruction that is kept does what it did**, and goes on where what
comes next has gone to. -/
theorem step_kept (hx : body[k]? = some x) (h : k ∈ kept body)
    (hj : x.op.isJump = true →
      ∃ n t, x.operand = some n ∧ Instr.place? n = some t ∧ t ≤ body.length) (c : Context) :
    Context.step (code (eliminate body)) (place body k) c =
      moved (place body) (Context.step body k c) := by
  refine step_retarget (nodup_kept body) hx (getElem?_code hx h) (place_succ_of_mem h) ?_ c
  intro t ht
  obtain ⟨hjump, n, hn, hplace⟩ := landing?_eq_some_iff.mp ht
  obtain ⟨n', t', hn', hplace', hle⟩ := hj hjump
  obtain rfl : n = n' := Option.some.inj (hn.symm.trans hn')
  obtain rfl : t = t' := Option.some.inj (hplace.symm.trans hplace')
  rw [if_pos hle, place]

section Checked

variable {fs : List Function} {heights : List (Option Nat)} {peak : Nat} {c : Context}

open Context (Upright Reach Lands Ends)

/-- The context once the pairs that the place is inside of have run to their
end. -/
def settled (body : Code) (k : Nat) (c : Context) : Context :=
  { c with stack := c.stack.drop (pending body k) }

theorem settled_of_pending (h : pending body k = 0) (c : Context) : settled body k c = c := by
  simp [settled, h]

theorem exec_onlyPushes (hp : onlyPushes x = true)
    (hc : Heights.Checked fs heights k c.stack.length x) :
    ∃ v, Context.exec x c = .ok .next { c with stack := v :: c.stack } := by
  obtain ⟨op, operand⟩ := x
  cases hc with
  | data pops pushes hd ho he hen hnext =>
    cases op with
    | pushInt =>
      obtain ⟨n, hn⟩ := Option.isSome_iff_exists.mp (ho rfl)
      obtain rfl : operand = some n := hn
      exact ⟨_, rfl⟩
    | pushBool b => exact ⟨_, rfl⟩
    | dup =>
      cases he
      match hst : c.stack, hen with
      | v :: st, _ =>
        refine ⟨v, ?_⟩
        have hpeek : Context.peek .dup c = .ok v c := by simp only [Context.peek, hst]
        have hexec := bind_of_ok (f := fun w => Context.push w >>= fun _ => pure Flow.next) hpeek
        rw [← hst]
        exact hexec
    | _ => cases hp
  | jump _ _ hop | branch _ _ _ hop | call _ _ _ hop | ret hop | retVoid hop | halt hop =>
    obtain rfl := hop
    cases hp

theorem exec_pop (hop : x.op = .pop) (hc : Heights.Checked fs heights k c.stack.length x) :
    ∃ v vs, c.stack = v :: vs ∧ Context.exec x c = .ok .next { c with stack := vs } := by
  obtain ⟨op, operand⟩ := x
  obtain rfl : op = .pop := hop
  cases hc with
  | data pops pushes hd ho he hen hnext =>
    cases he
    match hst : c.stack, hen with
    | v :: vs, _ => exact ⟨v, vs, rfl, bind_of_ok (Context.pop_cons hst .pop)⟩
  | jump _ _ hop | branch _ _ _ hop | call _ _ _ hop | ret hop | retVoid hop | halt hop => cases hop

/-- A dropped instruction only moves the stack, and not below what its pair
leaves alone. -/
theorem step_dropped (ha : Heights.Accepted fs body heights peak) (hup : Upright heights k c)
    (h : k ∉ kept body) :
    ∃ c', Context.step body k c = .on (k + 1) c' ∧ ¬ Lands body k c (k + 1) c' ∧
      settled body (k + 1) c' = settled body k c ∧
      (pending body (k + 1) ≤ c'.stack.length → pending body k ≤ c.stack.length) := by
  obtain ⟨x, hx, hc⟩ := hup.checked ha
  have hnext : ∀ c', Context.exec x c = .ok .next c' →
      Context.step body k c = .on (k + 1) c' ∧ ¬ Lands body k c (k + 1) c' := by
    intro c' hr
    refine ⟨by simp only [Context.step, hx, hr], ?_⟩
    rintro ⟨y, hy, hr'⟩
    obtain rfl : x = y := Option.some.inj (hx.symm.trans hy)
    rw [hr] at hr'
    cases hr'
  cases fate hx with
  | kept hmem => exact absurd hmem h
  | push _ hp hpend =>
    obtain ⟨v, hr⟩ := exec_onlyPushes hp hc
    refine ⟨_, (hnext _ hr).1, (hnext _ hr).2, ?_, fun hle => ?_⟩
    · simp only [settled, hpend, List.drop_succ_cons]
    · rw [hpend] at hle
      exact Nat.le_of_succ_le_succ hle
  | pop _ hp hpend =>
    obtain ⟨v, vs, hst, hr⟩ := exec_pop hp hc
    refine ⟨_, (hnext _ hr).1, (hnext _ hr).2, ?_, fun hle => ?_⟩
    · simp only [settled, hpend, hst, List.drop_succ_cons]
    · rw [hpend, hst]
      exact Nat.succ_le_succ hle

/-- From any place, the dropped pairs run to their end, up to a place that is
kept. -/
theorem settles (ha : Heights.Accepted fs body heights peak) (hup : Upright heights k c) :
    pending body k ≤ c.stack.length ∧ ∃ i ∈ kept body, place body i = place body k ∧
      Reach body (fun _ => False) k c i (settled body k c) := by
  have hlt : k < body.length := by
    rw [← ha.length]
    exact (List.getElem?_eq_some_iff.mp hup).1
  induction hj : body.length - k generalizing k c with
  | zero => omega
  | succ j ih =>
    by_cases h : k ∈ kept body
    · obtain ⟨x, hx, -⟩ := hup.checked ha
      have hzero : pending body k = 0 := by
        cases fate hx with
        | kept _ hp _ => exact hp
        | push hdrop | pop hdrop => exact absurd h hdrop
      rw [settled_of_pending hzero]
      exact ⟨by omega, k, h, rfl, .here⟩
    · obtain ⟨c', hs, hland, hsettled, hle⟩ := step_dropped ha hup h
      have hup' := hup.step ha hs
      have hlt' : k + 1 < body.length := by
        rw [← ha.length]
        exact (List.getElem?_eq_some_iff.mp hup').1
      obtain ⟨hle', i, hi, hplace, hreach⟩ := ih hup' hlt' (by omega)
      rw [place_succ_of_notMem h] at hplace
      rw [hsettled] at hreach
      exact ⟨hle hle', i, hi, hplace, hreach.head hs fun hl => hland hl⟩

/-- A step from a place that is kept, in the body and in what is left of it. -/
theorem step_of_mem (ha : Heights.Accepted fs body heights peak) (hup : Upright heights k c)
    (h : k ∈ kept body) :
    settled body k c = c ∧
      Context.step (code (eliminate body)) (place body k) c =
        moved (place body) (Context.step body k c) ∧
      ∀ k' c', Context.step body k c = .on k' c' → Lands body k c k' c' ∨ pending body k' = 0 := by
  obtain ⟨x, hx, hc⟩ := hup.checked ha
  cases fate hx with
  | push hdrop | pop hdrop => exact absurd h hdrop
  | kept _ hhere hnext =>
    have hland : ∀ (t j : Nat), heights[t]? = some (some j) → t ≤ body.length := by
      intro t j ht
      rw [← ha.length]
      exact (List.getElem?_eq_some_iff.mp ht).1.le
    refine ⟨settled_of_pending hhere c, step_kept hx h (fun hj => ?_) c, fun k' c' hs => ?_⟩
    · cases hc with
      | jump n t _ hn ht hnext => exact ⟨n, t, hn, ht, hland t _ hnext⟩
      | branch b n t _ hn ht _ _ hnext => exact ⟨n, t, hn, ht, hland t _ hnext⟩
      | data _ _ hd => rw [Opcode.isJump_of_movesData hd] at hj; cases hj
      | call _ _ _ hop | ret hop | retVoid hop | halt hop => rw [hop] at hj; cases hj
    · obtain ⟨y, hy, ⟨-, rfl⟩ | hr⟩ := Context.step_on hs
      · exact Or.inr hnext
      · exact Or.inl ⟨y, hy, hr⟩

/-! ### Runs -/

/-- No jump of a run from here lands inside a dropped pair. -/
def Clean (body : Code) (k : Nat) (c : Context) : Prop :=
  ∀ pc c₁ t c₂, Reach body (fun _ => True) k c pc c₁ → Lands body pc c₁ t c₂ → pending body t = 0

theorem Clean.reach {ok : Nat → Prop} {k' : Nat} {c' : Context} (h : Clean body k c)
    (hr : Reach body ok k c k' c') : Clean body k' c' := by
  intro pc c₁ t c₂ hr' hl
  exact h pc c₁ t c₂ ((hr.mono fun _ _ => trivial).trans hr') hl

/-- In a run that is clean, a step from a place that is kept leads to a context
that is settled. -/
theorem settled_next (ha : Heights.Accepted fs body heights peak) (hup : Upright heights k c)
    (hclean : Clean body k c) (h : k ∈ kept body) {k' : Nat} {c' : Context}
    (hs : Context.step body k c = .on k' c') : settled body k' c' = c' := by
  apply settled_of_pending
  rcases (step_of_mem ha hup h).2.2 k' c' hs with hl | hp
  · exact hclean k c k' c' .here hl
  · exact hp

theorem ends_code_of_run (ha : Heights.Accepted fs body heights peak) {fuel : Nat}
    {r : EStateM.Result Fault Context Unit} (hup : Upright heights k c) (hclean : Clean body k c)
    (hr : Context.run body fuel k c = some r) :
    Ends (code (eliminate body)) (place body k) (settled body k c) r := by
  induction fuel generalizing k c with
  | zero => cases hr
  | succ fuel ih =>
    have hends : Ends body k c r := ⟨_, hr⟩
    unfold Context.run at hr
    by_cases h : k ∈ kept body
    · obtain ⟨hsettled, hstep, -⟩ := step_of_mem ha hup h
      rw [hsettled, Context.ends_iff, hstep]
      rw [Context.ends_iff] at hends
      cases hs : Context.step body k c with
      | on k' c' =>
        rw [hs] at hr
        have hreach : Reach body (fun _ => True) k c k' c' := .step .here hs fun _ => trivial
        have := ih (hup.step ha hs) (hclean.reach hreach) hr
        rwa [settled_next ha hup hclean h hs] at this
      | ended c' => rw [hs] at hends; exact hends
      | failed e c' => rw [hs] at hends; exact hends
    · obtain ⟨c', hs, -, hsettled, -⟩ := step_dropped ha hup h
      rw [hs] at hr
      have hreach : Reach body (fun _ => True) k c (k + 1) c' := .step .here hs fun _ => trivial
      have := ih (hup.step ha hs) (hclean.reach hreach) hr
      rwa [hsettled, place_succ_of_notMem h] at this

theorem ends_of_run_code (ha : Heights.Accepted fs body heights peak) {fuel : Nat}
    {r : EStateM.Result Fault Context Unit} (hup : Upright heights k c) (hclean : Clean body k c)
    (hr : Context.run (code (eliminate body)) fuel (place body k) (settled body k c) = some r) :
    Ends body k c r := by
  induction fuel generalizing k c with
  | zero => cases hr
  | succ fuel ih =>
    -- the dropped pairs run to their end first
    obtain ⟨-, i, hi, hplace, hreach⟩ := settles ha hup
    rw [hreach.ends_iff]
    rw [← hplace] at hr
    have hup' := hup.reach ha hreach
    have hclean' := hclean.reach hreach
    generalize settled body k c = d at hup' hclean' hreach hr ⊢
    obtain ⟨-, hstep, -⟩ := step_of_mem ha hup' hi
    rw [Context.ends_iff]
    unfold Context.run at hr
    rw [hstep] at hr
    cases hs : Context.step body i d with
    | on k' c' =>
      rw [hs] at hr
      have hreach' : Reach body (fun _ => True) i d k' c' := .step .here hs fun _ => trivial
      refine ih (hup'.step ha hs) (hclean'.reach hreach') ?_
      rw [settled_next ha hup' hclean' hi hs]
      exact hr
    | ended c' => rw [hs] at hr; exact (Option.some.inj hr).symm
    | failed e c' => rw [hs] at hr; exact (Option.some.inj hr).symm

/-- What is left follows the body as long as no jump lands inside a dropped
pair. -/
theorem reach_code (ha : Heights.Accepted fs body heights peak) (hup : Upright heights 0 c)
    {k : Nat} {c' : Context} (hr : Reach body (fun t => pending body t = 0) 0 c k c') :
    Reach (code (eliminate body)) (fun _ => True) 0 c (place body k) (settled body k c') := by
  have hpending : pending body 0 = 0 := rfl
  induction hr with
  | here =>
    rw [settled_of_pending hpending, place_zero]
    exact .here
  | @step k₁ k₂ c₁ c₂ hr hs hok ih =>
    have hup₁ := hup.reach ha hr
    by_cases h : k₁ ∈ kept body
    · obtain ⟨hsettled, hstep, hnext⟩ := step_of_mem ha hup₁ h
      have hp : pending body k₂ = 0 := by
        rcases hnext k₂ c₂ hs with hl | hp
        · exact hok hl
        · exact hp
      rw [hs] at hstep
      rw [hsettled] at ih
      rw [settled_of_pending hp]
      exact ih.step hstep fun _ => trivial
    · obtain ⟨c'', hs', -, hsettled, -⟩ := step_dropped ha hup₁ h
      rw [hs] at hs'
      cases hs'
      rw [hsettled, place_succ_of_notMem h]
      exact ih

/-- A run that is not clean has a first jump that lands inside a dropped pair. -/
theorem first_landing (h : ¬ Clean body k c) :
    ∃ pc c₁ t c₂, Reach body (fun t => pending body t = 0) k c pc c₁ ∧ Lands body pc c₁ t c₂ ∧
      0 < pending body t := by
  by_contra hnone
  have hclean : ∀ pc c₁, Reach body (fun _ => True) k c pc c₁ →
      Reach body (fun t => pending body t = 0) k c pc c₁ := by
    intro pc c₁ hr
    induction hr with
    | here => exact .here
    | step _ hs _ ih =>
      refine ih.step hs fun hl => Nat.eq_zero_of_not_pos fun hpos => hnone ?_
      exact ⟨_, _, _, _, ih, hl, hpos⟩
  refine h fun pc c₁ t c₂ hr hl => Nat.eq_zero_of_not_pos fun hpos => hnone ?_
  exact ⟨pc, c₁, t, c₂, hclean pc c₁ hr, hl, hpos⟩

theorem mem_landings {pc t : Nat} {c₁ c₂ : Context} (h : Lands body pc c₁ t c₂) :
    t ∈ landings body := by
  obtain ⟨x, hx, hr⟩ := h
  exact mem_landings_of_fetch hx (landing?_of_exec hr)

/-- Where no jump of the body lands inside a dropped pair, every run is clean. -/
theorem clean_of_landings (h : ∀ t ∈ landings body, pending body t = 0) : Clean body k c :=
  fun _ _ t _ _ hl => h t (mem_landings hl)

/-- A jump that is taken is taken by what is left, too, and lands with all the
values that the pairs around the place would have popped. -/
theorem landing_code (ha : Heights.Accepted fs body heights peak) (hup : Upright heights 0 c)
    {pc t : Nat} {c₁ c₂ : Context} (hr : Reach body (fun t => pending body t = 0) 0 c pc c₁)
    (hl : Lands body pc c₁ t c₂) :
    Reach (code (eliminate body)) (fun _ => True) 0 c (place body t) c₂ := by
  have hup₁ := hup.reach ha hr
  have hcode := reach_code ha hup hr
  by_cases h : pc ∈ kept body
  · obtain ⟨hsettled, hstep, -⟩ := step_of_mem ha hup₁ h
    rw [hl.step] at hstep
    rw [hsettled] at hcode
    exact hcode.step hstep fun _ => trivial
  · -- a jump is not one half of a pair
    obtain ⟨x, hx, hjump⟩ := hl
    obtain ⟨hj, -⟩ := landing?_eq_some_iff.mp (landing?_of_exec hjump)
    cases fate hx with
    | kept hmem => exact absurd hmem h
    | push _ hp => cases hop : x.op <;> simp [hop, Opcode.isJump, onlyPushes, Opcode.isConstantPush] at hj hp
    | pop _ hp => rw [hp] at hj; cases hj

end Checked

open Context (Reach Lands Ends)

/-- **Elimination is right as long as no jump lands inside a dropped pair.** Then
what is left ends if and only if the body does, in the same context, or with the
same fault. Otherwise, at the first jump that lands inside such pairs, what is
left carries on with their values on the stack: the body itself pops them before
it gets to the same instruction. They need not show in the result. -/
theorem eliminate_agrees_until_landing {body : Code} {fs : List Function} {peak : Nat}
    (h : Heights.analyze body fs = .ok peak) {c : Context} (hc : c.stack = []) :
    (Clean body 0 c → ∀ r, Ends (code (eliminate body)) 0 c r ↔ Ends body 0 c r) ∧
    (¬ Clean body 0 c → ∃ pc c₁ t c₂, Reach body (fun t => pending body t = 0) 0 c pc c₁ ∧
      Lands body pc c₁ t c₂ ∧ 0 < pending body t ∧ pending body t ≤ c₂.stack.length ∧
      Reach (code (eliminate body)) (fun _ => True) 0 c (place body t) c₂ ∧
      ∃ i ∈ kept body, place body i = place body t ∧
        Reach body (fun _ => False) t c₂ i
          { c₂ with stack := c₂.stack.drop (pending body t) }) := by
  obtain ⟨heights, hs⟩ := Heights.analyze_eq_ok h
  have ha := Heights.survey_accepted hs
  by_cases hnil : body = []
  · subst hnil
    refine ⟨fun _ r => Iff.rfl, fun hclean => absurd ?_ hclean⟩
    rintro pc c₁ t c₂ - ⟨x, hx, -⟩
    cases hx
  have hup : Context.Upright heights 0 c := by
    rw [Context.Upright, hc, ha.entry hnil]
    rfl
  have hpending : pending body 0 = 0 := rfl
  have hplace : place body 0 = 0 := place_zero body
  refine ⟨fun hclean r => ⟨?_, ?_⟩, fun hclean => ?_⟩
  · rintro ⟨fuel, hr⟩
    rw [← hplace, ← settled_of_pending hpending c] at hr
    exact ends_of_run_code ha hup hclean hr
  · rintro ⟨fuel, hr⟩
    have := ends_code_of_run ha hup hclean hr
    rwa [settled_of_pending hpending, hplace] at this
  · obtain ⟨pc, c₁, t, c₂, hr, hl, hpos⟩ := first_landing hclean
    have hup₂ := (hup.reach ha hr).step ha hl.step
    obtain ⟨hle, i, hi, hplace, hreach⟩ := settles ha hup₂
    exact ⟨pc, c₁, t, c₂, hr, hl, hpos, hle, landing_code ha hup hr hl, i, hi, hplace, hreach⟩

/-- A jump lands on a pop below two dropped pairs. -/
def landsBelow : Code :=
  [⟨.pushInt, some 5⟩, ⟨.pushInt, some 6⟩, ⟨.loadLocal, some 0⟩, ⟨.jump (.on false), some 8⟩,
   ⟨.pushInt, some 1⟩, ⟨.dup, none⟩, ⟨.pop, none⟩, ⟨.pop, none⟩, ⟨.pop, none⟩, ⟨.ret, none⟩]

/-- A jump lands on the push of the inner of two dropped pairs. -/
def landsBetween : Code :=
  [⟨.pushInt, some 42⟩, ⟨.pushInt, some 7⟩, ⟨.pushBool true, none⟩, ⟨.jump (.on true), some 6⟩,
   ⟨.pop, none⟩, ⟨.pushInt, some 1⟩, ⟨.pushInt, some 2⟩, ⟨.pop, none⟩, ⟨.pop, none⟩, ⟨.ret, none⟩]

def fresh : Context := ⟨0, [], [.int 3], [], 8, [], none, #[]⟩

theorem not_clean_landsBetween : ¬ Clean landsBetween 0 fresh := by
  intro hclean
  have hreach : Reach landsBetween (fun _ => True) 0 fresh 3
      { fresh with stack := [.bool true, .int 7, .int 42] } :=
    .step (.step (.step .here rfl fun _ => trivial) rfl fun _ => trivial) rfl fun _ => trivial
  have hlands : Lands landsBetween 3 { fresh with stack := [.bool true, .int 7, .int 42] } 6
      { fresh with stack := [.int 7, .int 42] } := ⟨⟨.jump (.on true), some 6⟩, rfl, rfl⟩
  have hpending := hclean _ _ _ _ hreach hlands
  revert hpending
  decide

theorem eliminate_agrees_until_landing_cases :
    Clean landsBelow 0 fresh ∧
    (∀ r, Ends (code (eliminate landsBelow)) 0 fresh r ↔ Ends landsBelow 0 fresh r) ∧
    ¬ Clean landsBetween 0 fresh ∧
    ∃ t c₂, 0 < pending landsBetween t ∧ pending landsBetween t ≤ c₂.stack.length ∧
      Reach (code (eliminate landsBetween)) (fun _ => True) 0 fresh (place landsBetween t) c₂ := by
  have hbelow : Heights.analyze landsBelow [] = .ok 4 := by decide +kernel
  have hbetween : Heights.analyze landsBetween [] = .ok 3 := by decide +kernel
  have hclean : Clean landsBelow 0 fresh := clean_of_landings (by decide)
  obtain ⟨-, -, t, c₂, -, -, hpos, hle, hreach, -⟩ :=
    (eliminate_agrees_until_landing hbetween rfl).2 not_clean_landsBetween
  exact ⟨hclean, (eliminate_agrees_until_landing hbelow rfl).1 hclean, not_clean_landsBetween,
    t, c₂, hpos, hle, hreach⟩

/-- The body pops its 7 and returns 42; what is left of it returns the 7. -/
theorem eliminate_keeps_operand :
    Heights.analyze landsBetween [] = .ok 3 ∧
    (∀ x ∈ landsBetween, x.op.isolable = true ∧ x.op ≠ .halt) ∧
    Ends landsBetween 0 fresh (.ok () { fresh with result := some (.int 42) }) ∧
    Ends (code (eliminate landsBetween)) 0 fresh
      (.ok () { fresh with stack := [.int 42], result := some (.int 7) }) :=
  ⟨by decide +kernel, by decide, ⟨10, rfl⟩, ⟨10, rfl⟩⟩

end Peephole
end StackMachine
