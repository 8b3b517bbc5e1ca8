/-
# Compiled once it is called often enough

Several callers may come past the threshold of a function together, and all of them find
it not compiled. Still one of them takes it, and none of them comes back before it is
taken: the count of the function, its phase, the record of what was done and the
standings of all threads fit together, before and after every action. That the record
fits the queue and the answers is so for every schedule (`Chronicle.Faithful.run`).

* `Booked`: what ties them together; `Booked.deal` keeps it;
* `Chronicle.Watched.run`: that is so after every schedule of notifications;
* `Chronicle.compiled_at_threshold`: what follows for the function.
-/
import Mathlib.Data.Finset.Card
import Mathlib.Data.List.Induction
import StackMachine.Proofs.Standings

namespace StackMachine.Lifecycle

variable {α : Type}

/-! ### Books -/

/-- A thread that stands so has stood so before, or it is the one that has changed. -/
theorem eq_of_update {standing : Nat → Standing} {st st' : Standing} {t u : Nat}
    (h : Function.update standing t st' u = st) (ht : st' ≠ st) : standing u = st := by
  by_cases hu : u = t
  · subst hu
    exact absurd (by simpa using h) ht
  · simpa [hu] using h

/-- Exactly `k` threads stand so. -/
def Among (standing : Nat → Standing) (st : Standing) (k : Nat) : Prop :=
  ∃ S : Finset Nat, (∀ t, t ∈ S ↔ standing t = st) ∧ S.card = k

namespace Among

variable {standing : Nat → Standing} {st st' : Standing} {t k : Nat}

theorem keep (h : Among standing st k) (ht : standing t ≠ st) (ht' : st' ≠ st) :
    Among (Function.update standing t st') st k := by
  obtain ⟨S, hS, hcard⟩ := h
  refine ⟨S, fun u => ?_, hcard⟩
  by_cases hu : u = t
  · subst hu
    simp [hS, ht, ht']
  · simp [hS, hu]

theorem join (h : Among standing st k) (ht : standing t ≠ st) :
    Among (Function.update standing t st) st (k + 1) := by
  obtain ⟨S, hS, hcard⟩ := h
  refine ⟨insert t S, fun u => ?_, ?_⟩
  · by_cases hu : u = t
    · simp [hu]
    · simp [hS, hu]
  · rw [Finset.card_insert_of_notMem fun hmem => ht ((hS t).mp hmem), hcard]

theorem leave (h : Among standing st k) (ht : standing t = st) (ht' : st' ≠ st) :
    ∃ l, k = l + 1 ∧ Among (Function.update standing t st') st l := by
  obtain ⟨S, hS, hcard⟩ := h
  have hmem : t ∈ S := (hS t).mpr ht
  refine ⟨k - 1, ?_, S.erase t, fun u => ?_, ?_⟩
  · have := Finset.card_pos.mpr ⟨t, hmem⟩
    omega
  · by_cases hu : u = t
    · simp [hu, ht']
    · simp [hS, hu]
  · rw [Finset.card_erase_of_mem hmem, hcard]

end Among

/-- The account, the standings of all threads and the record of what was done fit
together. -/
structure Booked (T i : Nat) (a : Account) (standing : Nat → Standing) (deeds : List Deed) :
    Prop where
  counted : deeds.count (.counted i) = a.calls
  started : deeds.count (.started i) = a.taken.toNat
  reached : a.taken = true → T ≤ a.calls
  bound : ∀ t, standing t = .bound → T ≤ a.calls
  assured : ∀ t, standing t = .holding ∨ standing t = .served → a.taken = true
  /-- As long as nobody has taken the function, only calls before the threshold are
  back. -/
  returned : a.taken = false → ∃ waiting, Among standing .spared waiting ∧
    deeds.count (.notified i) + waiting = min a.calls (T - 1)
  handed : ∃ holders, Among standing .holding holders ∧
    deeds.count (.submitted i) + holders = deeds.count (.started i)

namespace Booked

variable {T i t : Nat} {a : Account} {standing : Nat → Standing} {deeds : List Deed}

/-- Nothing is recorded of the function, but that its job leaves the queue. -/
theorem note (h : Booked T i a standing deeds) {deed : Option Deed}
    (hdeed : ∀ d ∈ deed, d.func = i → d = .withdrawn i) :
    Booked T i a standing (deeds ++ deed.toList) := by
  have hcount : ∀ d : Deed, d.func = i → d ≠ .withdrawn i →
      (deeds ++ deed.toList).count d = deeds.count d := by
    intro d hd hne
    have hmem : d ∉ deed.toList := fun hmem => hne (hdeed d (Option.mem_toList.mp hmem) hd)
    rw [List.count_append, List.count_eq_zero_of_not_mem hmem, Nat.add_zero]
  have hcounted := hcount (.counted i) rfl (by simp)
  have hstarted := hcount (.started i) rfl (by simp)
  have hnotified := hcount (.notified i) rfl (by simp)
  have hsubmitted := hcount (.submitted i) rfl (by simp)
  exact
    { h with
      counted := by rw [hcounted, h.counted]
      started := by rw [hstarted, h.started]
      returned := by rw [hnotified]; exact h.returned
      handed := by rw [hsubmitted, hstarted]; exact h.handed }

/-- A thread changes its standing to one that nothing hangs on but, if it is served,
that the function is taken. -/
theorem shift (h : Booked T i a standing deeds) (st : Standing)
    (ht : standing t ≠ .spared ∧ standing t ≠ .holding)
    (hst : st ≠ .spared ∧ st ≠ .holding ∧ st ≠ .bound) (htaken : st = .served → a.taken = true) :
    Booked T i a (Function.update standing t st) deeds where
  counted := h.counted
  started := h.started
  reached := h.reached
  bound u hu := h.bound u (eq_of_update hu hst.2.2)
  assured u hu := by
    by_cases hut : u = t
    · exact htaken (by simpa [hut, hst.2.1] using hu)
    · exact h.assured u (by simpa [hut] using hu)
  returned hfree := by
    obtain ⟨waiting, hwaiting, hsum⟩ := h.returned hfree
    exact ⟨waiting, hwaiting.keep ht.1 hst.1, hsum⟩
  handed := by
    obtain ⟨holders, hholders, hsum⟩ := h.handed
    exact ⟨holders, hholders.keep ht.2 hst.2.1, hsum⟩

theorem count (h : Booked T i a standing deeds) (ht : standing t = .called) :
    Booked T i { a with calls := a.calls + 1 }
      (Function.update standing t (if a.calls + 1 < T then .spared else .bound))
      (deeds ++ [.counted i]) where
  counted := by simp [h.counted]
  started := by simp [h.started]
  reached htaken := Nat.le_succ_of_le (h.reached htaken)
  bound u hu := by
    by_cases hut : u = t
    · rw [hut, Function.update_self] at hu
      split at hu
      next => cases hu
      next hcalls => exact Nat.not_lt.mp hcalls
    · exact Nat.le_succ_of_le (h.bound u (by simpa [hut] using hu))
  assured u hu :=
    h.assured u (hu.imp (eq_of_update · (by grind)) (eq_of_update · (by grind)))
  returned hfree := by
    obtain ⟨waiting, hwaiting, hsum⟩ := h.returned hfree
    have hdeeds : (deeds ++ [Deed.counted i]).count (Deed.notified i) = deeds.count (Deed.notified i) := by
      simp
    rw [hdeeds]
    by_cases hcalls : a.calls + 1 < T
    · rw [if_pos hcalls]
      refine ⟨waiting + 1, hwaiting.join (by simp [ht]), ?_⟩
      show _ = min (a.calls + 1) (T - 1)
      omega
    · rw [if_neg hcalls]
      refine ⟨waiting, hwaiting.keep (by simp [ht]) (by simp), ?_⟩
      show _ = min (a.calls + 1) (T - 1)
      omega
  handed := by
    obtain ⟨holders, hholders, hsum⟩ := h.handed
    refine ⟨holders, hholders.keep (by simp [ht]) ?_, by simpa using hsum⟩
    split <;> simp

theorem take (h : Booked T i a standing deeds) (ht : standing t = .bound)
    (hfree : a.taken = false) :
    Booked T i { a with taken := true } (Function.update standing t .holding)
      (deeds ++ [.started i]) where
  counted := by simp [h.counted]
  started := by simp [h.started, hfree]
  reached _ := h.bound t ht
  bound u hu := h.bound u (eq_of_update hu (by simp))
  assured _ _ := rfl
  returned htaken := by cases htaken
  handed := by
    obtain ⟨holders, hholders, hsum⟩ := h.handed
    have hdeeds : (deeds ++ [Deed.started i]).count (Deed.submitted i) = deeds.count (Deed.submitted i) := by
      simp
    refine ⟨holders + 1, hholders.join (by simp [ht]), ?_⟩
    rw [hdeeds, List.count_append, List.count_singleton_self]
    omega

theorem submit (h : Booked T i a standing deeds) (ht : standing t = .holding) :
    Booked T i a (Function.update standing t .served) (deeds ++ [.submitted i]) where
  counted := by simp [h.counted]
  started := by simp [h.started]
  reached := h.reached
  bound u hu := h.bound u (eq_of_update hu (by simp))
  assured _ _ := h.assured t (Or.inl ht)
  returned hfree := by simp [h.assured t (Or.inl ht)] at hfree
  handed := by
    obtain ⟨holders, hholders, hsum⟩ := h.handed
    obtain ⟨left, rfl, hleft⟩ := hholders.leave ht (show Standing.served ≠ .holding by simp)
    have hdeeds : (deeds ++ [Deed.submitted i]).count (Deed.started i) = deeds.count (Deed.started i) := by
      simp
    refine ⟨left, hleft, ?_⟩
    rw [hdeeds, List.count_append, List.count_singleton_self]
    omega

theorem notify (h : Booked T i a standing deeds)
    (ht : standing t = .spared ∨ standing t = .served) :
    Booked T i a (Function.update standing t .idle) (deeds ++ [.notified i]) where
  counted := by simp [h.counted]
  started := by simp [h.started]
  reached := h.reached
  bound u hu := h.bound u (eq_of_update hu (by simp))
  assured u hu :=
    h.assured u (hu.imp (eq_of_update · (by simp)) (eq_of_update · (by simp)))
  returned hfree := by
    -- whoever was served has seen the function taken
    have hspared : standing t = .spared := by
      refine ht.resolve_right fun hserved => ?_
      simp [h.assured t (Or.inr hserved)] at hfree
    obtain ⟨waiting, hwaiting, hsum⟩ := h.returned hfree
    obtain ⟨left, rfl, hleft⟩ := hwaiting.leave hspared (show Standing.idle ≠ .spared by simp)
    refine ⟨left, hleft, ?_⟩
    rw [List.count_append, List.count_singleton_self]
    omega
  handed := by
    obtain ⟨holders, hholders, hsum⟩ := h.handed
    refine ⟨holders, hholders.keep ?_ (by simp), by simpa using hsum⟩
    rcases ht with ht | ht <;> simp [ht]

/-- **Every deal keeps the books.** -/
theorem deal (h : Booked T i a standing deeds) {a' : Account} {st : Standing}
    {deed : Option Deed} (hdeal : Deal T i a (standing t) a' st deed) :
    Booked T i a' (Function.update standing t st) (deeds ++ deed.toList) := by
  generalize hst : standing t = st₀ at hdeal
  cases hdeal with
  | quiet hdeed =>
    rw [← hst, Function.update_eq_self]
    exact h.note fun d hd hfunc => absurd hfunc (hdeed d hd)
  | count => exact h.count hst
  | see htaken =>
    rw [Option.toList_none, List.append_nil]
    by_cases hbound : st₀ = .bound
    · subst hbound
      exact h.shift .served (by simp [hst]) (by simp) fun _ => htaken
    · have hassured : st₀.assured = st₀ := by
        cases st₀ with
        | bound => exact absurd rfl hbound
        | _ => rfl
      rw [hassured, ← hst, Function.update_eq_self]
      exact h
  | take hfree => exact h.take hst hfree
  | submit => exact h.submit hst
  | notify hback => exact h.notify (hst ▸ hback)

end Booked

/-! ### Schedules -/

def Move.passive : Move α → Bool
  | .call x => x.passive
  | _ => true

/-- Compilations are asked for by notifications only, and nobody closes the service. -/
def Schedule.Notifying (σ : Schedule α) : Prop := ∀ m ∈ σ, m.2.passive = true

instance (σ : Schedule α) : Decidable σ.Notifying :=
  inferInstanceAs (Decidable (∀ m ∈ σ, m.2.passive = true))

namespace Chronicle

variable {n T i : Nat} {c : Chronicle α} {standing : Nat → Standing}

/-- Function `i` of `n` is watched, and this is how the threads stand. -/
structure Watched (n T i : Nat) (c : Chronicle α) (standing : Nat → Standing) : Prop where
  ready : c.system.world.Ready n
  threshold : c.system.threshold = T
  plays : ∀ t, (c.system.scripts t).Plays n T i (standing t)
  errand : ∀ t, standing t ≠ .idle → c.errand t = some (.notify i)
  booked : Booked T i (c.system.world.account i) standing c.deeds

theorem watched_new (n threshold i : Nat) :
    (new n threshold : Chronicle α).Watched n (max threshold 1) i fun _ => .idle where
  ready := by constructor <;> simp [new, System.new, Service.new, Table.new]
  threshold := rfl
  plays _ := rfl
  errand t ht := absurd rfl ht
  booked := by
    have hcalls : (List.replicate n 0).getD i 0 = 0 := by
      rw [List.getD_eq_getElem?_getD, List.getElem?_replicate]
      split <;> rfl
    have haccount : (new n threshold : Chronicle α).system.world.account i = ⟨0, false⟩ := by
      simp only [World.account, new, System.new, Service.new, Table.phase_new, hcalls]
      rfl
    rw [haccount]
    refine ⟨rfl, rfl, by simp, by simp, by simp, fun _ => ⟨0, ⟨∅, by simp, rfl⟩, by simp [new]⟩, 0,
      ⟨∅, by simp, rfl⟩, by simp [new]⟩

theorem Watched.idle_of_done (h : c.Watched n T i standing) {t : Nat}
    (hdone : c.system.scripts t = .done) : standing t = .idle := by
  have hplays := h.plays t
  rw [hdone] at hplays
  exact hplays

/-- **A move.** -/
theorem Watched.step (h : c.Watched n T i standing) (hi : i < n) (t : Nat) {m : Move α}
    (hm : m.passive = true) (hfew : (c.step t m).deeds.count (.counted i) < UInt32.size) :
    ∃ standing', (c.step t m).Watched n T i standing' := by
  obtain ⟨w, script, deed, call, hcourse, hstep⟩ := c.course t m
  rw [hstep] at hfew ⊢
  -- how the thread stands after the move
  obtain ⟨st, hplays, hbooked, hready, herrand⟩ : ∃ st, script.Plays n T i st ∧
      Booked T i (w.account i) (Function.update standing t st) (c.deeds ++ deed.toList) ∧
      w.Ready n ∧ (st ≠ .idle → call = some (.notify i)) := by
    have hnote : ∀ {w : World α} (deed : Option Deed), c.system.world.Alike w →
        (∀ d ∈ deed, d.func = i → d = .withdrawn i) →
        Booked T i (w.account i) (Function.update standing t (standing t)) (c.deeds ++ deed.toList) ∧
        w.Ready n := by
      intro w deed hw hdeed
      rw [hw.account, Function.update_eq_self]
      exact ⟨h.booked.note hdeed, hw.ready h.ready⟩
    have hsame {w : World α} (hw : c.system.world.Alike w) := hnote none hw (by simp)
    have hunqueue (j : Nat) :=
      hnote (some (.withdrawn j)) (World.alike_unqueue c.system.world j) (by simp [Deed.func])
    cases hcourse with
    | stay hw =>
      exact ⟨standing t, h.plays t, (hsame hw.toAlike).1, (hsame hw.toAlike).2, h.errand t⟩
    | @call x hx hdone =>
      subst hx
      rw [h.ready.slots, h.threshold]
      have ht := h.idle_of_done hdone
      rcases plays_call hi hm with hplays | ⟨rfl, hplays⟩
      · have hbooked := (hsame (.refl _)).1
        exact ⟨standing t, ht ▸ hplays, hbooked, h.ready, fun hne => absurd ht hne⟩
      · have hbooked := h.booked.shift (t := t) .called (by simp [ht]) (by simp) (by simp)
        exact ⟨.called, hplays, by simpa using hbooked, h.ready, fun _ => rfl⟩
    | @job j hmem hdone =>
      have ht := h.idle_of_done hdone
      refine ⟨standing t, ?_, (hunqueue j).1, (hunqueue j).2, fun hne => absurd ht hne⟩
      rw [ht]
      exact plays_runJob j
    | @drop j hmem => exact ⟨standing t, h.plays t, (hunqueue j).1, (hunqueue j).2, h.errand t⟩
    | act hact =>
      obtain ⟨st, hplays, hdeal, hready⟩ := (h.plays t).act hi h.ready hact fun hdeed => by
        simpa [follow, hdeed, h.booked.counted] using hfew
      refine ⟨st, hplays, h.booked.deal hdeal, hready, fun hst => h.errand t fun ht => hst ?_⟩
      rw [ht] at hdeal
      exact hdeal.idle
    | compiled hw hscript =>
      have hplays := h.plays t
      rw [hscript] at hplays
      exact ⟨standing t, hplays _, (hsame hw.toAlike).1, (hsame hw.toAlike).2, h.errand t⟩
    | crash hw hscript =>
      have hplays := h.plays t
      rw [hscript] at hplays
      exact ⟨standing t, hplays.1, (hsame hw.toAlike).1, (hsame hw.toAlike).2, h.errand t⟩
  refine ⟨Function.update standing t st, hready, h.threshold, fun u => ?_, fun u hu => ?_, hbooked⟩
  · by_cases hut : u = t
    · subst hut
      simpa [follow, System.follow] using hplays
    · simpa [follow, System.follow, hut] using h.plays u
  · by_cases hut : u = t
    · subst hut
      simpa [follow] using herrand (by simpa using hu)
    · simpa [follow, hut] using h.errand u (by simpa [hut] using hu)

/-- **A whole schedule.** -/
theorem Watched.run (h : c.Watched n T i standing) (hi : i < n) {σ : Schedule α}
    (hσ : σ.Notifying) (hfew : (c.run σ).deeds.count (.counted i) < UInt32.size) :
    ∃ standing', (c.run σ).Watched n T i standing' := by
  -- from the end: what was recorded earlier is less
  induction σ using List.reverseRecOn with
  | nil => exact ⟨standing, h⟩
  | append_singleton σ m ih =>
    rw [run_concat] at hfew ⊢
    have hless : (c.run σ).deeds.count (.counted i) < UInt32.size := by
      refine lt_of_le_of_lt ?_ hfew
      rw [Chronicle.step, List.count_append]
      exact Nat.le_add_right _ _
    obtain ⟨standing', hwatched⟩ := ih (fun m hm => hσ m (List.mem_append_left _ hm)) hless
    exact hwatched.step hi m.1 (hσ m (by simp)) hfew

/-- Function `i` is compiled from its call `T` on, and only then. -/
structure Triggered (c : Chronicle α) (T i : Nat) : Prop where
  /-- The count of the function is the number of its calls that were counted. -/
  counted : c.system.world.counts[i]? = some (c.deeds.count (.counted i))
  /-- No job is started before the threshold. -/
  early : c.deeds.count (.counted i) < T → c.deeds.count (.started i) = 0
  /-- The notifications that are back are those that were answered. -/
  answered : c.system.world.answers.countP (·.notified? = some i) = c.deeds.count (.notified i)
  /-- When as many notifications have come back, the job is started. -/
  due : T ≤ c.deeds.count (.notified i) → c.deeds.count (.started i) = 1
  /-- No second job is started. -/
  once : c.deeds.count (.started i) ≤ 1
  /-- The function shows whether its job is started. -/
  taken : c.system.world.service.table.phase i = .notCompiled ↔ c.deeds.count (.started i) = 0
  /-- A job comes into the queue once and not before it is started. -/
  submitted : c.deeds.count (.submitted i) ≤ c.deeds.count (.started i)
  /-- A job that was handed over is in the queue until it begins or is dropped. -/
  queued : c.system.world.service.queue.count i + c.deeds.count (.withdrawn i) =
    c.deeds.count (.submitted i)
  /-- When no notification of the function is under way, its job has been handed over. -/
  handed : (∀ t, c.errand t = some (.notify i) → c.system.scripts t = .done) →
    c.deeds.count (.submitted i) = c.deeds.count (.started i)
  /-- Nothing of the function changes by a notification of another one, or of none. -/
  apart : ∀ t m j, c.errand t = some (.notify j) → i ≠ j →
    c.system.world.SameAt i (c.step t m).system.world

theorem Watched.triggered (h : c.Watched n T i standing) (hi : i < n) (hT : 1 ≤ T)
    (hfaithful : c.Faithful) (hminding : c.Minding) : c.Triggered T i := by
  have hcounted := h.booked.counted
  have hstarted := h.booked.started
  obtain ⟨holders, ⟨S, hS, rfl⟩, hhanded⟩ := h.booked.handed
  have htaken : c.system.world.service.table.phase i = .notCompiled ↔
      (c.system.world.account i).taken = false := by
    simp [World.account]
  refine ⟨?_, fun hearly => ?_, hfaithful.answers i, fun hdue => ?_, ?_, ?_, by omega,
    hfaithful.queue i, fun hdone => ?_, fun t m j => (hminding.step t m).2 i j⟩
  · have hcounts : i < c.system.world.counts.length := h.ready.counts ▸ hi
    simp [hcounted, World.account, hcounts]
  · have hfree : (c.system.world.account i).taken = false := by
      by_contra htaken
      have := h.booked.reached (by simpa using htaken)
      omega
    simp [hstarted, hfree]
  · have htaken : (c.system.world.account i).taken = true := by
      by_contra hfree
      obtain ⟨waiting, -, hsum⟩ := h.booked.returned (by simpa using hfree)
      omega
    simp [hstarted, htaken]
  · rw [hstarted]
    exact Bool.toNat_le _
  · rw [htaken, hstarted, Bool.toNat_eq_zero]
  · have hnone : S = ∅ := by
      refine Finset.eq_empty_of_forall_notMem fun t ht => ?_
      have hholding := (hS t).mp ht
      have hidle := h.idle_of_done (hdone t (h.errand t (by simp [hholding])))
      simp [hholding] at hidle
    simpa [hnone] using hhanded

/-- **Compiled once, at the threshold.** Whoever notifies, in whatever order the actions
of all threads come and whenever jobs end: no job of a function is started before enough
of its calls are counted, one is started by the time that as many notifications are
back, and no other. Whoever starts it puts it into the queue of the pool, where it stays
until it begins or is dropped. A threshold of zero is one. Counts have 32 bits, and this
holds as long as they are not used up. What is recorded on the way changes nothing. -/
theorem compiled_at_threshold (n threshold : Nat) (σ : Schedule α) (hσ : σ.Notifying) (i : Nat)
    (hi : i < n)
    (hfew : ((new n threshold).run σ).deeds.count (.counted i) < UInt32.size) :
    ((new n threshold).run σ).system = (System.new n threshold).run σ ∧
    ((new n threshold).run σ).Triggered (max threshold 1) i := by
  refine ⟨system_run _ σ, ?_⟩
  obtain ⟨standing, hwatched⟩ := (watched_new n threshold i).run hi hσ hfew
  exact hwatched.triggered hi (Nat.le_max_right ..) ((faithful_new n threshold).run σ)
    ((minding_new n threshold).run σ)

/-- Function 0 has been compiled, and an index is notified that no function has. Two
callers come past the threshold of function 1 together; the one who loses is back before
the other has handed the job over. -/
def race : Schedule Nat :=
  let goes t k := List.replicate k (t, .go)
  (0, .call (.notify 0)) :: goes 0 2 ++ (0, .call (.notify 0)) :: goes 0 10 ++
  (4, .job 0) :: goes 4 3 ++ (4, .compiled (.ok 7)) :: goes 4 12 ++
  (1, .call (.notify 1)) :: goes 1 2 ++ (3, .call (.notify 5)) :: goes 3 2 ++
  (1, .call (.notify 1)) :: (2, .call (.notify 1)) :: goes 1 2 ++ goes 2 2 ++ goes 1 4 ++ goes 2 7

theorem compiled_at_threshold_race :
    ((new 2 2).run race).Triggered 2 1 ∧
    ((new 2 2).run race).deeds.count (.counted 1) = 3 ∧
    ((new 2 2).run race).deeds.count (.notified 1) = 2 ∧
    ((new 2 2).run race).deeds.count (.started 1) = 1 ∧
    ((new 2 2).run race).deeds.count (.submitted 1) = 0 ∧
    ((new 2 2).run race).deeds.count (.submitted 0) = 1 ∧
    ((new 2 2).run race).deeds.count (.withdrawn 0) = 1 ∧
    ((new 2 2).run race).system.world.service.queue = [] ∧
    ((new 2 2).run race).system.world.counts = [2, 3] ∧
    ((new 2 2).run race).system.world.service.table.compiled? 0 = some 7 := by
  have h := (compiled_at_threshold 2 2 race (by decide) 1 (by decide) (by decide +kernel)).2
  exact ⟨h, by decide +kernel, by decide +kernel, h.due (by decide +kernel), by decide +kernel,
    by decide +kernel, by decide +kernel, by decide +kernel, by decide +kernel, by decide +kernel⟩

end Chronicle

end StackMachine.Lifecycle
