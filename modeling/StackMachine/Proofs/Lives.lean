/-
# The lives of functions, whoever does what and when

Over every schedule a function is compiled at most once, goes from phase to phase
and never back, and has one job, one artifact and one ending.

* `Hands`: every function that is being compiled is in one hand, which knows how
  far it has come: a thread that owns it, or the queue;
* `View.Order`: that, and what is so at all times; `View.Order.effect` keeps it;
* `System.Keeps`: the threads of a system obey their duties; `Keeps.step` and
  `Keeps.crash` keep that, `Keeps.run` gives it for every schedule;
* `lives_of_functions`: what follows for one function.
-/
import StackMachine.Proofs.Obedience

namespace StackMachine.Lifecycle

variable {α : Type}

/-! ### Who owns what -/

/-- Every function that is being compiled is in one hand: that of the thread that
owns it, or of the queue. -/
structure Hands (life : Nat → Life α) (queue : List Nat) (own : Nat → Option (Nat × Stage α)) :
    Prop where
  held : ∀ t i st, own t = some (i, st) → life i = st.life i ∧ st.phase ≠ .notCompiled
  alone : ∀ t u i st st', own t = some (i, st) → own u = some (i, st') → t = u
  queued : ∀ i ∈ queue, life i = Stage.life i .taken ∧ ∀ t st, own t ≠ some (i, st)
  nodup : queue.Nodup

namespace Hands

variable {life : Nat → Life α} {queue : List Nat} {own : Nat → Option (Nat × Stage α)}

theorem giveUp (h : Hands life queue own) (t : Nat) :
    Hands life queue (Function.update own t none) := by
  have hown : ∀ u i st, Function.update own t none u = some (i, st) → own u = some (i, st) := by
    intro u i st hu
    by_cases htu : u = t
    · subst htu
      simp at hu
    · simpa [htu] using hu
  refine ⟨fun u i st hu => h.held u i st (hown u i st hu), ?_, ?_, h.nodup⟩
  · intro u u' i st st' hu hu'
    exact h.alone u u' i st st' (hown _ _ _ hu) (hown _ _ _ hu')
  · intro i hi
    exact ⟨(h.queued i hi).1, fun u st hu => (h.queued i hi).2 u st (hown u i st hu)⟩

theorem drop (h : Hands life queue own) (i : Nat) : Hands life (queue.erase i) own :=
  ⟨h.held, h.alone, fun k hk => h.queued k (List.mem_of_mem_erase hk), h.nodup.erase i⟩

theorem submit (h : Hands life queue own) {t i : Nat} (hi : own t = some (i, .taken)) :
    Hands life (queue ++ [i]) (Function.update own t none) := by
  have hfree := h.giveUp t
  have hnew : i ∉ queue := fun hq => (h.queued i hq).2 t .taken hi
  refine ⟨hfree.held, hfree.alone, ?_, ?_⟩
  · intro k hk
    rcases List.mem_append.mp hk with hk | hk
    · exact hfree.queued k hk
    · obtain rfl : k = i := by simpa using hk
      refine ⟨(h.held t k .taken hi).1, fun u st hu => ?_⟩
      by_cases htu : u = t
      · subst htu
        simp at hu
      · rw [Function.update_of_ne htu] at hu
        exact htu (h.alone u t k st .taken hu hi)
  · rw [List.nodup_append]
    refine ⟨h.nodup, List.pairwise_singleton .., ?_⟩
    rintro a ha b hb rfl
    obtain rfl : a = i := by simpa using hb
    exact hnew ha

/-- A thread gets a function that nobody owns. -/
theorem acquire (h : Hands life queue own) {t i : Nat} {st : Stage α}
    (hlife : life i = st.life i) (hphase : st.phase ≠ .notCompiled)
    (hfree : ∀ u st, own u ≠ some (i, st)) (hqueue : i ∉ queue) :
    Hands life queue (Function.update own t (some (i, st))) := by
  have hcases : ∀ u k st', Function.update own t (some (i, st)) u = some (k, st') →
      (u = t ∧ k = i ∧ st' = st) ∨ own u = some (k, st') := by
    intro u k st' hu
    by_cases htu : u = t
    · subst htu
      rw [Function.update_self] at hu
      cases hu
      exact Or.inl ⟨rfl, rfl, rfl⟩
    · rw [Function.update_of_ne htu] at hu
      exact Or.inr hu
  refine ⟨?_, ?_, ?_, h.nodup⟩
  · intro u k st' hu
    rcases hcases u k st' hu with ⟨-, rfl, rfl⟩ | hu
    · exact ⟨hlife, hphase⟩
    · exact h.held u k st' hu
  · intro u u' k st₁ st₂ hu hu'
    rcases hcases u k st₁ hu with ⟨rfl, rfl, -⟩ | hold
    · rcases hcases u' k st₂ hu' with ⟨rfl, -, -⟩ | hold'
      · rfl
      · exact absurd hold' (hfree u' st₂)
    · rcases hcases u' k st₂ hu' with ⟨-, rfl, -⟩ | hold'
      · exact absurd hold (hfree u st₁)
      · exact h.alone u u' k st₁ st₂ hold hold'
  · intro k hk
    refine ⟨(h.queued k hk).1, fun u st' hu => ?_⟩
    rcases hcases u k st' hu with ⟨-, rfl, -⟩ | hu
    · exact hqueue hk
    · exact (h.queued k hk).2 u st' hu

theorem pick (h : Hands life queue own) {t i : Nat} (hi : i ∈ queue) :
    Hands life (queue.erase i) (Function.update own t (some (i, .taken))) := by
  obtain ⟨hlife, hfree⟩ := h.queued i hi
  exact (h.drop i).acquire hlife nofun hfree h.nodup.not_mem_erase

/-- The life of a function that is in no hand changes. -/
theorem outlive (h : Hands life queue own) {i : Nat} (L : Life α)
    (hfree : ∀ u st, own u ≠ some (i, st)) (hqueue : i ∉ queue) :
    Hands (Function.update life i L) queue own := by
  refine ⟨?_, h.alone, ?_, h.nodup⟩
  · intro u k st hu
    have hk : k ≠ i := by
      rintro rfl
      exact hfree u st hu
    rw [Function.update_of_ne hk]
    exact h.held u k st hu
  · intro k hk
    have hki : k ≠ i := by
      rintro rfl
      exact hqueue hk
    rw [Function.update_of_ne hki]
    exact h.queued k hk

theorem take (h : Hands life queue own) {t i : Nat} (hi : life i = Stage.life i .fresh) :
    Hands (Function.update life i (Stage.life i .taken)) queue
      (Function.update own t (some (i, .taken))) := by
  have hfree : ∀ u st, own u ≠ some (i, st) := by
    intro u st hu
    obtain ⟨hlife, hphase⟩ := h.held u i st hu
    exact hphase (congrArg Life.phase (hlife.symm.trans hi))
  have hqueue : i ∉ queue := by
    intro hq
    have hlife := hi.symm.trans (h.queued i hq).1
    cases congrArg Life.phase hlife
  exact (h.outlive _ hfree hqueue).acquire (Function.update_self ..) nofun hfree hqueue

theorem advance (h : Hands life queue own) {t i : Nat} {st st' : Stage α}
    (hi : own t = some (i, st)) (hnext : st.Next st') :
    Hands (Function.update life i (st'.life i)) queue
      (Function.update own t (some (i, st'))) := by
  -- the owner lets go of the function, its life changes, and the owner gets it back
  have hfree : ∀ u st, Function.update own t none u ≠ some (i, st) := by
    intro u st₁ hu
    by_cases htu : u = t
    · subst htu
      simp at hu
    · rw [Function.update_of_ne htu] at hu
      exact htu (h.alone u t i st₁ st hu hi)
  have hqueue : i ∉ queue := fun hq => (h.queued i hq).2 t st hi
  have hphase : st'.phase ≠ .notCompiled := by
    cases hnext <;> nofun
  have hback := ((h.giveUp t).outlive (st'.life i) hfree hqueue).acquire (t := t)
    (Function.update_self ..) hphase hfree hqueue
  rwa [Function.update_idem] at hback

end Hands

/-! ### Effects -/

namespace View

variable {v v' : View α} {duty : Nat → Duty α}

/-- The jobs of the first view are in the second, with the same cells. -/
theorem Sane.resolve (h : v.Sane) {i j : Nat} {status : JobStatus}
    (hfinished : ∀ p, status = .finished p → p.isFinal = true ∧ (v.life i).phase = p) :
    (v.resolve i j status).Sane := by
  unfold View.resolve
  split
  next hpending =>
    have hsome : ∀ k, (Function.update v.job i (some status) k).isSome = (v.job k).isSome := by
      intro k
      by_cases hk : k = i
      · subst hk
        simp [hpending]
      · rw [Function.update_of_ne hk]
    refine ⟨h.stage, fun k => (h.cell k).trans (hsome k).symm, fun k hk => ?_, fun k hk => ?_, ?_⟩
    · exact h.bound k (hsome k ▸ hk)
    · exact (hsome k).trans (h.opened k hk)
    · intro k p hk
      by_cases hki : k = i
      · subst hki
        have : status = .finished p := by simpa using hk
        exact hfinished p this
      · exact h.finished k p ((Function.update_of_ne hki ..).symm.trans hk)
  next => exact h

/-- The life of one function moves on. -/
theorem Sane.update (h : v.Sane) {i : Nat} (st : Stage α) (hopen : (v.job i).isSome)
    (hphase : (v.life i).phase.Before st.phase) :
    ({ v with life := Function.update v.life i (st.life i) } : View α).Sane := by
  refine ⟨?_, h.cell, h.bound, ?_, ?_⟩
  · intro k
    by_cases hk : k = i
    · subst hk
      exact ⟨st, Function.update_self ..⟩
    · obtain ⟨st', hst'⟩ := h.stage k
      exact ⟨st', (Function.update_of_ne hk ..).trans hst'⟩
  · intro k hk
    by_cases hki : k = i
    · subst hki
      exact hopen
    · refine h.opened k ?_
      simpa [hki] using hk
  · intro k p hk
    obtain ⟨hfinal, hp⟩ := h.finished k p hk
    refine ⟨hfinal, ?_⟩
    by_cases hki : k = i
    · subst hki
      rw [hp] at hphase
      simp only [Function.update_self]
      exact hphase.eq_of_final hfinal
    · simpa [hki] using hp

theorem Sane.openJob (h : v.Sane) {i j : Nat} (hi : i < v.size) :
    ({ v with
      cell := Function.update v.cell i (some j)
      job := Function.update v.job i (some ((v.job i).getD .pending)) } : View α).Sane := by
  have hjob : ∀ k, (v.job k).isSome →
      (Function.update v.job i (some ((v.job i).getD .pending)) k).isSome := by
    intro k hk
    by_cases hki : k = i
    · subst hki
      simp
    · rwa [Function.update_of_ne hki]
  refine ⟨h.stage, ?_, ?_, fun k hk => hjob k (h.opened k hk), ?_⟩
  · intro k
    by_cases hk : k = i
    · subst hk
      simp
    · simpa [hk] using h.cell k
  · intro k hk
    by_cases hki : k = i
    · subst hki
      exact hi
    · refine h.bound k ?_
      simpa [hki] using hk
  · intro k p hk
    by_cases hki : k = i
    · subst hki
      refine h.finished k p ?_
      simp only [Function.update_self] at hk
      cases hj : v.job k with
      | none => simp [hj] at hk
      | some status => simpa [hj] using hk
    · exact h.finished k p ((Function.update_of_ne hki ..).symm.trans hk)

/-- What is so at all times stays so. -/
theorem Sane.effect (h : v.Sane) {t : Nat} {d d' : Duty α} (e : Effect t v d v' d')
    (hown : ∀ i st, d.own = some (i, st) → (v.job i).isSome) : v'.Sane := by
  cases e with
  | cancel => exact h.resolve nofun
  | @settle i j st hmode hi hlife hfinal hcell =>
    refine h.resolve fun p hp => ?_
    cases hp
    exact ⟨hfinal, congrArg Life.phase hlife⟩
  | openJob hmode hown' hi hcell => exact h.openJob hi
  | @take i hmode hi hlife hjob =>
    refine h.update .taken hjob ?_
    rw [hlife]
    exact Phase.Next.take.before
  | @advance i st st' hi hlife hnext hmode =>
    refine h.update st' (hown i st hi) ?_
    rw [hlife]
    rcases hnext.phase with hp | hp
    · exact Or.inl hp.symm
    · exact hp.before
  | _ => exact ⟨h.stage, h.cell, h.bound, h.opened, h.finished⟩

/-- What is so at all times, and who owns what. -/
structure Order (v : View α) (duty : Nat → Duty α) : Prop where
  sane : v.Sane
  hands : Hands v.life v.queue fun t => (duty t).own
  answers : ∀ a ∈ v.answers, a.Holds v

namespace Order

theorem fits (h : v.Order duty) {n t : Nat} {K : Set (Fact α)} (hsize : v.size = n)
    (hK : ∀ f ∈ K, f.Holds v) : v.Fits n K (duty t) where
  sane := h.sane
  size := hsize
  facts := hK
  own i st hst := (h.hands.held t i st hst).1

/-- A function that a thread owns has a job. -/
theorem opened (h : v.Order duty) {t i : Nat} {st : Stage α} (hi : (duty t).own = some (i, st)) :
    (v.job i).isSome := by
  obtain ⟨hlife, hphase⟩ := h.hands.held t i st hi
  refine h.sane.opened i ?_
  rw [hlife]
  exact hphase

theorem hands_effect (h : v.Order duty) {t : Nat} {d' : Duty α} (e : Effect t v (duty t) v' d') :
    Hands v'.life v'.queue fun u => (Function.update duty t d' u).own := by
  have hsame : Hands v.life v.queue (Function.update (fun u => (duty u).own) t (duty t).own) := by
    rw [Function.update_eq_self t fun u => (duty u).own]
    exact h.hands
  rw [Duty.own_update]
  cases e with
  | release => exact h.hands.giveUp t
  | submit hi => exact h.hands.submit hi
  | drop i => exact hsame.drop i
  | pick hi => exact h.hands.pick hi
  | take hmode hi hlife => exact h.hands.take hlife
  | advance hi hlife hnext => exact h.hands.advance hi hnext
  | settle =>
    rw [life_resolve, queue_resolve]
    exact h.hands.giveUp t
  | cancel =>
    rw [life_resolve, queue_resolve]
    exact hsame
  | _ => exact hsame

/-- Every effect keeps the order. -/
theorem effect (h : v.Order duty) {t : Nat} {d' : Duty α} (e : Effect t v (duty t) v' d') :
    v'.Order (Function.update duty t d') where
  sane := h.sane.effect e fun _ _ hi => h.opened hi
  hands := h.hands_effect e
  answers := by
    have hlast : ∀ a ∈ v.answers, a.Holds v' := fun a ha => e.follows.answer (h.answers a ha)
    cases e with
    | report hholds =>
      intro a ha
      rcases List.mem_append.mp ha with ha | ha
      · exact hlast a ha
      · obtain rfl : a = _ := by simpa using ha
        exact (View.Follows.refl v).answer hholds
    | conclude =>
      intro a ha
      rcases List.mem_append.mp ha with ha | ha
      · exact hlast a ha
      · obtain rfl : a = .closed true := by simpa using ha
        trivial
    | cancel | settle =>
      intro a ha
      rw [answers_resolve] at ha
      exact hlast a ha
    | _ => exact hlast

/-- A thread that is gone owns nothing. -/
theorem giveUp (h : v.Order duty) (t : Nat) (g : Gate) :
    ({ v with gate := g } : View α).Order (Function.update duty t {}) := by
  have hfollows : v.Follows { v with gate := g } := { View.Follows.refl v with }
  refine ⟨⟨h.sane.stage, h.sane.cell, h.sane.bound, h.sane.opened, h.sane.finished⟩, ?_,
    fun a ha => hfollows.answer (h.answers a ha)⟩
  rw [Duty.own_update]
  exact h.hands.giveUp t

end Order

end View

/-! ### Moves -/

namespace System

/-- The threads obey their duties, and know what is so. -/
structure Keeps (n : Nat) (s : System α) (duty : Nat → Duty α) (known : Nat → Set (Fact α)) :
    Prop where
  order : s.world.view.Order duty
  size : s.world.view.size = n
  facts : ∀ t, ∀ f ∈ known t, f.Holds s.world.view
  obeys : ∀ t, Obeys n t (known t) (duty t) (s.scripts t)

namespace Keeps

variable {n : Nat} {s : System α} {duty : Nat → Duty α} {known : Nat → Set (Fact α)}

/-- A thread goes on with another script. -/
theorem follow (h : Keeps n s duty known) {t : Nat} {w : World α} {c : Script α} {d : Duty α}
    {K : Set (Fact α)} (hfollows : s.world.view.Follows w.view)
    (horder : w.view.Order (Function.update duty t d)) (hK : ∀ f ∈ K, f.Holds w.view)
    (hc : Obeys n t K d c) :
    Keeps n (s.follow t w c) (Function.update duty t d) (Function.update known t K) where
  order := horder
  size := hfollows.size.trans h.size
  facts := by
    intro u f hf
    by_cases hu : u = t
    · subst hu
      rw [Function.update_self] at hf
      exact hK f hf
    · rw [Function.update_of_ne hu] at hf
      exact hfollows.fact (h.facts u f hf)
  obeys := by
    intro u
    by_cases hu : u = t
    · subst hu
      simpa [System.follow] using hc
    · simpa [System.follow, hu] using h.obeys u

/-- What a move does: one effect. -/
def Effective (n : Nat) (t : Nat) (s s' : System α) (duty : Nat → Duty α)
    (known : Nat → Set (Fact α)) : Prop :=
  ∃ d K, Effect t s.world.view (duty t) s'.world.view d ∧
    Keeps n s' (Function.update duty t d) (Function.update known t K)

theorem effective (h : Keeps n s duty known) {t : Nat} {w : World α} {c : Script α} {d : Duty α}
    {K : Set (Fact α)} (e : Effect t s.world.view (duty t) w.view d)
    (hK : ∀ f ∈ K, f.Holds w.view) (hc : Obeys n t K d c) :
    Effective n t s (s.follow t w c) duty known :=
  ⟨d, K, e, h.follow e.follows (h.order.effect e) hK hc⟩

/-- A move that only changes the world, for a thread that goes on as before. -/
theorem effective_world (h : Keeps n s duty known) {t : Nat} {w : World α}
    (e : Effect t s.world.view (duty t) w.view (duty t)) :
    Effective n t s { s with world := w } duty known := by
  rw [← s.follow_scripts w t]
  exact h.effective e (fun f hf => e.follows.fact (h.facts t f hf)) (h.obeys t)

theorem effective_self (h : Keeps n s duty known) (t : Nat) : Effective n t s s duty known :=
  h.effective_world .quiet

theorem effective_go (h : Keeps n s duty known) (t : Nat) :
    Effective n t s (s.go t) duty known := by
  have hfits := h.order.fits (t := t) h.size (h.facts t)
  unfold System.go
  split
  next w c hact =>
    obtain ⟨K, d, e, hK, hc⟩ := (h.obeys t).step hfits hact
    exact h.effective e hK hc
  next hact =>
    cases hawait : (s.scripts t).awaited? with
    | none => exact h.effective_self t
    | some x =>
      have hcell : s.world.cells x.func = some x.job :=
        h.facts t _ ((h.obeys t).job_of_awaited hawait)
      have hpending : s.world.view.job x.func = some .pending :=
        World.pending_of_blocked h.order.sane hcell hact hawait
      exact h.effective_world (.sleep hcell hpending)

/-- Every move but a crash is an effect. -/
theorem step (h : Keeps n s duty known) (t : Nat) {m : Move α} (hm : m ≠ .crash) :
    Effective n t s (s.step t m) duty known := by
  have hidle : (s.scripts t).isDone → (duty t).mode = .outside ∧ (duty t).Light := by
    intro hdone
    have hobeys := h.obeys t
    rw [Script.eq_done hdone] at hobeys
    exact hobeys.mode_of_done
  cases m with
  | call c =>
    simp only [System.step]
    split
    next hdone =>
      obtain ⟨hmode, hlight⟩ := hidle hdone
      have hsize : s.world.service.table.length = n := h.size
      have e : Effect t s.world.view (duty t) s.world.view {} := by
        have := Effect.release (t := t) (v := s.world.view) hlight
        rwa [hmode] at this
      rw [hsize]
      exact h.effective (K := ∅) e nofun (obeys_call c)
    next => exact h.effective_self t
  | job i =>
    simp only [System.step]
    split
    next hdone =>
      obtain ⟨hmode, hlight⟩ := hidle hdone.1
      have e : Effect t s.world.view (duty t) (s.world.unqueue i).view
          ⟨.outside, some (i, .taken)⟩ := by
        have := Effect.pick (t := t) (v := s.world.view) hdone.2 hlight
        rwa [hmode] at this
      exact h.effective (K := ∅) e nofun obeys_runJob
    next => exact h.effective_self t
  | drop i => exact h.effective_world (.drop i)
  | wake => exact h.effective_world .wake
  | go =>
    simp only [System.step]
    split
    · exact h.effective_self t
    · exact h.effective_go t
  | compiled r =>
    simp only [System.step, System.comeBack]
    split
    next i next hscript =>
      have hobeys := h.obeys t
      rw [hscript] at hobeys
      exact h.effective .quiet (h.facts t) (hobeys.of_compile r)
    next => exact h.effective_self t
  | crash => exact absurd rfl hm

/-- A crash: the event is told, and the thread gives up what it owns. -/
theorem crash (h : Keeps n s duty known) (t : Nat) :
    (∃ duty' known', Keeps n (s.crash t) duty' known') ∧
      s.world.view.Follows (s.crash t).world.view ∧
      ∀ i, ((s.crash t).world.life i).phase = (s.world.life i).phase ∨
        (s.world.life i).phase.Next ((s.crash t).world.life i).phase := by
  unfold System.crash
  split
  next event next hscript =>
    have hobeys := h.obeys t
    rw [hscript] at hobeys
    obtain ⟨K, d, e, -, -⟩ := hobeys.step (h.order.fits h.size (h.facts t)) rfl
    have horder := (h.order.effect e).giveUp t ((s.world.tell event).gate.leave t)
    rw [Function.update_idem] at horder
    have hfollows : s.world.view.Follows
        { (s.world.tell event).view with gate := (s.world.tell event).gate.leave t } :=
      e.follows.trans { View.Follows.refl _ with }
    exact ⟨⟨_, _, h.follow (K := ∅) hfollows horder nofun obeys_done⟩, hfollows, e.phase_next⟩
  next => exact ⟨⟨duty, known, h⟩, .refl _, fun i => Or.inl rfl⟩

/-- What every move keeps, and how far it goes. -/
theorem move (h : Keeps n s duty known) (t : Nat) (m : Move α) :
    (∃ duty' known', Keeps n (s.step t m) duty' known') ∧
      s.world.view.Follows (s.step t m).world.view ∧
      ∀ i, ((s.step t m).world.life i).phase = (s.world.life i).phase ∨
        (s.world.life i).phase.Next ((s.step t m).world.life i).phase := by
  by_cases hm : m = .crash
  · subst hm
    exact h.crash t
  · obtain ⟨d, K, e, hkeeps⟩ := h.step t hm
    exact ⟨⟨_, _, hkeeps⟩, e.follows, e.phase_next⟩

theorem run (h : Keeps n s duty known) (σ : Schedule α) :
    (∃ duty' known', Keeps n (s.run σ) duty' known') ∧
      s.world.view.Follows (s.run σ).world.view := by
  induction σ generalizing s duty known with
  | nil => exact ⟨⟨duty, known, h⟩, .refl _⟩
  | cons m σ ih =>
    obtain ⟨⟨duty', known', hkeeps⟩, hfollows, -⟩ := h.move m.1 m.2
    obtain ⟨hlast, hfollows'⟩ := ih hkeeps
    exact ⟨hlast, hfollows.trans hfollows'⟩

end Keeps

/-! At the beginning nothing has happened. -/

theorem life_new (n threshold i : Nat) :
    (System.new n threshold : System α).world.life i = Stage.life i .fresh := by
  have hart : (Table.new n : Table α)[i]?.bind Slot.artifact = none := by
    cases hs : (Table.new n : Table α)[i]? with
    | none => rfl
    | some s => simp [Table.slot_new hs]
  simp only [World.life, World.artifact?, System.new, Service.new, Table.phase_new, hart]
  rfl

theorem job_new (n threshold i : Nat) :
    (System.new n threshold : System α).world.view.job i = none :=
  Table.job?_new n i

/-- Nobody has any duties. -/
theorem keeps_new (n threshold : Nat) :
    Keeps n (System.new n threshold : System α) (fun _ => {}) fun _ => ∅ := by
  have hhands : Hands (System.new n threshold : System α).world.life [] fun _ => none := by
    refine ⟨fun t i st h => ?_, fun t u i st st' h => ?_, fun i hi => ?_, List.nodup_nil⟩
    · cases h
    · cases h
    · cases hi
  refine ⟨⟨⟨fun i => ⟨.fresh, life_new n threshold i⟩, ?_, ?_, ?_, ?_⟩, hhands, fun a ha => ?_⟩,
    List.length_replicate, fun t f hf => ?_, fun t => obeys_done⟩
  · intro i
    rw [job_new]
    rfl
  · intro i hi
    rw [job_new] at hi
    cases hi
  · intro i hi
    exact absurd (congrArg Life.phase (life_new n threshold i)) hi
  · intro i p hi
    rw [job_new] at hi
    cases hi
  · exact absurd ha List.not_mem_nil
  · exact absurd hf (Set.notMem_empty f)

/-! ### One function -/

/-- What is promised of function `i` in a system, now and after every schedule. -/
structure Safe (s : System α) (i : Nat) : Prop where
  /-- The compiler is run at most once. -/
  once : s.world.begun.count i ≤ 1
  /-- A move takes it from one phase to the next, or leaves it where it is. -/
  next : ∀ t m,
    (s.step t m).world.service.table.phase i = s.world.service.table.phase i ∨
    (s.world.service.table.phase i).Next ((s.step t m).world.service.table.phase i)
  /-- It never leaves a final phase. -/
  final : (s.world.service.table.phase i).isFinal = true → ∀ τ,
    (s.run τ).world.service.table.phase i = s.world.service.table.phase i
  /-- There is an artifact exactly when it is ready. -/
  ready : (s.world.service.table.compiled? i).isSome ↔ s.world.service.table.phase i = .ready
  /-- The artifact stays the same. -/
  artifact : ∀ a, s.world.service.table.compiled? i = some a → ∀ τ,
    (s.run τ).world.service.table.compiled? i = some a
  /-- Whoever looked for the artifact has got it if it was ready by then. -/
  looked : ∀ seen found, .artifact i seen found ∈ s.world.answers →
    (found.isSome ↔ seen = .ready) ∧
    ∀ a, found = some a → s.world.service.table.compiled? i = some a
  /-- Whoever looked at the phase has seen this one or one before. -/
  seen : ∀ p, .phase i p ∈ s.world.answers → p.Before (s.world.service.table.phase i)
  /-- All handles are on one job. -/
  handle : ∀ h h', .asked i (some h) ∈ s.world.answers → .asked i (some h') ∈ s.world.answers →
    h = h' ∧ h.func = i
  /-- The status of a handle changes at most once. -/
  decided : ∀ h, .asked i (some h) ∈ s.world.answers → s.world.status h ≠ .pending → ∀ τ,
    (s.run τ).world.status h = s.world.status h
  /-- If it tells that the job has finished, it tells the phase. -/
  finished : ∀ h p, .asked i (some h) ∈ s.world.answers → s.world.status h = .finished p →
    p.isFinal = true ∧ s.world.service.table.phase i = p
  /-- It is told that it was started, then that it has succeeded or failed, and
  nothing else. -/
  told : ∃ ending, (ending = .succeeded i ∨ ∃ e, ending = .failed i e) ∧
    s.world.service.events.filter (fun e => e.func = i) <+: [.started i, ending]
  succeeded : .succeeded i ∈ s.world.service.events → s.world.service.table.phase i = .ready
  failed : ∀ e, .failed i e ∈ s.world.service.events → s.world.service.table.phase i = .failed

theorem compiled?_eq (w : World α) (i : Nat) :
    w.service.table.compiled? i =
      if (w.life i).phase = .ready then (w.life i).artifact else none := by
  cases hs : w.service.table[i]? with
  | none => simp [Table.compiled?, World.life, Table.phase, hs]
  | some s => simp [Table.compiled?, Slot.compiled?, World.life, Table.phase, World.artifact?, hs]

theorem compiled?_eq_some {w : World α} {i : Nat} {a : α} :
    w.service.table.compiled? i = some a ↔
      (w.life i).phase = .ready ∧ (w.life i).artifact = some a := by
  rw [compiled?_eq]
  split
  next h => simp [h]
  next h => simp [h]

/-- An artifact that is published stays. -/
theorem compiled?_of_follows {w w' : World α} (h : w.view.Follows w'.view) {i : Nat} {a : α}
    (ha : w.service.table.compiled? i = some a) : w'.service.table.compiled? i = some a := by
  obtain ⟨hready, hart⟩ := compiled?_eq_some.mp ha
  have hbefore : (w.life i).phase.Before (w'.life i).phase := h.phase i
  rw [hready] at hbefore
  exact compiled?_eq_some.mpr ⟨hbefore.eq_of_final rfl, h.artifact i a hart⟩

/-- A handle whose job is decided tells the same from then on. -/
theorem status_of_follows {w w' : World α} (hf : w.view.Follows w'.view) {h : Handle}
    (hcell : w.cells h.func = some h.job) (hdecided : w.status h ≠ .pending) :
    w'.status h = w.status h := by
  have hjob : w'.view.job h.func = some (w.status h) :=
    hf.job _ _ (World.job_of_status hcell rfl hdecided) hdecided
  have hcell' : w'.cells h.func = some h.job := hf.cell _ _ hcell
  rw [show w'.status h = (w'.view.job h.func).getD .pending from if_pos hcell', hjob]
  rfl

/-- **The lives of functions.** Whatever callers, jobs, readers and whoever closes
do, in any order of their actions, every function is compiled at most once, goes
its way and never back, and all that is told about it agrees with that. -/
theorem lives_of_functions (n threshold : Nat) (σ : Schedule α) (i : Nat) :
    ((System.new n threshold).run σ).Safe i := by
  obtain ⟨⟨duty, known, hkeeps⟩, -⟩ := (keeps_new n threshold).run σ
  generalize (System.new n threshold).run σ = s at hkeeps
  obtain ⟨st, hst⟩ := hkeeps.order.sane.stage i
  have hlife : s.world.life i = st.life i := hst
  have hphase : s.world.service.table.phase i = st.phase := congrArg Life.phase hlife
  have hevents : s.world.service.events.filter (fun e => e.func = i) = st.events i :=
    congrArg Life.events hlife
  have hlater : ∀ τ, s.world.view.Follows (s.run τ).world.view := fun τ => (hkeeps.run τ).2
  have hheld : ∀ h, .asked i (some h) ∈ s.world.answers →
      h.func = i ∧ s.world.cells i = some h.job :=
    fun h hh => hkeeps.order.answers _ hh h rfl
  have htold : ∀ e : Event, e.func = i → e ∈ s.world.service.events → e ∈ st.events i := by
    intro e he hmem
    rw [← hevents]
    exact List.mem_filter.mpr ⟨hmem, decide_eq_true he⟩
  constructor
  case once =>
    have hruns : s.world.begun.count i = st.runs := congrArg Life.runs hlife
    rw [hruns]
    exact st.runs_le_one
  case next => exact fun t m => (hkeeps.move t m).2.2 i
  case final => exact fun hfinal τ => ((hlater τ).phase i).eq_of_final hfinal
  case ready =>
    rw [compiled?_eq, hlife, hphase]
    cases st <;> simp [Stage.life, Stage.phase, Stage.artifact]
  case artifact => exact fun a ha τ => compiled?_of_follows (hlater τ) ha
  case looked =>
    intro seen found hmem
    obtain ⟨hseen, hfound, hart⟩ := hkeeps.order.answers _ hmem
    refine ⟨hfound, fun a ha => compiled?_eq_some.mpr ⟨?_, hart a ha⟩⟩
    have hready : seen = .ready := hfound.mp (by rw [ha]; rfl)
    subst hready
    exact hseen.eq_of_final rfl
  case seen => exact fun p hmem => hkeeps.order.answers _ hmem
  case handle =>
    intro h h' hh hh'
    obtain ⟨hfunc, hcell⟩ := hheld h hh
    obtain ⟨hfunc', hcell'⟩ := hheld h' hh'
    have hjob : h.job = h'.job := Option.some.inj (hcell.symm.trans hcell')
    cases h
    cases h'
    simp_all
  case decided =>
    intro h hh hdecided τ
    obtain ⟨rfl, hcell⟩ := hheld h hh
    exact status_of_follows (hlater τ) hcell hdecided
  case finished =>
    intro h p hh hp
    obtain ⟨rfl, hcell⟩ := hheld h hh
    exact hkeeps.order.sane.finished _ p (World.job_of_status hcell hp (by simp))
  case told =>
    rw [hevents]
    exact st.events_prefix i
  case succeeded =>
    intro hmem
    rw [hphase]
    exact Stage.phase_of_succeeded (htold _ rfl hmem)
  case failed =>
    intro e hmem
    rw [hphase]
    exact Stage.phase_of_failed (htold _ rfl hmem)

end System

end StackMachine.Lifecycle
