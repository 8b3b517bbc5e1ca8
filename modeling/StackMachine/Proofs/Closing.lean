/-
# Closing a service

Whoever finds the service open and closes it takes the gate for itself before it
cancels what is left. When it has answered, every job is decided, and nothing
changes any more: what was published stays, and nobody gets a handle.

* `View.Settles`: every job that is opened is on its way to a decision: the caller
  that opened it is still to take the function, the thread that owns it is still to
  tell that it has ended, or the one who closes is still to cancel it;
* `View.Settles.effect`: every effect keeps that;
* `close_settles`: what follows once the one who closes has answered.

A thread that crashes while it owns a function leaves its job undecided, so the
schedules here are those without crashes.
-/
import StackMachine.Proofs.Chronicles
import StackMachine.Proofs.Gates
import StackMachine.Proofs.Lives

namespace StackMachine.Lifecycle

variable {α : Type}

/-! ### What effects do to jobs -/

/-- The functions that the one who closes has visited. -/
def Mode.visited : Mode → Nat → Prop
  | sweeping k, i | cancelling k, i => i < k
  | parting, _ => True
  | _, _ => False

theorem Mode.seals_of_visited {m : Mode} {i : Nat} (h : m.visited i) : m.seals := by
  cases m with
  | sweeping k | cancelling k | parting => rfl
  | _ => exact h.elim

theorem Mode.not_admitted_of_visited {m : Mode} {i : Nat} (h : m.visited i) :
    m.isAdmitted = false := by
  cases m with
  | admitted => exact h.elim
  | _ => rfl

namespace Effect

variable {v v' : View α} {d d' : Duty α} {t i : Nat}

/-- Only a thread inside an open service changes a phase, an artifact or a cell. -/
theorem calm (e : Effect t v d v' d') (hd : d.mode.isAdmitted = false) (i : Nat) :
    (v'.life i).phase = (v.life i).phase ∧ (v'.life i).artifact = (v.life i).artifact ∧
      v'.cell i = v.cell i := by
  have hnot := Mode.ne_admitted hd
  cases e with
  | openJob hmode | take hmode | settle hmode => exact absurd hmode (hnot _)
  | cancel => simp
  | @advance k st st' hown hlife hnext hmode =>
    obtain ⟨hphase, hart⟩ : st'.phase = st.phase ∧ st'.artifact = st.artifact :=
      hmode.resolve_right (hnot none)
    by_cases hk : i = k
    · subst hk
      simp only [Function.update_self, hlife]
      exact ⟨hphase, hart, trivial⟩
    · simp [hk]
  | _ => exact ⟨rfl, rfl, rfl⟩

/-- A job is opened, told to have ended by the thread that owns the function, or
cancelled. -/
theorem job_cases (e : Effect t v d v' d') (i : Nat) :
    v'.job i = v.job i ∨
    (d.mode = .admitted none ∧ v'.job i = some .pending ∧ d'.mode = .admitted (some i)) ∨
    (d.mode = .admitted none ∧ ∃ st, d.own = some (i, st) ∧ st.phase.isFinal = true ∧
      v'.job i = some (.finished st.phase)) ∨
    (d.mode = .cancelling i ∧ v'.job i = some .cancelled) := by
  cases e with
  | @openJob k j hmode hown hk hcell =>
    by_cases hki : i = k
    · subst hki
      cases hj : v.job i with
      | none => exact Or.inr (Or.inl ⟨hmode, by simp, rfl⟩)
      | some status => exact Or.inl (by simp)
    · exact Or.inl (Function.update_of_ne hki ..)
  | @settle k j st hmode hown hlife hfinal hcell =>
    unfold View.resolve
    split
    · by_cases hki : i = k
      · subst hki
        exact Or.inr (Or.inr (Or.inl ⟨hmode, st, hown, hfinal, Function.update_self ..⟩))
      · exact Or.inl (Function.update_of_ne hki ..)
    · exact Or.inl rfl
  | @cancel k j hmode hcell =>
    unfold View.resolve
    split
    · by_cases hki : i = k
      · subst hki
        exact Or.inr (Or.inr (Or.inr ⟨hmode, Function.update_self ..⟩))
      · exact Or.inl (Function.update_of_ne hki ..)
    · exact Or.inl rfl
  | _ => exact Or.inl rfl

/-- Nobody gets inside an open service once it is closed. -/
theorem not_admitted (e : Effect t v d v' d') (hclosed : v.closed = true)
    (hd : d.mode.isAdmitted = false) : d'.mode.isAdmitted = false := by
  have hnot := Mode.ne_admitted hd
  cases e with
  | grant hmode hopen =>
    rw [hclosed] at hopen
    cases hopen
  | openJob hmode | take hmode | yield hmode => exact absurd hmode (hnot _)
  | enter | deny | leave | close | lock | pass | find | cancel | unlock | conclude => rfl
  | _ => exact hd

/-- Whoever has opened a job is about to take the function, until it is taken. -/
theorem owing (e : Effect t v d v' d') (hd : d.mode = .admitted (some i))
    (hphase : (v'.life i).phase = .notCompiled) : d'.mode = .admitted (some i) := by
  cases e with
  | enter hmode | grant hmode | deny hmode | close hmode | lock hmode | pass hmode | find hmode
  | cancel hmode | unlock hmode | conclude hmode | openJob hmode =>
    rw [hmode] at hd
    cases hd
  | leave hmode =>
    rcases hmode with hmode | hmode
    · rw [hmode] at hd
      cases hd
    · rw [hmode] at hd
      cases hd
  | yield hmode hne =>
    rw [hmode] at hd
    cases hd
    exact absurd hphase hne
  | take hmode =>
    rw [hmode] at hd
    cases hd
    simp only [Function.update_self] at hphase
    cases hphase
  | _ => exact hd

/-- A function that has come to its end stays with its owner until the job is told
to have ended. -/
theorem bearing (e : Effect t v d v' d') {st : Stage α} (hd : d.own = some (i, st))
    (hfinal : st.phase.isFinal = true) :
    (∃ st', d'.own = some (i, st')) ∨ ∃ j, v' = v.resolve i j (.finished st.phase) := by
  have hheavy : ¬ d.Light := by
    intro hlight
    rw [hlight i st hd] at hfinal
    cases hfinal
  cases e with
  | release hlight | pick _ hlight => exact absurd hlight hheavy
  | submit hown =>
    rw [hown] at hd
    cases hd
    cases hfinal
  | take _ hown =>
    rw [hown] at hd
    cases hd
  | advance hown =>
    rw [hown] at hd
    cases hd
    exact Or.inl ⟨_, rfl⟩
  | settle _ hown =>
    rw [hown] at hd
    cases hd
    exact Or.inr ⟨_, rfl⟩
  | _ => exact Or.inl ⟨st, hd⟩

/-- Only its owner brings a function to its end. -/
theorem finishing (e : Effect t v d v' d') (hold : (v.life i).phase.isFinal = false)
    (hnew : (v'.life i).phase.isFinal = true) : ∃ st, d'.own = some (i, st) := by
  have hsame : (v.life i).phase.isFinal = true → ∃ st, d'.own = some (i, st) := by
    intro hfinal
    rw [hfinal] at hold
    cases hold
  cases e with
  | cancel | settle =>
    rw [View.life_resolve] at hnew
    exact hsame hnew
  | @take k hmode hown hlife =>
    by_cases hk : i = k
    · subst hk
      simp only [Function.update_self] at hnew
      cases hnew
    · simp only [Function.update_of_ne hk] at hnew
      exact hsame hnew
  | @advance k st st' hown hlife hnext =>
    by_cases hk : i = k
    · subst hk
      exact ⟨st', rfl⟩
    · simp only [Function.update_of_ne hk] at hnew
      exact hsame hnew
  | _ => exact hsame hnew

/-- Whoever owns a function that has come to its end stays inside. -/
theorem bearer (e : Effect t v d v' d')
    (hd : ∀ i st, d.own = some (i, st) → st.phase.isFinal = true → d.mode = .admitted none)
    {st : Stage α} (hd' : d'.own = some (i, st)) (hfinal : st.phase.isFinal = true) :
    d'.mode = .admitted none := by
  cases e with
  | release | submit | settle => cases hd'
  | pick =>
    cases hd'
    cases hfinal
  | take | yield | grant => rfl
  | @advance k st₁ st₂ hown hlife hnext hmode =>
    obtain ⟨rfl, rfl⟩ : k = i ∧ st₂ = st := by simpa using hd'
    rcases hmode with ⟨hphase, -⟩ | hmode
    · exact hd k st₁ hown (hphase ▸ hfinal)
    · exact hmode
  | openJob _ hown =>
    rw [show d.own = some (i, st) from hd'] at hown
    cases hown
  | leave _ hlight =>
    rw [hlight i st hd'] at hfinal
    cases hfinal
  | enter hmode | deny hmode | close hmode | lock hmode | pass hmode | find hmode | cancel hmode
  | unlock hmode | conclude hmode =>
    rw [hd i st hd' hfinal] at hmode
    cases hmode
  | _ => exact hd i st hd' hfinal

/-- Whoever visits functions was not inside an open service. -/
theorem out_of_visited (e : Effect t v d v' d') (hvisited : d'.mode.visited i) :
    d.mode.isAdmitted = false := by
  cases e with
  | enter | grant | deny | leave | close | conclude | openJob | take | yield => exact hvisited.elim
  | lock hmode | pass hmode | find hmode | cancel hmode | unlock hmode =>
    rw [hmode]
    rfl
  | _ => exact Mode.not_admitted_of_visited hvisited

/-- A function is visited when it is not being compiled, or when its job is cancelled. -/
theorem visiting (e : Effect t v d v' d') (hvisited : d'.mode.visited i)
    (hphase : (v.life i).phase = .compiling) (hi : i < v.size) :
    d.mode.visited i ∨ (d.mode = .cancelling i ∧ ∃ j, v' = v.resolve i j .cancelled) := by
  cases e with
  | enter | grant | deny | leave | close | conclude | openJob | take | yield => exact hvisited.elim
  | lock => exact absurd hvisited (Nat.not_lt_zero i)
  | pass hmode hne =>
    rcases Nat.lt_succ_iff_lt_or_eq.mp hvisited with hlt | rfl
    · rw [hmode]
      exact Or.inl hlt
    · exact absurd hphase hne
  | find hmode =>
    rw [hmode]
    exact Or.inl hvisited
  | @cancel k j hmode =>
    rcases Nat.lt_succ_iff_lt_or_eq.mp hvisited with hlt | rfl
    · rw [hmode]
      exact Or.inl hlt
    · exact Or.inr ⟨hmode, j, rfl⟩
  | unlock hmode =>
    rw [hmode]
    exact Or.inl hi
  | _ => exact Or.inl hvisited

/-- Whoever is about to cancel a job has found the function being compiled. -/
theorem finding (e : Effect t v d v' d') (hd' : d'.mode = .cancelling i) :
    d.mode.isAdmitted = false ∧ (d.mode = .cancelling i ∨ (v.life i).phase = .compiling) := by
  have hself : d.mode = .cancelling i →
      d.mode.isAdmitted = false ∧ (d.mode = .cancelling i ∨ (v.life i).phase = .compiling) := by
    intro hd
    rw [hd]
    exact ⟨rfl, Or.inl rfl⟩
  cases e with
  | find hmode hphase =>
    cases hd'
    rw [hmode]
    exact ⟨rfl, Or.inr hphase⟩
  | enter | grant | deny | leave | close | lock | pass | cancel | unlock | conclude | openJob | take
  | yield => cases hd'
  | _ => exact hself hd'

/-- A handle is given only to a caller inside an open service. -/
theorem answers_cases (e : Effect t v d v' d') :
    ∃ later, v'.answers = v.answers ++ later ∧
      ∀ i h, .asked i (some h) ∈ later → d.mode.isAdmitted = true := by
  have hnone : ∃ later, v.answers = v.answers ++ later ∧
      ∀ i h, .asked i (some h) ∈ later → d.mode.isAdmitted = true :=
    ⟨[], (List.append_nil _).symm, nofun⟩
  cases e with
  | @report a hholds hclosed hasked =>
    refine ⟨[a], rfl, fun i h hmem => ?_⟩
    rw [hasked i h (List.mem_singleton.mp hmem).symm]
    rfl
  | conclude => exact ⟨[.closed true], rfl, by simp⟩
  | cancel | settle =>
    rw [View.answers_resolve]
    exact hnone
  | _ => exact hnone

/-- Whoever has closed the service answers when all functions have been visited. -/
theorem answering (e : Effect t v d v' d') (h : v'.Answered) :
    v.Answered ∨ d.mode = .parting := by
  cases e with
  | conclude hmode => exact Or.inr hmode
  | report _ ha =>
    rcases List.mem_append.mp h with hmem | hmem
    · exact Or.inl hmem
    · exact absurd (List.mem_singleton.mp hmem).symm ha
  | cancel | settle =>
    rw [View.Answered, View.answers_resolve] at h
    exact Or.inl h
  | _ => exact Or.inl h

end Effect

/-! ### Every job comes to a decision -/

namespace View

variable {v v' : View α} {duty : Nat → Duty α} {t : Nat} {d' : Duty α}

/-- The service is closed, and nobody is inside as if it were open. -/
structure Sealed (v : View α) (duty : Nat → Duty α) : Prop where
  closed : v.closed = true
  out : ∀ u, (duty u).mode.isAdmitted = false

theorem Sealed.effect (h : v.Sealed duty) (e : Effect t v (duty t) v' d') :
    v'.Sealed (Function.update duty t d') := by
  refine ⟨e.follows.closed h.closed, fun u => ?_⟩
  by_cases hu : u = t
  · subst hu
    rw [Function.update_self]
    exact e.not_admitted h.closed (h.out u)
  · rw [Function.update_of_ne hu]
    exact h.out u

theorem Guarded.sealed (h : v.Guarded duty) {u : Nat} (hu : (duty u).mode.seals) :
    v.Sealed duty :=
  ⟨h.closers.shut u (Mode.closes_of_seals hu), h.closers.sealed u hu⟩

theorem Guarded.sealed_of_answered (h : v.Guarded duty) (ha : v.Answered) : v.Sealed duty :=
  ⟨(h.closers.final ha).1, fun u => ((h.closers.final ha).2 u).2⟩

/-- Somebody is to see to every job that is open and not decided. -/
structure Settles (v : View α) (duty : Nat → Duty α) : Prop where
  /-- It is the job of a function that is about to be taken, -/
  owed : ∀ i, (v.life i).phase = .notCompiled → (v.job i).isSome →
    ∃ u, (duty u).mode = .admitted (some i)
  /-- of one that has come to its end and still has an owner, -/
  due : ∀ i, (v.life i).phase.isFinal = true →
    v.job i = some (.finished (v.life i).phase) ∨ ∃ u st, (duty u).own = some (i, st)
  bearer : ∀ u i st, (duty u).own = some (i, st) → st.phase.isFinal = true →
    (duty u).mode = .admitted none
  /-- or of one that the one who closes has still to visit. -/
  visited : ∀ u i, (duty u).mode.visited i → (v.life i).phase = .compiling →
    v.job i = some .cancelled
  found : ∀ u i, (duty u).mode = .cancelling i → (v.life i).phase = .compiling
  final : v.Answered → ∀ i, (v.life i).phase = .compiling → v.job i = some .cancelled
  cancelled : ∀ i, v.job i = some .cancelled →
    (v.life i).phase = .compiling ∧ v.Sealed duty
  /-- Nobody sleeps on a job that is decided. -/
  asleep : ∀ x ∈ v.sleepers, v.cell x.2.func = some x.2.job ∧ v.job x.2.func = some .pending

namespace Settles

theorem owed_effect (h : v.Settles duty) (ho : v.Order duty) (e : Effect t v (duty t) v' d')
    (i : Nat) (hphase : (v'.life i).phase = .notCompiled) (hjob : (v'.job i).isSome) :
    ∃ u, (Function.update duty t d' u).mode = .admitted (some i) := by
  have hold : (v.life i).phase = .notCompiled := by
    have hbefore := e.follows.phase i
    rw [hphase] at hbefore
    revert hbefore
    cases (v.life i).phase <;> decide
  rcases e.job_cases i with hsame | ⟨-, -, hmode⟩ | ⟨-, st, hown, hfinal, -⟩ | ⟨hmode, -⟩
  · obtain ⟨u, hu⟩ := h.owed i hold (hsame ▸ hjob)
    refine ⟨u, ?_⟩
    by_cases hut : u = t
    · subst hut
      rw [Function.update_self]
      exact e.owing hu hphase
    · rwa [Function.update_of_ne hut]
  · exact ⟨t, by rwa [Function.update_self]⟩
  · have hlife := (ho.hands.held t i st hown).1
    rw [hlife] at hold
    rw [show st.phase = .notCompiled from hold] at hfinal
    cases hfinal
  · rw [h.found t i hmode] at hold
    cases hold

theorem due_effect (h : v.Settles duty) (ho : v.Order duty) (e : Effect t v (duty t) v' d')
    (i : Nat) (hfinal : (v'.life i).phase.isFinal = true) :
    v'.job i = some (.finished (v'.life i).phase) ∨
      ∃ u st, (Function.update duty t d' u).own = some (i, st) := by
  by_cases hold : (v.life i).phase.isFinal = true
  · have hphase : (v'.life i).phase = (v.life i).phase := (e.follows.phase i).eq_of_final hold
    rw [hphase]
    rcases h.due i hold with hjob | ⟨u, st, hu⟩
    · exact Or.inl (e.follows.job i _ hjob nofun)
    · by_cases hut : u = t
      · subst hut
        have hst : (v.life i).phase = st.phase := congrArg Life.phase (ho.hands.held u i st hu).1
        rcases e.bearing hu (hst ▸ hold) with ⟨st', hst'⟩ | ⟨j, rfl⟩
        · exact Or.inr ⟨u, st', by rwa [Function.update_self]⟩
        · -- the owner tells that the job has ended; it may have been decided before
          obtain ⟨status, hstatus⟩ := Option.isSome_iff_exists.mp (ho.opened hu)
          cases status with
          | pending =>
            left
            rw [View.resolve, if_pos hstatus, hst]
            exact Function.update_self ..
          | finished p =>
            left
            rw [(ho.sane.finished i p hstatus).2]
            exact e.follows.job i _ hstatus nofun
          | cancelled =>
            rw [(h.cancelled i hstatus).1] at hold
            cases hold
      · exact Or.inr ⟨u, st, by rwa [Function.update_of_ne hut]⟩
  · obtain ⟨st, hst⟩ := e.finishing (by simpa using hold) hfinal
    exact Or.inr ⟨t, st, by rwa [Function.update_self]⟩

theorem bearer_effect (h : v.Settles duty) (e : Effect t v (duty t) v' d') (u i : Nat)
    (st : Stage α) (hown : (Function.update duty t d' u).own = some (i, st))
    (hfinal : st.phase.isFinal = true) :
    (Function.update duty t d' u).mode = .admitted none := by
  by_cases hut : u = t
  · subst hut
    rw [Function.update_self] at hown ⊢
    exact e.bearer (h.bearer u) hown hfinal
  · rw [Function.update_of_ne hut] at hown ⊢
    exact h.bearer u i st hown hfinal

/-- A function that was visited, or that has been cancelled now. -/
theorem visited_effect (h : v.Settles duty) (ho : v.Order duty) (hg : v.Guarded duty)
    (e : Effect t v (duty t) v' d') (u i : Nat)
    (hvisited : (Function.update duty t d' u).mode.visited i)
    (hphase : (v'.life i).phase = .compiling) : v'.job i = some .cancelled := by
  have hkeep : (v.life i).phase = .compiling → (duty u).mode.visited i →
      v'.job i = some .cancelled := fun hp hu => e.follows.job i _ (h.visited u i hu hp) nofun
  by_cases hut : u = t
  · subst hut
    rw [Function.update_self] at hvisited
    have hphase' : (v.life i).phase = .compiling := by
      rw [← (e.calm (e.out_of_visited hvisited) i).1]
      exact hphase
    have hopen := ho.sane.opened i (by rw [hphase']; nofun)
    rcases e.visiting hvisited hphase' (ho.sane.bound i hopen) with hu | ⟨hmode, j, rfl⟩
    · exact hkeep hphase' hu
    · obtain ⟨status, hstatus⟩ := Option.isSome_iff_exists.mp hopen
      cases status with
      | pending =>
        rw [View.resolve, if_pos hstatus]
        exact Function.update_self ..
      | finished p =>
        obtain ⟨hfinal, hp⟩ := ho.sane.finished i p hstatus
        rw [← hp, hphase'] at hfinal
        cases hfinal
      | cancelled => exact e.follows.job i _ hstatus nofun
  · rw [Function.update_of_ne hut] at hvisited
    have hsealed := hg.sealed (Mode.seals_of_visited hvisited)
    refine hkeep ?_ hvisited
    rw [← (e.calm (hsealed.out t) i).1]
    exact hphase

theorem found_effect (h : v.Settles duty) (hg : v.Guarded duty) (e : Effect t v (duty t) v' d')
    (u i : Nat) (hmode : (Function.update duty t d' u).mode = .cancelling i) :
    (v'.life i).phase = .compiling := by
  by_cases hut : u = t
  · subst hut
    rw [Function.update_self] at hmode
    obtain ⟨hout, hfound⟩ := e.finding hmode
    rw [(e.calm hout i).1]
    rcases hfound with hmode' | hphase
    · exact h.found u i hmode'
    · exact hphase
  · rw [Function.update_of_ne hut] at hmode
    have hseals : (duty u).mode.seals = true := by
      rw [hmode]
      rfl
    rw [(e.calm ((hg.sealed hseals).out t) i).1]
    exact h.found u i hmode

theorem final_effect (h : v.Settles duty) (hg : v.Guarded duty) (e : Effect t v (duty t) v' d')
    (ha : v'.Answered) (i : Nat) (hphase : (v'.life i).phase = .compiling) :
    v'.job i = some .cancelled := by
  rcases e.answering ha with ha | hmode
  · rw [(e.calm ((hg.sealed_of_answered ha).out t) i).1] at hphase
    exact e.follows.job i _ (h.final ha i hphase) nofun
  · have hout : (duty t).mode.isAdmitted = false := by
      rw [hmode]
      rfl
    have hvisited : (duty t).mode.visited i := by
      rw [hmode]
      trivial
    rw [(e.calm hout i).1] at hphase
    exact e.follows.job i _ (h.visited t i hvisited hphase) nofun

theorem cancelled_effect (h : v.Settles duty) (hg : v.Guarded duty)
    (e : Effect t v (duty t) v' d') (i : Nat) (hjob : v'.job i = some .cancelled) :
    (v'.life i).phase = .compiling ∧ v'.Sealed (Function.update duty t d') := by
  have hkeep : (v.life i).phase = .compiling → v.Sealed duty →
      (v'.life i).phase = .compiling ∧ v'.Sealed (Function.update duty t d') := by
    intro hphase hsealed
    exact ⟨(e.calm (hsealed.out t) i).1.trans hphase, hsealed.effect e⟩
  rcases e.job_cases i with hsame | ⟨-, hnew, -⟩ | ⟨-, st, -, -, hnew⟩ | ⟨hmode, -⟩
  · rw [hsame] at hjob
    obtain ⟨hphase, hsealed⟩ := h.cancelled i hjob
    exact hkeep hphase hsealed
  · rw [hnew] at hjob
    cases hjob
  · rw [hnew] at hjob
    cases hjob
  · have hseals : (duty t).mode.seals = true := by
      rw [hmode]
      rfl
    exact hkeep (h.found t i hmode) (hg.sealed hseals)

/-- Those who sleep on a job that is decided are woken. -/
theorem asleep_resolve (h : v.Settles duty) {i j : Nat} {status : JobStatus}
    (hcell : v.cell i = some j) (x : Nat × Handle) (hx : x ∈ (v.resolve i j status).sleepers) :
    (v.resolve i j status).cell x.2.func = some x.2.job ∧
      (v.resolve i j status).job x.2.func = some .pending := by
  unfold View.resolve at hx ⊢
  split at hx
  next hpending =>
    rw [if_pos hpending]
    obtain ⟨hmem, hne⟩ := List.mem_filter.mp hx
    obtain ⟨hxcell, hxjob⟩ := h.asleep x hmem
    refine ⟨hxcell, ?_⟩
    have hfunc : x.2.func ≠ i := by
      intro hf
      rw [hf, hcell] at hxcell
      have hjob : x.2 = ⟨i, j⟩ := by
        rw [← hf, Option.some.inj hxcell]
      simp [hjob] at hne
    exact (Function.update_of_ne hfunc ..).trans hxjob
  next hpending =>
    rw [if_neg hpending]
    exact h.asleep x hx

theorem asleep_effect (h : v.Settles duty) (e : Effect t v (duty t) v' d') (x : Nat × Handle)
    (hx : x ∈ v'.sleepers) : v'.cell x.2.func = some x.2.job ∧ v'.job x.2.func = some .pending := by
  cases e with
  | sleep hcell hjob =>
    rcases List.mem_cons.mp hx with rfl | hx
    · exact ⟨hcell, hjob⟩
    · exact h.asleep x hx
  | wake => exact h.asleep x (List.mem_filter.mp hx).1
  | cancel _ hcell => exact h.asleep_resolve hcell x hx
  | settle _ _ _ _ hcell => exact h.asleep_resolve hcell x hx
  | @openJob i j hmode hown hi hcell =>
    obtain ⟨hxcell, hxjob⟩ := h.asleep x hx
    by_cases hf : x.2.func = i
    · subst hf
      rcases hcell with hcell | hcell
      · rw [hcell] at hxcell
        cases hxcell
      · rw [hcell] at hxcell
        simp [hxjob, Option.some.inj hxcell]
    · simpa [hf] using ⟨hxcell, hxjob⟩
  | _ => exact h.asleep x hx

/-- Every effect keeps the jobs on their way. -/
theorem effect (h : v.Settles duty) (ho : v.Order duty) (hg : v.Guarded duty)
    (e : Effect t v (duty t) v' d') : v'.Settles (Function.update duty t d') where
  owed := h.owed_effect ho e
  due := h.due_effect ho e
  bearer := h.bearer_effect e
  visited := h.visited_effect ho hg e
  found := h.found_effect hg e
  final := h.final_effect hg e
  cancelled := h.cancelled_effect hg e
  asleep := h.asleep_effect e

end Settles

end View

/-! ### Schedules -/

namespace System

/-- The threads obey their duties, and every job is on its way. -/
structure Ordered (n : Nat) (s : System α) (duty : Nat → Duty α) (known : Nat → Set (Fact α)) :
    Prop where
  keeps : Keeps n s duty known
  guarded : s.world.view.Guarded duty
  settles : s.world.view.Settles duty

theorem Ordered.step {n : Nat} {s : System α} {duty : Nat → Duty α} {known : Nat → Set (Fact α)}
    (h : Ordered n s duty known) (t : Nat) {m : Move α} (hm : m ≠ .crash) :
    ∃ d K, Effect t s.world.view (duty t) (s.step t m).world.view d ∧
      Ordered n (s.step t m) (Function.update duty t d) (Function.update known t K) := by
  obtain ⟨d, K, e, hkeeps⟩ := h.keeps.step t hm
  exact ⟨d, K, e, hkeeps, h.guarded.effect e, h.settles.effect h.keeps.order h.guarded e⟩

theorem Ordered.run {n : Nat} {s : System α} {duty : Nat → Duty α} {known : Nat → Set (Fact α)}
    (h : Ordered n s duty known) {σ : Schedule α} (hσ : σ.Smooth) :
    ∃ duty' known', Ordered n (s.run σ) duty' known' := by
  induction σ generalizing s duty known with
  | nil => exact ⟨duty, known, h⟩
  | cons m σ ih =>
    obtain ⟨d, K, -, hnext⟩ := h.step m.1 (hσ m (List.mem_cons_self ..))
    exact ih hnext fun x hx => hσ x (List.mem_cons_of_mem m hx)

theorem ordered_new (n threshold : Nat) :
    Ordered n (System.new n threshold : System α) (fun _ => {}) fun _ => ∅ := by
  have hphase : ∀ i, ((System.new n threshold : System α).world.view.life i).phase = .notCompiled :=
    fun i => congrArg Life.phase (life_new n threshold i)
  have hheld : ({} : Gate).Held fun _ => .outside := by
    refine ⟨fun t => ?_, fun t => ?_, fun hw => absurd rfl hw⟩
    · exact iff_of_false List.not_mem_nil nofun
    · exact iff_of_false nofun nofun
  have hclosers : Closers false (Answer.closed true ∈ ([] : List (Answer α))) fun _ => .outside :=
    ⟨fun t u h => (nomatch h), fun t h => (nomatch h), fun t h => (nomatch h), fun h => (nomatch h)⟩
  refine ⟨keeps_new n threshold, ⟨hheld, hclosers⟩, ?_⟩
  constructor
  · intro i _ hjob
    rw [job_new] at hjob
    cases hjob
  · intro i hfinal
    rw [hphase] at hfinal
    cases hfinal
  · intro u i st hown
    cases hown
  · intro u i hvisited
    exact hvisited.elim
  · intro u i hmode
    cases hmode
  · intro hanswered
    cases hanswered
  · intro i hjob
    rw [job_new] at hjob
    cases hjob
  · intro x hx
    cases hx

/-- A thread's moves leave the scripts of others alone. -/
theorem scripts_step_of_ne (s : System α) {t u : Nat} (h : u ≠ t) (m : Move α) :
    (s.step u m).scripts t = s.scripts t := by
  obtain ⟨w, c, deed, call, -, hstep⟩ := Chronicle.course { system := s } u m
  have hsystem : s.step u m = s.follow u w c := congrArg Chronicle.system hstep
  rw [hsystem]
  exact s.scripts_follow_of_ne w c h.symm

theorem scripts_run_of_others (s : System α) {t : Nat} {σ : Schedule α} (h : ∀ m ∈ σ, m.1 ≠ t) :
    (s.run σ).scripts t = s.scripts t := by
  induction σ generalizing s with
  | nil => rfl
  | cons m σ ih =>
    rw [run, List.foldl_cons]
    refine (ih (s.step m.1 m.2) fun x hx => h x (List.mem_cons_of_mem m hx)).trans ?_
    exact scripts_step_of_ne s (h m (List.mem_cons_self ..)) m.2

/-- The one who has closed the service has answered, and no thread has crashed. -/
def Settled (n : Nat) (s : System α) : Prop :=
  ∃ duty known, Ordered n s duty known ∧ s.world.view.Answered

namespace Settled

variable {n : Nat} {s : System α}

/-- Every job is decided, as its function says. -/
theorem job_cases (h : Settled n s) (i : Nat) :
    ((s.world.life i).phase = .notCompiled ∧ s.world.view.job i = none) ∨
    ((s.world.life i).phase = .compiling ∧ s.world.view.job i = some .cancelled) ∨
    ((s.world.life i).phase.isFinal = true ∧
      s.world.view.job i = some (.finished (s.world.life i).phase)) := by
  obtain ⟨duty, known, hordered, hanswered⟩ := h
  have hout := (hordered.guarded.sealed_of_answered hanswered).out
  cases hphase : (s.world.life i).phase with
  | notCompiled =>
    refine Or.inl ⟨rfl, ?_⟩
    cases hjob : s.world.view.job i with
    | none => rfl
    | some status =>
      obtain ⟨u, hu⟩ := hordered.settles.owed i hphase (by rw [hjob]; rfl)
      have := hout u
      rw [hu] at this
      cases this
  | compiling => exact Or.inr (Or.inl ⟨rfl, hordered.settles.final hanswered i hphase⟩)
  | ready | failed =>
    refine Or.inr (Or.inr ⟨rfl, ?_⟩)
    have hfinal : (s.world.view.life i).phase.isFinal = true := by
      rw [show (s.world.view.life i).phase = _ from hphase]
      rfl
    rcases hordered.settles.due i hfinal with hjob | ⟨u, st, hu⟩
    · rw [show (s.world.view.life i).phase = _ from hphase] at hjob
      exact hjob
    · have hst : (s.world.view.life i).phase = st.phase :=
        congrArg Life.phase (hordered.keeps.order.hands.held u i st hu).1
      have hmode := hordered.settles.bearer u i st hu (by rw [← hst]; exact hfinal)
      have := hout u
      rw [hmode] at this
      cases this

theorem closed (h : Settled n s) : s.world.service.closed = true := by
  obtain ⟨duty, known, hordered, hanswered⟩ := h
  exact (hordered.guarded.sealed_of_answered hanswered).closed

/-- Nobody has the gate for itself. -/
theorem writer (h : Settled n s) : s.world.gate.writer = none := by
  obtain ⟨duty, known, hordered, hanswered⟩ := h
  by_contra hw
  obtain ⟨t, ht⟩ := Option.ne_none_iff_exists'.mp hw
  have hwrites : (duty t).mode.writes = true := (hordered.guarded.held.writes t).mp ht
  have hcloses := ((hordered.guarded.closers.final hanswered).2 t).1
  cases hmode : (duty t).mode <;> simp_all [Mode.writes, Mode.closes]

theorem sleepers (h : Settled n s) : s.world.sleepers = [] := by
  have hjobs := h.job_cases
  obtain ⟨duty, known, hordered, hanswered⟩ := h
  by_contra hne
  obtain ⟨x, hx⟩ := List.exists_mem_of_ne_nil _ hne
  obtain ⟨-, hjob⟩ := hordered.settles.asleep x hx
  rcases hjobs x.2.func with ⟨-, h⟩ | ⟨-, h⟩ | ⟨-, h⟩
  · rw [hjob] at h
    cases h
  · rw [hjob] at h
    cases h
  · rw [hjob] at h
    cases h

/-- A move changes nothing, and gives nobody a handle. -/
theorem step (h : Settled n s) (t : Nat) {m : Move α} (hm : m ≠ .crash) :
    Settled n (s.step t m) ∧
    (s.step t m).world.service.table = s.world.service.table ∧
    (s.step t m).world.cells = s.world.cells ∧
    ∃ later, (s.step t m).world.answers = s.world.answers ++ later ∧
      ∀ i h, .asked i (some h) ∉ later := by
  obtain ⟨duty, known, hordered, hanswered⟩ := h
  obtain ⟨d, K, e, hnext⟩ := hordered.step t hm
  have hout := (hordered.guarded.sealed_of_answered hanswered).out t
  have hcloses := ((hordered.guarded.closers.final hanswered).2 t).1
  have hcalm := e.calm hout
  have hjob : ∀ i, (s.step t m).world.view.job i = s.world.view.job i := by
    intro i
    rcases e.job_cases i with hsame | ⟨hmode, -⟩ | ⟨hmode, -⟩ | ⟨hmode, -⟩
    · exact hsame
    · rw [hmode] at hout
      cases hout
    · rw [hmode] at hout
      cases hout
    · simp only [hmode] at hcloses
      cases hcloses
  obtain ⟨later, hlater, hgiven⟩ := e.answers_cases
  refine ⟨⟨_, _, hnext, e.follows.answers.subset hanswered⟩, ?_, ?_, later, hlater, ?_⟩
  · exact Table.eq_of_fields e.follows.size (fun i => (hcalm i).1) (fun i => (hcalm i).2.1) hjob
  · exact funext fun i => (hcalm i).2.2
  · intro i x hmem
    rw [hgiven i x hmem] at hout
    cases hout

theorem run (h : Settled n s) {τ : Schedule α} (hτ : τ.Smooth) :
    Settled n (s.run τ) ∧
    (s.run τ).world.service.table = s.world.service.table ∧
    (s.run τ).world.cells = s.world.cells ∧
    ∃ later, (s.run τ).world.answers = s.world.answers ++ later ∧
      ∀ i h, .asked i (some h) ∉ later := by
  induction τ generalizing s with
  | nil => exact ⟨h, rfl, rfl, [], (List.append_nil _).symm, fun _ _ => List.not_mem_nil⟩
  | cons m τ ih =>
    obtain ⟨hnext, htable, hcells, later, hlater, hnone⟩ :=
      h.step m.1 (hτ m (List.mem_cons_self ..))
    obtain ⟨hlast, htable', hcells', later', hlater', hnone'⟩ :=
      ih hnext fun x hx => hτ x (List.mem_cons_of_mem m hx)
    refine ⟨hlast, htable'.trans htable, hcells'.trans hcells, later ++ later', ?_, ?_⟩
    · rw [← List.append_assoc, ← hlater]
      exact hlater'
    · intro i x hmem
      rcases List.mem_append.mp hmem with hmem | hmem
      · exact hnone i x hmem
      · exact hnone' i x hmem

/-- A handle of a job is never pending. It tells how the function stands. -/
theorem status_cases (h : Settled n s) {x : Handle} (hx : s.world.cells x.func = some x.job) :
    (s.world.service.table.phase x.func = .compiling ∧ s.world.status x = .cancelled) ∨
    ((s.world.service.table.phase x.func).isFinal = true ∧
      s.world.status x = .finished (s.world.service.table.phase x.func)) := by
  have hjob : s.world.status x = (s.world.view.job x.func).getD .pending := if_pos hx
  rcases h.job_cases x.func with ⟨-, hnone⟩ | ⟨hphase, hsome⟩ | ⟨hfinal, hsome⟩
  · obtain ⟨duty, known, hordered, -⟩ := h
    have hopened := hordered.keeps.order.sane.cell x.func
    rw [hnone, show s.world.view.cell x.func = some x.job from hx] at hopened
    cases hopened
  · rw [hsome] at hjob
    exact Or.inl ⟨hphase, hjob⟩
  · rw [hsome] at hjob
    exact Or.inr ⟨hfinal, hjob⟩

/-! A call that comes later. -/

/-- Up to the next move of a thread, the moves of others leave its script alone. -/
theorem reach (h : Settled n s) {τ : Schedule α} (hτ : τ.Smooth) {t : Nat} {m : Nat × Move α}
    {rest : Schedule α} (hfilter : τ.filter (·.1 = t) = m :: rest) :
    ∃ s' τ', Settled n s' ∧ s'.scripts t = s.scripts t ∧ s.world.answers <+: s'.world.answers ∧
      τ'.Smooth ∧ τ'.filter (·.1 = t) = rest ∧ s.run τ = (s'.step t m.2).run τ' := by
  obtain ⟨τ₁, τ₂, rfl, hothers, hm, hrest⟩ := List.filter_eq_cons_iff.mp hfilter
  obtain ⟨hsettled, -, -, later, hlater, -⟩ :=
    h.run (τ := τ₁) fun x hx => hτ x (List.mem_append_left _ hx)
  refine ⟨s.run τ₁, τ₂, hsettled, ?_, ⟨later, hlater.symm⟩, ?_, hrest, ?_⟩
  · exact scripts_run_of_others s fun x hx => by simpa using hothers x hx
  · exact fun x hx => hτ x (List.mem_append_right _ (List.mem_cons_of_mem m hx))
  · obtain rfl : m.1 = t := by simpa using hm
    simp [System.run]

/-- A thread takes its next action, which answers `told`, while others go on. -/
theorem turn (h : Settled n s) {τ : Schedule α} (hτ : τ.Smooth) {t : Nat} {rest : Schedule α}
    (hmoves : τ.filter (·.1 = t) = (t, .go) :: rest) {c : Script α} (hscript : s.scripts t = c)
    (next : Script α) (told : List (Answer α))
    (hact : ∀ s' : System α, Settled n s' →
      ∃ w, s'.world.act t c = some (w, next) ∧ w.answers = s'.world.answers ++ told) :
    ∃ s' τ' before, Settled n s' ∧ s'.scripts t = next ∧
      s'.world.answers = s.world.answers ++ before ++ told ∧
      τ'.Smooth ∧ τ'.filter (·.1 = t) = rest ∧ s.run τ = s'.run τ' := by
  obtain ⟨s', τ', hs', hsame, ⟨before, hbefore⟩, hτ', hrest, hrun⟩ := h.reach hτ hmoves
  obtain ⟨w, hw, hanswers⟩ := hact s' hs'
  have hawake : s'.world.asleep t = false := by simp [World.asleep, hs'.sleepers]
  have hgo : s'.step t .go = s'.follow t w next := by
    simp [System.step, hawake, System.go, hsame, hscript, hw]
  refine ⟨s'.step t .go, τ', before, (hs'.step t (m := .go) (by simp)).1, ?_, ?_, hτ', hrest, hrun⟩
  · rw [hgo]
    exact s'.scripts_follow_self w next
  · rw [hgo, hbefore]
    exact hanswers

/-- Whoever asks for a compilation is told that there is none, in five moves. -/
theorem ensure_returns (h : Settled n s) {τ : Schedule α} (hτ : τ.Smooth) {t i : Nat}
    (hidle : s.scripts t = .done)
    (hmoves : τ.filter (·.1 = t) = (t, .call (.ensure i)) :: List.replicate 4 (t, .go)) :
    (s.run τ).scripts t = .done ∧ ∃ before after,
      (s.run τ).world.answers = s.world.answers ++ before ++ .asked i none :: after := by
  let next : Option Handle → Script α := fun _ => .done
  obtain ⟨s₀, τ₀, h₀, hsame, ⟨b₀, ha₀⟩, hτ₀, hmoves, hrun₀⟩ := h.reach hτ hmoves
  have hcall : s₀.step t (.call (.ensure i)) = s₀.follow t s₀.world (Script.ensure i next) := by
    simp [System.step, hsame, hidle, Script.isDone, Call.script, next]
  have h₁ : Settled n (s₀.follow t s₀.world (Script.ensure i next)) :=
    hcall ▸ (h₀.step t (m := .call (.ensure i)) (by simp)).1
  -- the gate is entered, and the service is found closed
  obtain ⟨s₂, τ₂, b₂, h₂, hs₂, ha₂, hτ₂, hmoves, hrun₂⟩ :=
    h₁.turn hτ₀ hmoves (s₀.scripts_follow_self ..) _ [] fun s' hs' =>
      ⟨_, if_pos hs'.writer, (List.append_nil _).symm⟩
  obtain ⟨s₃, τ₃, b₃, h₃, hs₃, ha₃, hτ₃, hmoves, hrun₃⟩ :=
    h₂.turn hτ₂ hmoves hs₂ (Script.reply i none next) [] fun s' hs' =>
      ⟨s'.world, by rw [World.act, hs'.closed]; rfl, (List.append_nil _).symm⟩
  -- the answer is given, and the gate is left
  obtain ⟨s₄, τ₄, b₄, h₄, hs₄, ha₄, hτ₄, hmoves, hrun₄⟩ :=
    h₃.turn hτ₃ hmoves hs₃ _ [.asked i none] fun s' _ => ⟨_, rfl, rfl⟩
  obtain ⟨s₅, τ₅, b₅, h₅, hs₅, ha₅, hτ₅, hmoves, hrun₅⟩ :=
    h₄.turn hτ₄ hmoves hs₄ .done [] fun s' _ => ⟨_, rfl, (List.append_nil _).symm⟩
  have hlast : s.run τ = s₅.run τ₅ := by rw [hrun₀, hcall, hrun₂, hrun₃, hrun₄, hrun₅]
  have hothers : ∀ m ∈ τ₅, m.1 ≠ t := by simpa [List.filter_eq_nil_iff] using hmoves
  obtain ⟨-, -, -, b₆, ha₆, -⟩ := h₅.run hτ₅
  rw [hlast]
  refine ⟨(scripts_run_of_others s₅ hothers).trans hs₅, b₀ ++ b₂ ++ b₃ ++ b₄, b₅ ++ b₆, ?_⟩
  have hfollow : (s₀.follow t s₀.world (Script.ensure i next)).world.answers = s₀.world.answers :=
    rfl
  rw [ha₆, ha₅, ha₄, ha₃, ha₂, hfollow, ← ha₀]
  simp

end Settled

/-! ### After closing -/

/-- What is promised of a system once whoever closed it has answered. -/
structure Closed (s : System α) : Prop where
  /-- No phase, no artifact and no handle changes any more. -/
  still : ∀ τ : Schedule α, τ.Smooth → (s.run τ).world.service.table = s.world.service.table ∧
    ∀ h, (s.run τ).world.status h = s.world.status h
  /-- Every handle that was given is one of the function's job, -/
  given : ∀ i h, .asked i (some h) ∈ s.world.answers → h.func = i ∧ s.world.cells i = some h.job
  /-- that job is decided, -/
  decided : ∀ h, s.world.cells h.func = some h.job → s.world.status h ≠ .pending
  /-- and it is cancelled if the function was still being compiled, -/
  cancelled : ∀ h, s.world.cells h.func = some h.job →
    (s.world.status h = .cancelled ↔ s.world.service.table.phase h.func = .compiling)
  /-- and finished if the function has come to its end. -/
  finished : ∀ h p, s.world.cells h.func = some h.job →
    (s.world.status h = .finished p ↔ p.isFinal = true ∧ s.world.service.table.phase h.func = p)
  /-- Nobody sleeps, and whoever waits can go on. -/
  awake : ∀ τ : Schedule α, τ.Smooth → (s.run τ).world.sleepers = [] ∧
    ∀ t h, ((s.run τ).scripts t).awaited? = some h → (s.run τ).world.status h ≠ .pending
  /-- Nobody gets a handle any more, -/
  refused : ∀ τ : Schedule α, τ.Smooth → ∃ later,
    (s.run τ).world.answers = s.world.answers ++ later ∧ ∀ i h, .asked i (some h) ∉ later
  /-- and whoever asks for a compilation is told so in five moves. -/
  returns : ∀ (τ : Schedule α) (t i : Nat), τ.Smooth → s.scripts t = .done →
    τ.filter (·.1 = t) = (t, .call (.ensure i)) :: List.replicate 4 (t, .go) →
    (s.run τ).scripts t = .done ∧ ∃ before after,
      (s.run τ).world.answers = s.world.answers ++ before ++ .asked i none :: after

namespace Settled

variable {n : Nat} {s : System α}

/-- Whoever waits can go on. -/
theorem awaited (h : Settled n s) {t : Nat} {x : Handle} (hx : (s.scripts t).awaited? = some x) :
    s.world.status x ≠ .pending := by
  have hstatus := h.status_cases (x := x)
  obtain ⟨duty, known, hordered, -⟩ := h
  have hjob := (hordered.keeps.obeys t).job_of_awaited hx
  rcases hstatus (hordered.keeps.facts t _ hjob) with ⟨-, h⟩ | ⟨-, h⟩
  · simp [h]
  · simp [h]

theorem isClosed (h : Settled n s) : s.Closed where
  still τ hτ := by
    obtain ⟨-, htable, hcells, -⟩ := h.run hτ
    refine ⟨htable, fun x => ?_⟩
    rw [World.status, htable, hcells]
    rfl
  given i x hx := by
    obtain ⟨duty, known, hordered, -⟩ := h
    exact hordered.keeps.order.answers _ hx x rfl
  decided x hx := by
    rcases h.status_cases hx with ⟨-, h⟩ | ⟨-, h⟩
    · simp [h]
    · simp [h]
  cancelled x hx := by
    rcases h.status_cases hx with ⟨hphase, h⟩ | ⟨hfinal, h⟩
    · exact iff_of_true h hphase
    · refine iff_of_false (by simp [h]) fun hphase => ?_
      rw [hphase] at hfinal
      cases hfinal
  finished x p hx := by
    rcases h.status_cases hx with ⟨hphase, h⟩ | ⟨hfinal, h⟩
    · refine iff_of_false (by simp [h]) ?_
      rintro ⟨hfinal, rfl⟩
      rw [hphase] at hfinal
      cases hfinal
    · rw [h, JobStatus.finished.injEq]
      refine ⟨?_, And.right⟩
      rintro rfl
      exact ⟨hfinal, rfl⟩
  awake τ hτ := ⟨(h.run hτ).1.sleepers, fun _ _ => (h.run hτ).1.awaited⟩
  refused τ hτ := (h.run hτ).2.2.2
  returns τ t i hτ hidle hmoves := h.ensure_returns hτ hidle hmoves

end Settled

/-- **Closing settles everything.** Once whoever found the service open and closed it
has answered, nothing changes any more, whatever the others are about to do. What
was published by then stays. -/
theorem close_settles (n threshold : Nat) (σ : Schedule α) (hσ : σ.Smooth)
    (hclosed : .closed true ∈ ((System.new n threshold).run σ).world.answers) :
    ((System.new n threshold).run σ).Closed ∧
    ∀ ρ, ρ <+: σ → ∀ i a,
      ((System.new n threshold).run ρ).world.service.table.compiled? i = some a →
      ((System.new n threshold).run σ).world.service.table.compiled? i = some a := by
  constructor
  · obtain ⟨duty, known, hordered⟩ := (ordered_new n threshold).run hσ
    exact Settled.isClosed ⟨duty, known, hordered, hclosed⟩
  · rintro ρ ⟨τ, rfl⟩ i a ha
    obtain ⟨⟨duty, known, hkeeps⟩, -⟩ := (keeps_new n threshold).run ρ
    have hfollows := (hkeeps.run τ).2
    rw [System.run, List.foldl_append]
    exact compiled?_of_follows hfollows ha

/-- Function 0 is being published and function 1 is being waited for when the service
is closed. -/
def crowd : Schedule Nat :=
  let goes t k := List.replicate k (t, .go)
  (0, .call (.ensure 0)) :: goes 0 7 ++ (1, .job 0) :: goes 1 3 ++
  (2, .call (.compileNow 1)) :: goes 2 3 ++ (1, .compiled (.ok 7)) :: goes 1 5 ++
  (3, .call .close) :: goes 3 3 ++ goes 2 5 ++ goes 1 5 ++ goes 3 7

theorem close_settles_crowd :
    ((System.new 2 1).run crowd).Closed ∧
    ((System.new 2 1).run crowd).world.service.table.compiled? 0 = some 7 ∧
    ((System.new 2 1).run crowd).world.status ⟨1, 1⟩ = .cancelled := by
  have h := close_settles 2 1 crowd (by simp [Schedule.Smooth, crowd]) (by decide +kernel)
  refine ⟨h.1, h.2 (crowd.take 35) (List.take_prefix ..) 0 7 (by decide +kernel), ?_⟩
  exact (h.1.cancelled ⟨1, 1⟩ (by decide +kernel)).mpr (by decide +kernel)

end System

end StackMachine.Lifecycle
