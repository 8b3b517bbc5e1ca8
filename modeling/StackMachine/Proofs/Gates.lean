/-
# Who is inside the gate

Whoever asks for a compilation or publishes one is inside the gate, with others.
Whoever closes the service takes the gate for itself.

* `Gate.Held`: the gate is as the threads hold it;
* `Closers`: one thread closes the service, and from the time it is alone inside,
  nobody is inside an open service;
* `View.Guarded.effect`: every effect keeps both.
-/
import StackMachine.Proofs.Duties

namespace StackMachine.Lifecycle

variable {α : Type}

/-! ### The gate -/

namespace Mode

def reads : Mode → Bool
  | entered | admitted _ | refused => true
  | _ => false

def writes : Mode → Bool
  | sweeping _ | cancelling _ => true
  | _ => false

/-- Has closed the service and not answered yet. -/
def closes : Mode → Bool
  | closing | sweeping _ | cancelling _ | parting => true
  | _ => false

/-- Has been alone inside since it has closed the service. -/
def seals : Mode → Bool
  | sweeping _ | cancelling _ | parting => true
  | _ => false

def isAdmitted : Mode → Bool
  | admitted _ => true
  | _ => false

theorem ne_admitted {m : Mode} (h : m.isAdmitted = false) (o : Option Nat) : m ≠ .admitted o := by
  rintro rfl
  cases h

theorem closes_of_seals {m : Mode} (h : m.seals) : m.closes := by
  cases m <;> simp_all [seals, closes]

theorem reads_of_isAdmitted {m : Mode} (h : m.isAdmitted) : m.reads := by
  cases m <;> simp_all [isAdmitted, reads]

end Mode

section Modes

variable {gate : Gate} {closed : Bool} {answered : Prop} {mode : Nat → Mode} {t : Nat} {m m' : Mode}

/-- What the new mode of a thread has in common with the old one. -/
theorem apply_update_eq (hmode : mode t = m) (f : Mode → Bool) (hf : f m' = f m) (u : Nat) :
    f (Function.update mode t m' u) = f (mode u) := by
  by_cases hu : u = t
  · subst hu
    rw [Function.update_self, hf, hmode]
  · rw [Function.update_of_ne hu]

/-- The gate is as the threads hold it. -/
structure Gate.Held (gate : Gate) (mode : Nat → Mode) : Prop where
  reads : ∀ t, t ∈ gate.readers ↔ (mode t).reads
  writes : ∀ t, gate.writer = some t ↔ (mode t).writes
  apart : gate.writer ≠ none → gate.readers = []

namespace Gate.Held

/-- A thread goes on, and leaves the gate as it is. -/
theorem shift (h : gate.Held mode) (hmode : mode t = m) (hreads : m'.reads = m.reads)
    (hwrites : m'.writes = m.writes) : gate.Held (Function.update mode t m') := by
  refine ⟨fun u => ?_, fun u => ?_, h.apart⟩
  · rw [apply_update_eq hmode _ hreads]
    exact h.reads u
  · rw [apply_update_eq hmode _ hwrites]
    exact h.writes u

theorem enter (h : gate.Held mode) (hmode : mode t = m) (hgate : gate.writer = none)
    (hm : m'.reads = true) (hwrites : m'.writes = m.writes) :
    (gate.enter t).Held (Function.update mode t m') := by
  refine ⟨fun u => ?_, fun u => ?_, fun hw => absurd hgate hw⟩
  · by_cases hu : u = t
    · subst hu
      simp [Gate.enter, hm]
    · simpa [Gate.enter, hu] using h.reads u
  · rw [apply_update_eq hmode _ hwrites]
    exact h.writes u

theorem leave (h : gate.Held mode) (hmode : mode t = m) (hm : m'.reads = false)
    (hwrites : m'.writes = m.writes) : (gate.leave t).Held (Function.update mode t m') := by
  refine ⟨fun u => ?_, fun u => ?_, fun hw => ?_⟩
  · by_cases hu : u = t
    · subst hu
      simp [Gate.leave, hm]
    · simpa [Gate.leave, hu] using h.reads u
  · rw [apply_update_eq hmode _ hwrites]
    exact h.writes u
  · simp [Gate.leave, h.apart hw]

theorem lock (h : gate.Held mode) (hmode : mode t = m) (hwriter : gate.writer = none)
    (hreaders : gate.readers = []) (hreads : m'.reads = m.reads) (hm : m'.writes = true) :
    (gate.lock t).Held (Function.update mode t m') := by
  refine ⟨fun u => ?_, fun u => ?_, fun _ => hreaders⟩
  · rw [apply_update_eq hmode _ hreads]
    exact h.reads u
  · by_cases hu : u = t
    · subst hu
      simp [Gate.lock, hm]
    · have hnot : ¬ (mode u).writes = true := by
        rw [← h.writes u, hwriter]
        nofun
      have htu : t ≠ u := fun e => hu e.symm
      simp [Gate.lock, hu, htu, hnot]

theorem unlock (h : gate.Held mode) (hmode : mode t = m) (hold : m.writes = true)
    (hreads : m'.reads = m.reads) (hm : m'.writes = false) :
    gate.unlock.Held (Function.update mode t m') := by
  refine ⟨fun u => ?_, fun u => ?_, fun hw => absurd rfl hw⟩
  · rw [apply_update_eq hmode _ hreads]
    exact h.reads u
  · by_cases hu : u = t
    · subst hu
      simp [Gate.unlock, hm]
    · have hnot : ¬ (mode u).writes = true := by
        rw [← h.writes u, (h.writes t).mpr (hmode ▸ hold)]
        intro e
        exact hu (Option.some.inj e).symm
      simp [Gate.unlock, hu, hnot]

/-- With a writer inside, nobody is in an open service. -/
theorem not_admitted (h : gate.Held mode) (hreaders : gate.readers = []) (u : Nat) :
    (mode u).isAdmitted = false := by
  by_contra hu
  have hreads := (h.reads u).mpr (Mode.reads_of_isAdmitted (by simpa using hu))
  rw [hreaders] at hreads
  cases hreads

end Gate.Held

/-- At most one thread closes the service. From the time it is alone inside nobody
is inside an open service. `answered`: it has answered. -/
structure Closers (closed : Bool) (answered : Prop) (mode : Nat → Mode) : Prop where
  one : ∀ t u, (mode t).closes → (mode u).closes → t = u
  shut : ∀ t, (mode t).closes → closed = true
  sealed : ∀ t, (mode t).seals → ∀ u, (mode u).isAdmitted = false
  final : answered →
    closed = true ∧ ∀ t, (mode t).closes = false ∧ (mode t).isAdmitted = false

namespace Closers

/-- A thread that does not close goes on; it gets into an open service only if the
service is open. -/
theorem shift (h : Closers closed answered mode) (hmode : mode t = m)
    (hcloses : m'.closes = m.closes) (hseals : m'.seals = m.seals)
    (hadmitted : m'.isAdmitted = true → m.isAdmitted = true ∨ closed = false) :
    Closers closed answered (Function.update mode t m') := by
  have hout : closed = true → (∀ u, (mode u).isAdmitted = false) →
      ∀ u, (Function.update mode t m' u).isAdmitted = false := by
    intro hclosed hall u
    have hm : m.isAdmitted = false := hmode ▸ hall t
    have hm' : m'.isAdmitted = false := by
      by_contra hm'
      rcases hadmitted (by simpa using hm') with hbad | hbad
      · rw [hm] at hbad
        cases hbad
      · rw [hclosed] at hbad
        cases hbad
    rw [apply_update_eq hmode _ (hm'.trans hm.symm)]
    exact hall u
  refine ⟨fun u u' hu hu' => ?_, fun u hu => ?_, fun u hu => ?_, fun hanswered => ?_⟩
  · rw [apply_update_eq hmode _ hcloses] at hu hu'
    exact h.one u u' hu hu'
  · rw [apply_update_eq hmode _ hcloses] at hu
    exact h.shut u hu
  · rw [apply_update_eq hmode _ hseals] at hu
    exact hout (h.shut u (Mode.closes_of_seals hu)) (h.sealed u hu)
  · obtain ⟨hclosed, hall⟩ := h.final hanswered
    refine ⟨hclosed, fun u => ⟨?_, hout hclosed (fun u => (hall u).2) u⟩⟩
    rw [apply_update_eq hmode _ hcloses]
    exact (hall u).1

theorem close (h : Closers false answered mode) :
    Closers true answered (Function.update mode t .closing) := by
  have hnone : ∀ u, ¬ (mode u).closes = true := fun u hu => nomatch h.shut u hu
  have honly : ∀ u, (Function.update mode t .closing u).closes = true → u = t := by
    intro u hu
    by_contra hne
    rw [Function.update_of_ne hne] at hu
    exact hnone u hu
  refine ⟨fun u u' hu hu' => (honly u hu).trans (honly u' hu').symm, fun _ _ => rfl, ?_, ?_⟩
  · intro u hu
    have := honly u (Mode.closes_of_seals hu)
    subst this
    rw [Function.update_self] at hu
    cases hu
  · intro hanswered
    cases (h.final hanswered).1

/-- Whoever closes the service is alone inside. -/
theorem lock (h : Closers closed answered mode) (hmode : mode t = .closing) (k : Nat)
    (halone : ∀ u, (mode u).isAdmitted = false) :
    Closers closed answered (Function.update mode t (.sweeping k)) := by
  have hcloses : ∀ u, (Function.update mode t (.sweeping k) u).closes = (mode u).closes :=
    apply_update_eq hmode _ rfl
  have hadmitted : ∀ u, (Function.update mode t (.sweeping k) u).isAdmitted = (mode u).isAdmitted :=
    apply_update_eq hmode _ rfl
  refine ⟨fun u u' hu hu' => ?_, fun u hu => ?_, fun u hu u' => ?_, fun hanswered => ?_⟩
  · rw [hcloses] at hu hu'
    exact h.one u u' hu hu'
  · rw [hcloses] at hu
    exact h.shut u hu
  · rw [hadmitted]
    exact halone u'
  · obtain ⟨hclosed, hall⟩ := h.final hanswered
    refine ⟨hclosed, fun u => ?_⟩
    rw [hcloses, hadmitted]
    exact hall u

theorem conclude (h : Closers closed answered mode) (hmode : mode t = .parting) (answered' : Prop) :
    Closers closed answered' (Function.update mode t .outside) := by
  have hseals : (mode t).seals = true := by
    rw [hmode]
    rfl
  have hcloses : (mode t).closes = true := Mode.closes_of_seals hseals
  have hnone : ∀ u, (Function.update mode t .outside u).closes = false := by
    intro u
    by_cases hu : u = t
    · subst hu
      rw [Function.update_self]
      rfl
    · rw [Function.update_of_ne hu]
      by_contra hc
      exact hu (h.one u t (by simpa using hc) hcloses)
  have hout : ∀ u, (Function.update mode t .outside u).isAdmitted = false := by
    intro u
    have hsame : ∀ u, (Function.update mode t .outside u).isAdmitted = (mode u).isAdmitted :=
      apply_update_eq hmode _ rfl
    rw [hsame]
    exact h.sealed t hseals u
  refine ⟨fun u u' hu => ?_, fun u hu => ?_, fun _ _ => hout, fun _ => ?_⟩
  · rw [hnone] at hu
    cases hu
  · exact h.shut t hcloses
  · exact ⟨h.shut t hcloses, fun u => ⟨hnone u, hout u⟩⟩

end Closers

end Modes

namespace View

variable {v v' : View α} {duty : Nat → Duty α} {t : Nat} {d' : Duty α}

/-- The one who has closed the service has answered. -/
def Answered (v : View α) : Prop := .closed true ∈ v.answers

structure Guarded (v : View α) (duty : Nat → Duty α) : Prop where
  held : v.gate.Held fun t => (duty t).mode
  closers : Closers v.closed v.Answered fun t => (duty t).mode

theorem Guarded.held_effect (h : v.Guarded duty) (e : Effect t v (duty t) v' d') :
    v'.gate.Held (Function.update (fun u => (duty u).mode) t d'.mode) := by
  have hheld := h.held
  have hsame : v.gate.Held (Function.update (fun u => (duty u).mode) t (duty t).mode) :=
    hheld.shift rfl rfl rfl
  cases e with
  | enter hmode hgate => exact hheld.enter hmode hgate rfl rfl
  | leave hmode =>
    rcases hmode with hmode | hmode
    · exact hheld.leave hmode rfl rfl
    · exact hheld.leave hmode rfl rfl
  | lock hmode hwriter hreaders => exact hheld.lock hmode hwriter hreaders rfl rfl
  | unlock hmode => exact hheld.unlock hmode rfl rfl rfl
  | grant hmode | deny hmode | close hmode | pass hmode | find hmode | conclude hmode
  | openJob hmode | take hmode | yield hmode => exact hheld.shift hmode rfl rfl
  | cancel hmode =>
    rw [gate_resolve]
    exact hheld.shift hmode rfl rfl
  | settle =>
    rw [gate_resolve]
    exact hsame
  | _ => exact hsame

theorem Guarded.closers_effect (h : v.Guarded duty) (e : Effect t v (duty t) v' d') :
    Closers v'.closed v'.Answered (Function.update (fun u => (duty u).mode) t d'.mode) := by
  have hclosers := h.closers
  have hsame : Closers v.closed v.Answered
      (Function.update (fun u => (duty u).mode) t (duty t).mode) :=
    hclosers.shift rfl rfl rfl Or.inl
  cases e with
  | @report a hholds ha =>
    have hanswered : .closed true ∈ v.answers ++ [a] → v.Answered := by
      intro hmem
      rcases List.mem_append.mp hmem with hmem | hmem
      · exact hmem
      · exact absurd (List.mem_singleton.mp hmem).symm ha
    exact { hsame with final := fun hmem => hsame.final (hanswered hmem) }
  | close hmode hclosed =>
    rw [hclosed] at hclosers
    exact hclosers.close
  | lock hmode hwriter hreaders => exact hclosers.lock hmode 0 (h.held.not_admitted hreaders)
  | conclude hmode => exact hclosers.conclude hmode _
  | grant hmode hclosed => exact hclosers.shift hmode rfl rfl fun _ => Or.inr hclosed
  | leave hmode =>
    rcases hmode with hmode | hmode
    · exact hclosers.shift hmode rfl rfl nofun
    · exact hclosers.shift hmode rfl rfl nofun
  | enter hmode | deny hmode | unlock hmode | pass hmode | find hmode =>
    exact hclosers.shift hmode rfl rfl nofun
  | openJob hmode | take hmode | yield hmode =>
    exact hclosers.shift hmode rfl rfl fun _ => Or.inl rfl
  | cancel hmode =>
    rw [closed_resolve, Answered, answers_resolve]
    exact hclosers.shift hmode rfl rfl nofun
  | settle =>
    rw [closed_resolve, Answered, answers_resolve]
    exact hsame
  | _ => exact hsame

theorem Guarded.effect (h : v.Guarded duty) (e : Effect t v (duty t) v' d') :
    v'.Guarded (Function.update duty t d') := by
  refine ⟨?_, ?_⟩
  · rw [Duty.mode_update]
    exact h.held_effect e
  · rw [Duty.mode_update]
    exact h.closers_effect e

end View

end StackMachine.Lifecycle
