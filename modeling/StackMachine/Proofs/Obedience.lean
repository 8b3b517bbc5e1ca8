/-
# Obedience

A script obeys its duties if every action it can take is one of the effects that
the duties allow, and what is left of it obeys the duties after that. On its way
a thread learns facts that last, such as a phase that has been reached, and may
rely on them later, whatever the others do in between.

* `View.Sane`: what is so at all times;
* `Obeys`: the script of a thread keeps to its duties, knowing some facts; there
  is one rule for every action under the duties that allow it;
* `obeys_call`, `obeys_runJob`: callers, jobs and whoever closes obey.
-/
import Mathlib.Data.Set.Insert
import Mathlib.Tactic.Choose
import StackMachine.Proofs.Duties

namespace StackMachine.Lifecycle

variable {α : Type}

/-! ### Scripts that keep to their duties -/

/-- What is so at all times, whoever does what. -/
structure View.Sane (v : View α) : Prop where
  stage : ∀ i, ∃ st : Stage α, v.life i = st.life i
  cell : ∀ i, (v.cell i).isSome = (v.job i).isSome
  bound : ∀ i, (v.job i).isSome → i < v.size
  opened : ∀ i, (v.life i).phase ≠ .notCompiled → (v.job i).isSome
  finished : ∀ i p, v.job i = some (.finished p) → p.isFinal = true ∧ (v.life i).phase = p

/-- A function that is being compiled or has been has a slot. -/
theorem World.slot_of_life {w : World α} {i : Nat} {st : Stage α} (hsane : w.view.Sane)
    (hlife : w.life i = st.life i) (hphase : st.phase ≠ .notCompiled) :
    ∃ s, w.service.table[i]? = some s ∧ s.phase = st.phase ∧ s.artifact = st.artifact := by
  have hp : (w.view.life i).phase = st.phase := congrArg Life.phase hlife
  have hopen : (w.view.job i).isSome := hsane.opened i (hp ▸ hphase)
  obtain ⟨s, hs⟩ := World.slot_of_job hopen
  refine ⟨s, hs, ?_, ?_⟩
  · have hs' : w.service.table.phase i = s.phase := by simp [Table.phase, hs]
    exact hs'.symm.trans (congrArg Life.phase hlife)
  · have hs' : w.artifact? i = s.artifact := by simp [World.artifact?, hs]
    exact hs'.symm.trans (congrArg Life.artifact hlife)

theorem World.view_resolve {w : World α} {i j : Nat} {status : JobStatus}
    (hcell : w.cells i = some j) :
    (w.resolve ⟨i, j⟩ status).view = w.view.resolve i j status := by
  unfold World.resolve View.resolve
  by_cases hp : w.service.table.job? i = some .pending
  · obtain ⟨s, hs⟩ := World.slot_of_job (w := w) (i := i) (by rw [hp]; rfl)
    have hjob : s.job = some .pending := by simpa [Table.job?, hs] using hp
    have hview := World.view_update hs (Slot.resolve · status)
    have hlife : Function.update w.life i { w.life i with
        phase := (s.resolve status).phase, artifact := (s.resolve status).artifact } = w.life := by
      have : w.life i = { w.life i with
          phase := (s.resolve status).phase, artifact := (s.resolve status).artifact } := by
        simp [World.life, Table.phase, World.artifact?, hs, Slot.resolve, hjob]
      rw [← this, Function.update_eq_self]
    have hstatus : (s.resolve status).job = some status := by simp [Slot.resolve, hjob]
    rw [hlife, hstatus] at hview
    have hp' : w.view.job i = some .pending := hp
    rw [if_pos ⟨hcell, hp⟩, if_pos hp']
    exact congrArg (fun v : View α => { v with
      sleepers := w.sleepers.filter (·.2 ≠ Handle.mk i j) }) hview
  · have hp' : ¬ w.view.job i = some .pending := hp
    rw [if_neg fun h => hp h.2, if_neg hp']

/-- What a handle tells of a decided job is in the slot. -/
theorem World.job_of_status {w : World α} {h : Handle} {status : JobStatus}
    (hcell : w.cells h.func = some h.job) (hs : w.status h = status) (hp : status ≠ .pending) :
    w.view.job h.func = some status := by
  simp only [World.status, if_pos hcell] at hs
  cases hj : w.service.table.job? h.func with
  | none =>
    rw [hj] at hs
    exact absurd hs.symm hp
  | some status' =>
    rw [hj] at hs
    exact hj.trans (congrArg some hs)

/-- Who has to wait for a job of a function waits for one that is not decided. -/
theorem World.pending_of_blocked {w : World α} {t : Nat} {c : Script α} {h : Handle}
    (hsane : w.view.Sane) (hcell : w.cells h.func = some h.job) (hact : w.act t c = none)
    (hc : c.awaited? = some h) : w.view.job h.func = some .pending := by
  obtain ⟨next, rfl⟩ := Script.eq_wait hc
  have hstatus : w.status h = .pending := by
    simpa [World.act] using hact
  have hopen : (w.view.job h.func).isSome := by
    rw [← hsane.cell, show w.view.cell h.func = some h.job from hcell]
    rfl
  obtain ⟨status, hs⟩ := Option.isSome_iff_exists.mp hopen
  rw [World.status, if_pos hcell, show w.service.table.job? h.func = some status from hs] at hstatus
  exact hs.trans (congrArg some hstatus)

/-- What a thread with duties `d` that knows `K` can rely on. -/
structure View.Fits (v : View α) (n : Nat) (K : Set (Fact α)) (d : Duty α) : Prop where
  sane : v.Sane
  size : v.size = n
  facts : ∀ f ∈ K, f.Holds v
  own : ∀ i st, d.own = some (i, st) → v.life i = st.life i

/-- Whether a script is at an action that `World.act` takes. -/
def Script.isPlain : Script α → Bool
  | .done | .compile _ _ | .wait _ _ => false
  | _ => true

/-- The script of thread `t`, for `n` functions, keeps to the duties `d`,
knowing the facts `K`. -/
inductive Obeys (n t : Nat) : Set (Fact α) → Duty α → Script α → Prop
  | done {K d} (hmode : d.mode = .outside) (hlight : d.Light) : Obeys n t K d .done
  | compile {K d i next} (h : ∀ r, Obeys n t K d (next r)) : Obeys n t K d (.compile i next)
  | wait {K d h next} (hjob : .job h ∈ K)
      (hfinished : ∀ p, Obeys n t (insert (.reached h.func p) K) d (next (.finished p)))
      (hcancelled : Obeys n t K d (next .cancelled)) : Obeys n t K d (.wait h next)
  | act {K d c} (hplain : c.isPlain = true)
      (K' : World α → World α → Script α → Set (Fact α))
      (d' : World α → World α → Script α → Duty α)
      (heffect : ∀ w w' c', w.view.Fits n K d → w.act t c = some (w', c') →
        Effect t w.view d w'.view (d' w w' c'))
      (hfacts : ∀ w w' c', w.view.Fits n K d → w.act t c = some (w', c') →
        ∀ f ∈ K' w w' c', f.Holds w'.view)
      (hnext : ∀ w w' c', w.view.Fits n K d → w.act t c = some (w', c') →
        Obeys n t (K' w w' c') (d' w w' c') c') :
      Obeys n t K d c

namespace Obeys

variable {n t : Nat} {K K' : Set (Fact α)} {d d' : Duty α}

theorem intro {c : Script α} (hplain : c.isPlain = true)
    (h : ∀ (w w' : World α) (c' : Script α), w.view.Fits n K d → w.act t c = some (w', c') →
      ∃ K' d', Effect t w.view d w'.view d' ∧ (∀ f ∈ K', f.Holds w'.view) ∧ Obeys n t K' d' c') :
    Obeys n t K d c := by
  have hK : ∀ (w w' : World α) (c' : Script α), ∃ K' d', w.view.Fits n K d → w.act t c = some (w', c') →
      Effect t w.view d w'.view d' ∧ (∀ f ∈ K', f.Holds w'.view) ∧ Obeys n t K' d' c' := by
    intro w w' c'
    by_cases hfits : w.view.Fits n K d ∧ w.act t c = some (w', c')
    · obtain ⟨K', d', hd⟩ := h w w' c' hfits.1 hfits.2
      exact ⟨K', d', fun _ _ => hd⟩
    · exact ⟨K, d, fun hfit hact => absurd ⟨hfit, hact⟩ hfits⟩
  choose K' d' hd using hK
  exact .act hplain K' d' (fun w w' c' hfits hact => (hd w w' c' hfits hact).1)
    (fun w w' c' hfits hact => (hd w w' c' hfits hact).2.1)
    (fun w w' c' hfits hact => (hd w w' c' hfits hact).2.2)

/-- More knowledge does no harm. -/
theorem mono {c : Script α} (h : Obeys n t K d c) (hK : K ⊆ K') : Obeys n t K' d c := by
  have hfits : ∀ v : View α, v.Fits n K' d → v.Fits n K d :=
    fun v hv => { hv with facts := fun f hf => hv.facts f (hK hf) }
  induction h generalizing K' with
  | done hmode hlight => exact .done hmode hlight
  | compile h ih => exact .compile fun r => ih r hK hfits
  | @wait K d x next hjob hfinished hcancelled ihf ihc =>
    refine .wait (hK hjob) (fun p => ?_) (ihc hK hfits)
    have hsub : insert (Fact.reached x.func p) K ⊆ insert (Fact.reached x.func p) K' :=
      Set.insert_subset_insert hK
    exact ihf p hsub fun v hv => { hv with facts := fun f hf => hv.facts f (hsub hf) }
  | act hplain K'' d'' heffect hfacts hnext ih =>
    exact .act hplain K'' d'' (fun w w' c' hv => heffect w w' c' (hfits _ hv))
      (fun w w' c' hv => hfacts w w' c' (hfits _ hv)) (fun w w' c' hv => hnext w w' c' (hfits _ hv))

theorem mode_of_done (h : Obeys n t K d .done) : d.mode = .outside ∧ d.Light := by
  cases h with
  | done hmode hlight => exact ⟨hmode, hlight⟩
  | act hplain => cases hplain

theorem of_compile {i : Nat} {next : Except CompileError α → Script α}
    (h : Obeys n t K d (.compile i next)) (r : Except CompileError α) : Obeys n t K d (next r) := by
  cases h with
  | compile h => exact h r
  | act hplain => cases hplain

/-- Whoever waits for a job knows that it is the job of its function. -/
theorem job_of_awaited {c : Script α} {h : Handle} (hc : Obeys n t K d c)
    (hh : c.awaited? = some h) : .job h ∈ K := by
  obtain ⟨next, rfl⟩ := Script.eq_wait hh
  cases hc with
  | wait hjob => exact hjob
  | act hplain => cases hplain

/-- An action is an effect, and the rest of the script obeys the duties after it. -/
theorem step {c c' : Script α} {w w' : World α} (h : Obeys n t K d c) (hfits : w.view.Fits n K d)
    (hact : w.act t c = some (w', c')) :
    ∃ K' d', Effect t w.view d w'.view d' ∧ (∀ f ∈ K', f.Holds w'.view) ∧ Obeys n t K' d' c' := by
  cases h with
  | done => cases hact
  | compile => cases hact
  | act hplain K' d' heffect hfacts hnext =>
    exact ⟨_, _, heffect w w' c' hfits hact, hfacts w w' c' hfits hact, hnext w w' c' hfits hact⟩
  | @wait _ _ h next hjob hfinished hcancelled =>
    simp only [World.act] at hact
    split at hact
    next => cases hact
    next hstatus =>
      cases hact
      have hcell : w.cells h.func = some h.job := hfits.facts _ hjob
      cases hs : w.status h with
      | pending => exact absurd hs hstatus
      | cancelled => exact ⟨K, d, .quiet, hfits.facts, hcancelled⟩
      | finished p =>
        refine ⟨insert (.reached h.func p) K, d, .quiet, ?_, hfinished p⟩
        have hdone : w.view.job h.func = some (.finished p) := World.job_of_status hcell hs nofun
        rintro f (rfl | hf)
        · exact Or.inl (hfits.sane.finished _ p hdone).2.symm
        · exact hfits.facts f hf

/-- An action that leaves everything known as it is. -/
theorem keep {c : Script α} (hplain : c.isPlain = true)
    (h : ∀ (w w' : World α) (c' : Script α), w.view.Fits n K d → w.act t c = some (w', c') →
      ∃ d', Effect t w.view d w'.view d' ∧ Obeys n t K d' c') :
    Obeys n t K d c := by
  refine .intro hplain fun w w' c' hfits hact => ?_
  obtain ⟨d', heffect, hnext⟩ := h w w' c' hfits hact
  exact ⟨K, d', heffect, fun f hf => heffect.follows.fact (hfits.facts f hf), hnext⟩

/-- An action by which something is learnt. -/
theorem learn {c : Script α} (hplain : c.isPlain = true)
    (h : ∀ (w w' : World α) (c' : Script α), w.view.Fits n K d → w.act t c = some (w', c') →
      ∃ f d', Effect t w.view d w'.view d' ∧ f.Holds w'.view ∧ Obeys n t (insert f K) d' c') :
    Obeys n t K d c := by
  refine .intro hplain fun w w' c' hfits hact => ?_
  obtain ⟨f, d', heffect, hf, hnext⟩ := h w w' c' hfits hact
  refine ⟨insert f K, d', heffect, ?_, hnext⟩
  rintro g (rfl | hg)
  · exact hf
  · exact heffect.follows.fact (hfits.facts g hg)

/-! The gate, and closing. -/

theorem enterGate {next : Script α} (hmode : d.mode = .outside)
    (h : Obeys n t K { d with mode := .entered } next) : Obeys n t K d (.enterGate next) := by
  refine .keep rfl fun w w' c' hfits hact => ?_
  simp only [World.act] at hact
  split at hact
  next hgate =>
    cases hact
    exact ⟨_, .enter hmode hgate, h⟩
  next => cases hact

theorem leaveGate {next : Script α} (hmode : d.mode = .admitted none ∨ d.mode = .refused)
    (hlight : d.Light) (h : Obeys n t K { d with mode := .outside } next) :
    Obeys n t K d (.leaveGate next) := by
  refine .keep rfl fun w w' c' hfits hact => ?_
  cases hact
  exact ⟨_, .leave hmode hlight, h⟩

theorem lockGate {next : Script α} (hmode : d.mode = .closing)
    (h : Obeys n t K { d with mode := .sweeping 0 } next) : Obeys n t K d (.lockGate next) := by
  refine .keep rfl fun w w' c' hfits hact => ?_
  simp only [World.act] at hact
  split at hact
  next hgate =>
    cases hact
    exact ⟨_, .lock hmode hgate.1 hgate.2, h⟩
  next => cases hact

theorem unlockGate {next : Script α} (hmode : d.mode = .sweeping n)
    (h : Obeys n t K { d with mode := .parting } next) : Obeys n t K d (.unlockGate next) := by
  refine .keep rfl fun w w' c' hfits hact => ?_
  cases hact
  exact ⟨_, .unlock (hfits.size ▸ hmode), h⟩

/-- Looking from outside tells nothing that lasts. -/
theorem isClosed {next : Bool → Script α} (h : ∀ b, Obeys n t K d (next b)) :
    Obeys n t K d (.isClosed next) := by
  refine .keep rfl fun w w' c' hfits hact => ?_
  cases hact
  exact ⟨_, .quiet, h _⟩

/-- Looking from inside. -/
theorem isClosed_entered {next : Bool → Script α} (hmode : d.mode = .entered)
    (hopen : Obeys n t K { d with mode := .admitted none } (next false))
    (hshut : Obeys n t K { d with mode := .refused } (next true)) :
    Obeys n t K d (.isClosed next) := by
  refine .keep rfl fun w w' c' hfits hact => ?_
  cases hact
  cases hclosed : w.service.closed with
  | false => exact ⟨_, .grant hmode hclosed, hopen⟩
  | true => exact ⟨_, .deny hmode hclosed, hshut⟩

theorem setClosed {next : Bool → Script α} (hmode : d.mode = .outside)
    (hfirst : Obeys n t K { d with mode := .closing } (next false))
    (hlater : Obeys n t K d (next true)) : Obeys n t K d (.setClosed next) := by
  refine .keep rfl fun w w' c' hfits hact => ?_
  cases hact
  cases hclosed : w.service.closed with
  | false => exact ⟨_, .close hmode hclosed, hfirst⟩
  | true =>
    refine ⟨d, ?_, hlater⟩
    rw [← hclosed]
    exact .quiet

theorem stopPool {next : Script α} (h : Obeys n t K d next) : Obeys n t K d (.stopPool next) := by
  refine .keep rfl fun w w' c' hfits hact => ?_
  cases hact
  exact ⟨_, .quiet, h⟩

/-! Looking at a function. -/

theorem phase {i : Nat} {next : Phase → Script α}
    (h : ∀ p, Obeys n t (insert (.reached i p) K) d (next p)) : Obeys n t K d (.phase i next) := by
  refine .learn rfl fun w w' c' hfits hact => ?_
  cases hact
  exact ⟨.reached i _, _, .quiet, Phase.Before.refl _, h _⟩

/-- Looking at the function that is one's own. -/
theorem phase_own {i : Nat} {st : Stage α} {next : Phase → Script α} (hown : d.own = some (i, st))
    (h : Obeys n t (insert (.reached i st.phase) K) d (next st.phase)) :
    Obeys n t K d (.phase i next) := by
  refine .learn rfl fun w w' c' hfits hact => ?_
  cases hact
  have hphase : w.service.table.phase i = st.phase := congrArg Life.phase (hfits.own i st hown)
  rw [hphase]
  exact ⟨.reached i st.phase, _, .quiet, Or.inl hphase.symm, h⟩

theorem artifact {i : Nat} {next : Option α → Script α} (hready : .reached i .ready ∈ K)
    (h : ∀ a, Obeys n t (insert (.artifact i a) K) d (next (some a))) :
    Obeys n t K d (.artifact i next) := by
  refine .learn rfl fun w w' c' hfits hact => ?_
  cases hact
  obtain ⟨st, hst⟩ := hfits.sane.stage i
  have hphase : st.phase = .ready := by
    have hr : Phase.Before .ready (w.life i).phase := hfits.facts _ hready
    rw [show w.life i = st.life i from hst] at hr
    exact hr.eq_of_final rfl
  obtain ⟨a, ha⟩ : ∃ a, w.artifact? i = some a := by
    have hart : w.artifact? i = st.artifact := congrArg Life.artifact hst
    rw [hart]
    cases st with
    | published a | succeeded a => exact ⟨a, rfl⟩
    | fresh | taken | told | begun | stored | failed | reported => cases hphase
  rw [ha]
  exact ⟨.artifact i a, _, .quiet, ha, h a⟩

/-- A function that has been taken has a job. -/
theorem job {i : Nat} {p : Phase} {next : Option Handle → Script α} (hreached : .reached i p ∈ K)
    (hp : p ≠ .notCompiled)
    (h : ∀ j, Obeys n t (insert (.job ⟨i, j⟩) K) d (next (some ⟨i, j⟩))) :
    Obeys n t K d (.job i next) := by
  refine .learn rfl fun w w' c' hfits hact => ?_
  cases hact
  have hphase : (w.view.life i).phase ≠ .notCompiled := by
    have hbefore : p.Before (w.view.life i).phase := hfits.facts _ hreached
    intro hn
    rw [hn] at hbefore
    revert hbefore hp
    cases p <;> decide
  obtain ⟨j, hj⟩ : ∃ j, w.cells i = some j := by
    have hcell : (w.cells i).isSome = true :=
      (hfits.sane.cell i).trans (hfits.sane.opened i hphase)
    exact Option.isSome_iff_exists.mp hcell
  rw [hj]
  exact ⟨.job ⟨i, j⟩, _, .quiet, hj, h j⟩

/-! A caller takes a function. -/

theorem openJob {i : Nat} {next : Option Handle → Script α} (hmode : d.mode = .admitted none)
    (hown : d.own = none) (hnone : Obeys n t K d (next none))
    (hsome : ∀ j, Obeys n t (insert (.job ⟨i, j⟩) K) { d with mode := .admitted (some i) }
      (next (some ⟨i, j⟩))) :
    Obeys n t K d (.openJob i next) := by
  refine .intro rfl fun w w' c' hfits hact => ?_
  simp only [World.act] at hact
  split at hact
  next hi =>
    cases hact
    obtain ⟨s, hs⟩ : ∃ s, w.service.table[i]? = some s := ⟨_, List.getElem?_eq_getElem hi⟩
    have hcell : w.cells i = none ∨ w.cells i = some ((w.cells i).getD w.made) := by
      cases w.cells i with
      | none => exact Or.inl rfl
      | some j => exact Or.inr rfl
    have hview : (w.openJob i).view = { w.view with
        cell := Function.update w.view.cell i (some ((w.cells i).getD w.made))
        job := Function.update w.view.job i (some ((w.view.job i).getD .pending)) } := by
      have hu := World.view_update hs Slot.openJob
      have hlife : Function.update w.life i { w.life i with
          phase := s.openJob.phase, artifact := s.openJob.artifact } = w.life := by
        have : w.life i = { w.life i with
            phase := s.openJob.phase, artifact := s.openJob.artifact } := by
          simp [World.life, Table.phase, World.artifact?, hs, Slot.openJob]
        rw [← this, Function.update_eq_self]
      have hjob : s.openJob.job = some ((w.service.table.job? i).getD .pending) := by
        simp [Table.job?, hs, Slot.openJob]
      rw [hlife, hjob] at hu
      have hcells : (w.openJob i).cells =
          Function.update w.cells i (some ((w.cells i).getD w.made)) := by
        funext j
        rw [Function.update_apply]
        rfl
      exact hcells ▸ congrArg (fun v : View α => { v with cell := (w.openJob i).cells }) hu
    have heffect : Effect t w.view d (w.openJob i).view { d with mode := .admitted (some i) } := by
      rw [hview]
      exact .openJob hmode hown hi hcell
    refine ⟨insert (.job ⟨i, (w.cells i).getD w.made⟩) K, _, heffect, ?_, hsome _⟩
    rintro f (rfl | hf)
    · rw [hview]
      exact Function.update_self ..
    · exact heffect.follows.fact (hfits.facts f hf)
  next =>
    cases hact
    exact ⟨K, d, .quiet, hfits.facts, hnone⟩

/-- Taking a function that was opened; if another has taken it, nothing happens. -/
theorem take {i j : Nat} {next : Phase → Script α} (hmode : d.mode = .admitted (some i))
    (hown : d.own = none) (hjob : .job ⟨i, j⟩ ∈ K)
    (hwon : Obeys n t K ⟨.admitted none, some (i, .taken)⟩ (next .notCompiled))
    (hlost : ∀ p, p ≠ .notCompiled → Obeys n t K { d with mode := .admitted none } (next p)) :
    Obeys n t K d (.move i .notCompiled .compiling next) := by
  refine .keep rfl fun w w' c' hfits hact => ?_
  cases hact
  have hcell : w.cells i = some j := hfits.facts _ hjob
  have hopen : (w.service.table.job? i).isSome := by
    have : (w.cells i).isSome = (w.service.table.job? i).isSome := hfits.sane.cell i
    rw [← this, hcell]
    rfl
  obtain ⟨s, hs⟩ := World.slot_of_job hopen
  have hphase : w.service.table.phase i = s.phase := by simp [Table.phase, hs]
  by_cases hp : s.phase = .notCompiled
  · have hlife : w.life i = Stage.life i .fresh := by
      obtain ⟨st, hst⟩ := hfits.sane.stage i
      have hst' : st.phase = .notCompiled := by
        rw [← hp, ← hphase]
        exact (congrArg Life.phase hst).symm
      have : st = .fresh := by
        cases st <;> simp_all [Stage.phase]
      rw [← this]
      exact hst
    have hview : (w.update i (Slot.move · .notCompiled .compiling)).view =
        { w.view with life := Function.update w.view.life i (Stage.life i .taken) } := by
      rw [World.view_move hs hp, hlife]
      rfl
    rw [hview, hphase, hp]
    exact ⟨_, .take hmode hown hlife hopen, hwon⟩
  · have hsame : w.update i (Slot.move · .notCompiled .compiling) = w := by
      apply World.update_eq_self
      intro s' hs'
      rw [hs] at hs'
      cases hs'
      simp [Slot.move, hp]
    rw [hsame, hphase]
    refine ⟨_, .yield hmode ?_, hlost s.phase hp⟩
    rw [show (w.view.life i).phase = s.phase from hphase]
    exact hp

theorem submit {i : Nat} {next : Script α} (hown : d.own = some (i, .taken))
    (h : Obeys n t K { d with own := none } next) : Obeys n t K d (.submit i next) := by
  refine .keep rfl fun w w' c' hfits hact => ?_
  cases hact
  have hlight : d.Light := by
    intro k st hk
    rw [hown] at hk
    cases hk
    rfl
  simp only [World.submit]
  split
  · exact ⟨_, .submit hown, h⟩
  · exact ⟨_, .release hlight, h⟩

/-! A job. -/

/-- An action that moves one's own function on. -/
theorem advance {c next : Script α} {i : Nat} {st st' : Stage α} (hplain : c.isPlain = true)
    (hown : d.own = some (i, st)) (hnext : st.Next st')
    (hmode : st'.phase = st.phase ∧ st'.artifact = st.artifact ∨ d.mode = .admitted none)
    (hact : ∀ (w w' : World α) (c' : Script α), w.view.Sane → w.life i = st.life i → w.act t c = some (w', c') →
      w'.view = { w.view with life := Function.update w.view.life i (st'.life i) } ∧ c' = next)
    (h : Obeys n t K { d with own := some (i, st') } next) : Obeys n t K d c := by
  refine .keep hplain fun w w' c' hfits hact' => ?_
  obtain ⟨hview, rfl⟩ := hact w w' c' hfits.sane (hfits.own i st hown) hact'
  rw [hview]
  exact ⟨_, .advance hown (hfits.own i st hown) hnext hmode, h⟩

theorem tell (e : Event) {next : Script α} {st : Stage α} (st' : Stage α)
    (hown : d.own = some (e.func, st)) (hnext : st.Next st')
    (hlife : st'.life e.func = { st.life e.func with events := st.events e.func ++ [e] })
    (h : Obeys n t K { d with own := some (e.func, st') } next) : Obeys n t K d (.tell e next) := by
  refine .advance rfl hown hnext (Or.inl ?_) (fun w w' c' _ hl hact => ?_) h
  · exact ⟨congrArg Life.phase hlife, congrArg Life.artifact hlife⟩
  · cases hact
    rw [World.view_tell, hl, hlife]
    exact ⟨rfl, rfl⟩

theorem beginRun {i : Nat} {next : Script α} (hown : d.own = some (i, .told))
    (h : Obeys n t K { d with own := some (i, .begun) } next) :
    Obeys n t K d (.beginRun i next) := by
  refine .advance rfl hown .compile (Or.inl ⟨rfl, rfl⟩) (fun w w' c' _ hl hact => ?_) h
  cases hact
  rw [World.view_beginRun, hl]
  exact ⟨rfl, rfl⟩

theorem setArtifact {i : Nat} {a : α} {next : Bool → Script α} (hmode : d.mode = .admitted none)
    (hown : d.own = some (i, .begun))
    (h : Obeys n t K { d with own := some (i, .stored a) } (next true)) :
    Obeys n t K d (.setArtifact i a next) := by
  refine .advance rfl hown (.store a) (Or.inr hmode) (fun w w' c' hsane hl hact => ?_) h
  cases hact
  obtain ⟨s, hs, hphase, hart⟩ := World.slot_of_life hsane hl nofun
  have hunset : w.artifact? i = none := congrArg Life.artifact hl
  rw [World.view_setArtifact hs hart, hl, hunset]
  exact ⟨rfl, rfl⟩

/-- Publishing, or recording a failure. -/
theorem move {i : Nat} {st : Stage α} (st' : Stage α) {next : Phase → Script α}
    (hmode : d.mode = .admitted none) (hown : d.own = some (i, st)) (hnext : st.Next st')
    (hphase : st.phase = .compiling) (hlife : st'.life i = { st.life i with phase := st'.phase })
    (h : Obeys n t K { d with own := some (i, st') } (next .compiling)) :
    Obeys n t K d (.move i .compiling st'.phase next) := by
  refine .advance rfl hown hnext (Or.inr hmode) (fun w w' c' hsane hl hact => ?_) h
  cases hact
  obtain ⟨s, hs, hp, -⟩ := World.slot_of_life hsane hl (by rw [hphase]; decide)
  have hfound : w.service.table.phase i = .compiling := (congrArg Life.phase hl).trans hphase
  rw [World.view_move hs (hp.trans hphase), hl, hlife, hfound]
  exact ⟨rfl, rfl⟩

theorem settle {i j : Nat} {st : Stage α} {next : Script α} (hmode : d.mode = .admitted none)
    (hown : d.own = some (i, st)) (hfinal : st.phase.isFinal = true) (hjob : .job ⟨i, j⟩ ∈ K)
    (h : Obeys n t K { d with own := none } next) :
    Obeys n t K d (.resolve ⟨i, j⟩ (.finished st.phase) next) := by
  refine .keep rfl fun w w' c' hfits hact => ?_
  cases hact
  have hcell : w.cells i = some j := hfits.facts _ hjob
  rw [World.view_resolve hcell]
  exact ⟨_, .settle hmode hown (hfits.own i st hown) hfinal hcell, h⟩

/-! Visiting all functions. -/

theorem visit {k : Nat} {next : Phase → Script α} (hmode : d.mode = .sweeping k)
    (hfound : Obeys n t (insert (.reached k .compiling) K) { d with mode := .cancelling k }
      (next .compiling))
    (hpass : ∀ p, p ≠ .compiling → Obeys n t K { d with mode := .sweeping (k + 1) } (next p)) :
    Obeys n t K d (.phase k next) := by
  refine .intro rfl fun w w' c' hfits hact => ?_
  cases hact
  by_cases hp : w.service.table.phase k = .compiling
  · refine ⟨insert (.reached k .compiling) K, _, .find hmode hp, ?_, hp ▸ hfound⟩
    rintro f (rfl | hf)
    · exact Or.inl hp.symm
    · exact hfits.facts f hf
  · exact ⟨K, _, .pass hmode hp, hfits.facts, hpass _ hp⟩

theorem cancel {k j : Nat} {next : Script α} (hmode : d.mode = .cancelling k)
    (hjob : .job ⟨k, j⟩ ∈ K) (h : Obeys n t K { d with mode := .sweeping (k + 1) } next) :
    Obeys n t K d (.resolve ⟨k, j⟩ .cancelled next) := by
  refine .keep rfl fun w w' c' hfits hact => ?_
  cases hact
  have hcell : w.cells k = some j := hfits.facts _ hjob
  rw [World.view_resolve hcell]
  exact ⟨_, .cancel hmode hcell, h⟩

theorem conclude {next : Script α} (hmode : d.mode = .parting)
    (h : Obeys n t K { d with mode := .outside } next) :
    Obeys n t K d (.answer (.closed true) next) := by
  refine .keep rfl fun w w' c' hfits hact => ?_
  cases hact
  exact ⟨_, .conclude hmode, h⟩

/-! Answers. -/

theorem answer {a : Answer α} {next : Script α}
    (hholds : ∀ v : View α, (∀ f ∈ K, f.Holds v) → a.Holds v) (hclosed : a ≠ .closed true)
    (hasked : ∀ i h, a = .asked i (some h) → d.mode = .admitted none) (h : Obeys n t K d next) :
    Obeys n t K d (.answer a next) := by
  refine .keep rfl fun w w' c' hfits hact => ?_
  cases hact
  exact ⟨_, .report (hholds _ hfits.facts) hclosed hasked, h⟩

theorem tally {i : Nat} {next : Option Nat → Script α} (h : ∀ c, Obeys n t K d (next c)) :
    Obeys n t K d (.tally i next) := by
  refine .keep rfl fun w w' c' hfits hact => ?_
  cases hact
  exact ⟨_, .quiet, h _⟩

end Obeys

/-! ### All scripts obey -/

section Scripts

variable {n t : Nat} {K : Set (Fact α)} {d : Duty α}

theorem obeys_done : Obeys n t K {} (.done : Script α) := .done rfl nofun

theorem obeys_answer_phase {i : Nat} {p : Phase} {next : Script α} (hp : .reached i p ∈ K)
    (h : Obeys n t K d next) : Obeys n t K d (.answer (.phase i p) next) :=
  .answer (fun _ hK => hK _ hp) nofun nofun h

/-- A reply is given from inside; a handle only while the service is open. -/
theorem obeys_reply {i : Nat} {handle : Option Handle} {next : Option Handle → Script α}
    (hmode : d.mode = .admitted none ∨ d.mode = .refused) (hown : d.own = none)
    (hhandle : ∀ h, handle = some h → d.mode = .admitted none ∧ h.func = i ∧ .job h ∈ K)
    (hnext : Obeys n t K {} (next handle)) : Obeys n t K d (Script.reply i handle next) := by
  have hlight : d.Light := by
    intro k st hk
    rw [hown] at hk
    cases hk
  have houtside : Obeys n t K { d with mode := .outside } (next handle) := by
    rw [hown]
    exact hnext
  refine .answer ?_ nofun ?_ (.leaveGate hmode hlight houtside)
  · intro v hK h hh
    obtain ⟨-, rfl, hjob⟩ := hhandle h hh
    exact ⟨rfl, hK _ hjob⟩
  · intro k h hk
    cases hk
    exact (hhandle h rfl).1

theorem obeys_ensure {i : Nat} {next : Option Handle → Script α}
    (hnone : Obeys n t K {} (next none))
    (hsome : ∀ j, Obeys n t (insert (.job ⟨i, j⟩) K) {} (next (some ⟨i, j⟩))) :
    Obeys n t K {} (Script.ensure i next) := by
  refine .enterGate rfl (.isClosed_entered rfl ?_ ?_)
  · refine .openJob rfl rfl (obeys_reply (Or.inl rfl) rfl nofun hnone) fun j => ?_
    have hjob : Fact.job ⟨i, j⟩ ∈ insert (Fact.job ⟨i, j⟩) K := Set.mem_insert ..
    have hgiven : Obeys n t (insert (.job ⟨i, j⟩) K) ⟨.admitted none, none⟩
        (Script.reply i (some ⟨i, j⟩) next) := by
      refine obeys_reply (Or.inl rfl) rfl (fun h hh => ?_) (hsome j)
      cases hh
      exact ⟨rfl, rfl, hjob⟩
    refine .take rfl rfl hjob (.submit rfl hgiven) fun p hp => ?_
    simp only [if_neg hp]
    split
    · exact hgiven
    · exact obeys_reply (Or.inl rfl) rfl nofun (hnone.mono (Set.subset_insert ..))
  · exact obeys_reply (Or.inr rfl) rfl nofun hnone

theorem obeys_compileNow {i : Nat} : Obeys n t K {} (Script.compileNow i : Script α) := by
  have hlook : ∀ K : Set (Fact α),
      Obeys n t K {} (.phase i fun p => .answer (.phase i p) .done) := fun K =>
    .phase fun p => obeys_answer_phase (Set.mem_insert ..) obeys_done
  refine obeys_ensure (hlook K) fun j => ?_
  refine .wait (Set.mem_insert ..) (fun p => ?_) (hlook _)
  exact obeys_answer_phase (Set.mem_insert ..) obeys_done

theorem obeys_readArtifact {i : Nat} : Obeys n t K {} (Script.readArtifact i : Script α) := by
  refine .phase fun p => ?_
  have hp : Fact.reached i p ∈ insert (Fact.reached i p) K := Set.mem_insert ..
  split
  next hready =>
    subst hready
    refine .artifact hp fun a => .answer (fun v hK => ?_) nofun nofun obeys_done
    have hreached : Fact.Holds v (.reached i .ready) := hK _ (Set.mem_insert_of_mem _ hp)
    have hart : Fact.Holds v (.artifact i a) := hK _ (Set.mem_insert ..)
    refine ⟨hreached, iff_of_true rfl rfl, fun b hb => ?_⟩
    cases hb
    exact hart
  next hready =>
    refine .answer (fun v hK => ?_) nofun nofun obeys_done
    exact ⟨hK _ hp, iff_of_false nofun hready, nofun⟩

theorem obeys_notify {threshold i : Nat} :
    Obeys n t K {} (Script.notify threshold i : Script α) := by
  have hback : ∀ K : Set (Fact α), Obeys n t K {} (.answer (.notified i) .done) := fun K =>
    .answer (fun _ _ => trivial) nofun nofun obeys_done
  refine .tally fun calls => ?_
  cases calls with
  | none => exact hback K
  | some calls =>
    simp only
    split
    · refine .phase fun p => ?_
      split
      · exact obeys_ensure (hback _) fun j => hback _
      · exact hback _
    · exact hback K

theorem obeys_publish {i : Nat} {a : α} {next : Script α}
    (h : ∀ K, Obeys n t K ⟨.admitted none, some (i, .succeeded a)⟩ next) :
    Obeys n t K ⟨.admitted none, some (i, .begun)⟩ (Script.publish i a next) := by
  refine .phase_own rfl ?_
  refine .setArtifact rfl rfl ?_
  refine .move (.published a) rfl rfl (.publish a) rfl rfl ?_
  exact .tell (.succeeded i) (.succeeded a) rfl (.succeed a) rfl (h _)

theorem obeys_fail {i : Nat} {e : CompileError} {next : Script α}
    (h : Obeys n t K ⟨.admitted none, some (i, .reported e)⟩ next) :
    Obeys n t K ⟨.admitted none, some (i, .begun)⟩ (Script.fail i e next) := by
  refine .move .failed rfl rfl .fail rfl rfl ?_
  exact .tell (.failed i e) (.reported e) rfl (.report e) rfl h

theorem obeys_finish {i : Nat} {st : Stage α} {next : Script α} (hfinal : st.phase.isFinal = true)
    (h : ∀ K, Obeys n t K ⟨.admitted none, none⟩ next) :
    Obeys n t K ⟨.admitted none, some (i, st)⟩ (Script.finish i next) := by
  refine .phase_own rfl ?_
  have hne : st.phase ≠ .notCompiled := by
    intro hp
    rw [hp] at hfinal
    cases hfinal
  rw [if_pos hfinal]
  refine .job (Set.mem_insert ..) hne fun j => ?_
  exact .settle rfl rfl hfinal (Set.mem_insert ..) (h _)

/-- A job goes on with what the compiler gives. If the service has been closed
the function is given up as it is. -/
theorem obeys_conclude {i : Nat} {r : Except CompileError α} :
    Obeys n t K ⟨.outside, some (i, .begun)⟩ (Script.conclude i r) := by
  have hlight : ∀ m, Duty.Light (⟨m, some (i, .begun)⟩ : Duty α) := by
    intro m k st hk
    cases hk
    rfl
  have hleft : ∀ K : Set (Fact α), Obeys n t K ⟨.admitted none, none⟩ (.leaveGate .done) :=
    fun K => .leaveGate (Or.inl rfl) nofun obeys_done
  refine .enterGate rfl (.isClosed_entered rfl ?_ ?_)
  · cases r with
    | ok a => exact obeys_publish fun K => obeys_finish rfl hleft
    | error e => exact obeys_fail (obeys_finish rfl hleft)
  · exact .leaveGate (Or.inr rfl) (hlight _) (.done rfl (hlight _))

theorem obeys_runJob {i : Nat} :
    Obeys n t K ⟨.outside, some (i, .taken)⟩ (Script.runJob i : Script α) := by
  refine .isClosed fun closed => ?_
  split
  · refine .done rfl ?_
    intro k st hk
    cases hk
    rfl
  · refine .tell (.started i) .told rfl .start rfl (.beginRun rfl ?_)
    exact .compile fun r => obeys_conclude

theorem obeys_sweep {next : Script α} {left k : Nat}
    (h : ∀ K, Obeys n t K ⟨.sweeping (k + left), none⟩ next) :
    Obeys n t K ⟨.sweeping k, none⟩ (Script.sweep left k next) := by
  induction left generalizing k K with
  | zero => exact h K
  | succ left ih =>
    have hrest : ∀ K, Obeys n t K ⟨.sweeping (k + 1), none⟩ (Script.sweep left (k + 1) next) := by
      intro K
      refine ih fun K => ?_
      rw [Nat.add_right_comm]
      exact h K
    refine .visit rfl ?_ fun p hp => ?_
    · refine .job (Set.mem_insert ..) nofun fun j => ?_
      exact .cancel rfl (Set.mem_insert ..) (hrest _)
    · rw [if_neg hp]
      exact hrest K

theorem obeys_close : Obeys n t K {} (Script.close n : Script α) := by
  refine .setClosed rfl ?_ ?_
  · refine .stopPool (.lockGate rfl (obeys_sweep fun K => ?_))
    rw [Nat.zero_add]
    exact .unlockGate rfl (.conclude rfl obeys_done)
  · exact .answer (fun _ _ => trivial) nofun nofun obeys_done

/-- Callers obey, whatever they ask for. -/
theorem obeys_call {threshold : Nat} (c : Call) :
    Obeys n t K {} (c.script n threshold : Script α) := by
  cases c with
  | ensure i => exact obeys_ensure obeys_done fun j => obeys_done
  | compileNow i => exact obeys_compileNow
  | phase i => exact .phase fun p => obeys_answer_phase (Set.mem_insert ..) obeys_done
  | artifact i => exact obeys_readArtifact
  | notify i => exact obeys_notify
  | close => exact obeys_close

end Scripts

end StackMachine.Lifecycle
