/-
# Sessions are schedules

In a session everything happens in one order: a caller comes back before the next
one calls, and jobs begin and end in between. That is one of the schedules of the
threads, so what holds of every schedule holds of every session.

* `System.Mirrors`: a system is as a session knows it;
* `System.Scheduled`: some schedule leads there;
* `Session.exists_schedule`: every session is reached by a schedule.
-/
import Mathlib.Data.Fintype.EquivFin
import StackMachine.Lifecycle.Session
import StackMachine.Proofs.Alone

namespace StackMachine.Lifecycle

variable {α : Type}

/-! ### Schedules -/

theorem Schedule.Smooth.append {σ τ : Schedule α} (hσ : σ.Smooth) (hτ : τ.Smooth) :
    (σ ++ τ).Smooth := by
  intro m hm
  rcases List.mem_append.mp hm with h | h
  · exact hσ m h
  · exact hτ m h

theorem smooth_turn (t k : Nat) {m : Move α} (hm : m ≠ .crash) :
    Schedule.Smooth ((t, m) :: List.replicate k (t, .go)) := by
  intro y hy
  rcases List.mem_cons.mp hy with rfl | hy
  · exact hm
  · rw [(List.mem_replicate.mp hy).2]
    simp

namespace System

open World

variable {x : System α} {t : Nat} {w : World α} {c : Script α}

/-- Nobody falls asleep by an action. -/
theorem sleepers_act {w' : World α} {c' : Script α} (h : w.act t c = some (w', c'))
    (hw : w.sleepers = []) : w'.sleepers = [] := by
  cases c with
  | done | compile => cases h
  | enterGate | lockGate =>
    simp only [act] at h
    split at h
    · cases h
      exact hw
    · cases h
  | openJob =>
    simp only [act] at h
    split at h
    · cases h
      exact hw
    · cases h
      exact hw
  | wait =>
    simp only [act] at h
    split at h
    · cases h
    · cases h
      exact hw
  | resolve =>
    cases h
    unfold World.resolve
    split
    next => simp [hw]
    next => exact hw
  | submit =>
    cases h
    unfold World.submit
    split
    next => exact hw
    next => exact hw
  | _ =>
    cases h
    exact hw

/-- What a thread does alone is a schedule. -/
theorem run_alone (hx : x.world.sleepers = []) (h : Alone t (x.world, x.scripts t) (w, c)) :
    ∃ k, x.run (List.replicate k (t, .go)) = x.follow t w c := by
  generalize hy : (x.world, x.scripts t) = y at h
  induction h using Relation.ReflTransGen.head_induction_on generalizing x with
  | refl =>
    cases hy
    refine ⟨0, ?_⟩
    rw [follow_scripts]
    rfl
  | @head y z hstep hrest ih =>
    cases hy
    obtain ⟨w', c'⟩ := z
    have hgo : x.step t .go = x.follow t w' c' := by
      simp [step, asleep, hx, go, hstep]
    obtain ⟨k, hk⟩ := ih (x := x.follow t w' c') (sleepers_act hstep hx) (by simp)
    refine ⟨k + 1, ?_⟩
    rw [List.replicate_succ, run, List.foldl_cons, hgo]
    exact hk.trans (x.follow_follow ..)

/-- A move and what the thread does then. -/
theorem run_turn {m : Move α} {w₀ : World α} {c₀ : Script α}
    (hstep : x.step t m = x.follow t w₀ c₀) (hrest : w₀.Rest) (h : Alone t (w₀, c₀) (w, c)) :
    ∃ k, x.run ((t, m) :: List.replicate k (t, .go)) = x.follow t w c := by
  have hself : (w₀, c₀) = ((x.follow t w₀ c₀).world, (x.follow t w₀ c₀).scripts t) := by
    simp
  obtain ⟨k, hk⟩ := run_alone (x := x.follow t w₀ c₀) hrest.sleepers (hself ▸ h)
  refine ⟨k, ?_⟩
  rw [run, List.foldl_cons, hstep]
  exact hk.trans (x.follow_follow ..)

/-! ### What a session knows -/

/-- The system is as the session knows it. Nobody is at work but the threads of
`jobs`, each with its function: their compiler has not come back. -/
structure Mirrors (s : Session α) (x : System α) (jobs : List (Nat × Nat)) : Prop where
  rest : x.world.Rest
  service : x.world.service = s.service
  counts : x.world.counts = s.counts
  threshold : x.threshold = s.threshold
  running : jobs.map Prod.snd = s.service.running
  busy : ∀ p ∈ jobs, x.scripts p.1 = .compile p.2 (Script.conclude p.2)
  idle : ∀ t, t ∉ jobs.map Prod.fst → x.scripts t = .done
  nodup : (jobs.map Prod.fst).Nodup

/-- Some schedule leads to what the session knows. -/
def Scheduled (n threshold : Nat) (s : Session α) : Prop :=
  ∃ σ jobs, Schedule.Smooth σ ∧ Mirrors s ((System.new n threshold).run σ) jobs

namespace Mirrors

variable {s : Session α} {jobs : List (Nat × Nat)} {sv : Service α} {counts : List Nat}

/-- A thread that was not at work has done something. -/
theorem follow (h : Mirrors s x jobs) (ht : t ∉ jobs.map Prod.fst) (hrest : w.Rest)
    (hservice : w.service = sv) (hcounts : w.counts = counts)
    (hrunning : sv.running = s.service.running) :
    Mirrors { s with service := sv, counts := counts } (x.follow t w .done) jobs where
  rest := hrest
  service := hservice
  counts := hcounts
  threshold := h.threshold
  running := h.running.trans hrunning.symm
  busy p hp := by
    have hne : p.1 ≠ t := fun he => ht (he ▸ List.mem_map_of_mem hp)
    exact (x.scripts_follow_of_ne _ _ hne).trans (h.busy p hp)
  idle u hu := by
    by_cases hut : u = t
    · subst hut
      exact x.scripts_follow_self ..
    · exact (x.scripts_follow_of_ne _ _ hut).trans (h.idle u hu)
  nodup := h.nodup

/-- The first job in the queue has begun. -/
theorem follow_begin (h : Mirrors s x jobs) (ht : t ∉ jobs.map Prod.fst) {i : Nat} (hrest : w.Rest)
    (hservice : w.service = sv) (hcounts : w.counts = s.counts)
    (hrunning : sv.running = s.service.running ++ [i]) :
    Mirrors { s with service := sv } (x.follow t w (.compile i (Script.conclude i)))
      (jobs ++ [(t, i)]) where
  rest := hrest
  service := hservice
  counts := hcounts
  threshold := h.threshold
  running := by rw [List.map_append, h.running, hrunning]; rfl
  busy p hp := by
    rcases List.mem_append.mp hp with hp | hp
    · have hne : p.1 ≠ t := fun he => ht (he ▸ List.mem_map_of_mem hp)
      exact (x.scripts_follow_of_ne _ _ hne).trans (h.busy p hp)
    · obtain rfl := List.mem_singleton.mp hp
      exact x.scripts_follow_self ..
  idle u hu := by
    rw [List.map_append, List.mem_append, not_or] at hu
    have hne : u ≠ t := by simpa using hu.2
    exact (x.scripts_follow_of_ne _ _ hne).trans (h.idle u hu.1)
  nodup := by
    rw [List.map_append]
    refine List.nodup_append.mpr ⟨h.nodup, List.nodup_singleton t, fun u hu v hv => ?_⟩
    obtain rfl : v = t := List.mem_singleton.mp hv
    exact fun he => ht (he ▸ hu)

/-- The first of the jobs has ended. -/
theorem follow_end {i : Nat} (h : Mirrors s x ((t, i) :: jobs)) (hrest : w.Rest)
    (hservice : w.service = sv) (hcounts : w.counts = s.counts)
    (hrunning : sv.running = s.service.running.erase i) :
    Mirrors { s with service := sv } (x.follow t w .done) jobs := by
  obtain ⟨hfirst, hrest'⟩ := List.nodup_cons.mp h.nodup
  refine ⟨hrest, hservice, hcounts, h.threshold, ?_, fun p hp => ?_, fun u hu => ?_, hrest'⟩
  · rw [hrunning, ← h.running]
    simp
  · have hmem : p.1 ∈ jobs.map Prod.fst := List.mem_map_of_mem hp
    have hne : p.1 ≠ t := fun he => hfirst (he ▸ hmem)
    exact (x.scripts_follow_of_ne _ _ hne).trans (h.busy p (List.mem_cons_of_mem _ hp))
  · by_cases hut : u = t
    · subst hut
      exact x.scripts_follow_self ..
    · refine (x.scripts_follow_of_ne _ _ hut).trans (h.idle u ?_)
      simpa [hut] using hu

end Mirrors

namespace Scheduled

variable {n threshold : Nat} {s s' : Session α}

/-- A thread takes its turn. -/
theorem turn {σ : Schedule α} (hσ : σ.Smooth) (hx : (System.new n threshold).run σ = x) {m : Move α}
    (hm : m ≠ .crash) {w₀ : World α} {c₀ : Script α} (hstep : x.step t m = x.follow t w₀ c₀)
    (hrest : w₀.Rest) (h : Alone t (w₀, c₀) (w, c)) {jobs : List (Nat × Nat)}
    (hmirrors : Mirrors s' (x.follow t w c) jobs) : Scheduled n threshold s' := by
  obtain ⟨k, hk⟩ := run_turn hstep hrest h
  refine ⟨σ ++ (t, m) :: List.replicate k (t, .go), jobs, hσ.append (smooth_turn t k hm), ?_⟩
  rw [run, List.foldl_append, ← run, ← run, hx, hk]
  exact hmirrors

/-- Somebody calls, and comes back. -/
theorem call (h : Scheduled n threshold s) (c : Call) {sv : Service α} {counts : List Nat}
    (hrunning : sv.running = s.service.running)
    (hc : ∀ t (w : World α), w.Rest → w.service = s.service → w.counts = s.counts →
      ∃ w', Alone t (w, c.script s.service.table.length s.threshold) (w', .done) ∧ w'.Rest ∧
        w'.service = sv ∧ w'.counts = counts) :
    Scheduled n threshold { s with service := sv, counts := counts } := by
  obtain ⟨σ, jobs, hσ, hmirrors⟩ := h
  obtain ⟨t, ht⟩ := Infinite.exists_notMem_finset (jobs.map Prod.fst).toFinset
  rw [List.mem_toFinset] at ht
  generalize hx : (System.new n threshold).run σ = x at hmirrors
  obtain ⟨w', halone, hrest, hservice, hcounts⟩ :=
    hc t x.world hmirrors.rest hmirrors.service hmirrors.counts
  refine turn hσ hx (m := .call c) (by simp) ?_ hmirrors.rest halone
    (hmirrors.follow ht hrest hservice hcounts hrunning)
  simp [step, hmirrors.idle t ht, Script.isDone, hmirrors.service, hmirrors.threshold]

/-- The first job in the queue begins. -/
theorem beginJob (h : Scheduled n threshold s) :
    Scheduled n threshold { s with service := s.service.beginJob } := by
  cases hqueue : s.service.queue with
  | nil =>
    have hsame : s.service.beginJob = s.service := by simp [Service.beginJob, hqueue]
    rw [hsame]
    exact h
  | cons i queue =>
    obtain ⟨σ, jobs, hσ, hmirrors⟩ := h
    obtain ⟨t, ht⟩ := Infinite.exists_notMem_finset (jobs.map Prod.fst).toFinset
    rw [List.mem_toFinset] at ht
    generalize hx : (System.new n threshold).run σ = x at hmirrors
    obtain ⟨w', halone, hrest, hservice, hcounts⟩ := hmirrors.rest.alone_runJob (t := t)
      (hmirrors.service ▸ hqueue)
    have hstep : x.step t (.job i) = x.follow t (x.world.unqueue i) (Script.runJob i) := by
      simp [step, hmirrors.idle t ht, Script.isDone, hmirrors.service, hqueue]
    have hunqueued : (x.world.unqueue i).Rest :=
      ⟨hmirrors.rest.gate, hmirrors.rest.sleepers, hmirrors.rest.pool, hmirrors.rest.cells⟩
    rw [hmirrors.service] at halone hservice
    rw [hmirrors.counts] at hcounts
    cases hclosed : s.service.closed with
    | true =>
      rw [if_pos hclosed] at halone
      have hrunning : s.service.beginJob.running = s.service.running := by
        simp [Service.beginJob, hqueue, hclosed]
      exact turn hσ hx (m := .job i) (by simp) hstep hunqueued halone
        (hmirrors.follow ht hrest hservice hcounts hrunning)
    | false =>
      rw [if_neg (by simp [hclosed])] at halone
      have hrunning : s.service.beginJob.running = s.service.running ++ [i] := by
        simp [Service.beginJob, hqueue, hclosed, Service.tell]
      exact turn hσ hx (m := .job i) (by simp) hstep hunqueued halone
        (hmirrors.follow_begin ht hrest hservice hcounts hrunning)

/-- The job that has run longest ends. -/
theorem endJob (h : Scheduled n threshold s) (compiler : Compiler α) {i : Nat} {rest : List Nat}
    (hi : s.service.running = i :: rest) :
    Scheduled n threshold { s with service := s.service.endJob compiler i } := by
  obtain ⟨σ, jobs, hσ, hmirrors⟩ := h
  generalize hx : (System.new n threshold).run σ = x at hmirrors
  obtain ⟨t, jobs, rfl⟩ : ∃ t jobs', jobs = (t, i) :: jobs' := by
    cases jobs with
    | nil => cases hmirrors.running.trans hi
    | cons p jobs =>
      have hfunc : p.2 = i := (List.cons.inj (hmirrors.running.trans hi)).1
      exact ⟨p.1, jobs, by rw [← hfunc]⟩
  obtain ⟨w', halone, hrest, hservice, hcounts⟩ :=
    hmirrors.rest.alone_conclude (t := t) (i := i) compiler
  rw [hmirrors.service] at hservice
  rw [hmirrors.counts] at hcounts
  refine turn hσ hx (m := .compiled (compiler i)) (by simp) ?_ ?_ halone
    (hmirrors.follow_end hrest hservice hcounts (Service.running_endJob compiler s.service i))
  · simp [step, comeBack, hmirrors.busy (t, i) (List.mem_cons_self ..)]
  · exact ⟨hmirrors.rest.gate, hmirrors.rest.sleepers, hmirrors.rest.pool, hmirrors.rest.cells⟩

variable (compiler : Compiler α)

theorem endAll (h : Scheduled n threshold s) :
    Scheduled n threshold { s with service := Session.endAll compiler s.service } := by
  have hfold : ∀ (l : List Nat) (s : Session α), s.service.running = l → Scheduled n threshold s →
      Scheduled n threshold { s with service := l.foldl (Service.endJob compiler) s.service } := by
    intro l
    induction l with
    | nil => exact fun s _ h => h
    | cons i l ih =>
      intro s hl h
      refine ih { s with service := s.service.endJob compiler i } ?_ (h.endJob compiler hl)
      rw [Service.running_endJob, hl, List.erase_cons_head]
  exact hfold _ s rfl h

theorem runQueue (k : Nat) (h : Scheduled n threshold s) :
    Scheduled n threshold { s with service := Session.runQueue compiler k s.service } := by
  induction k generalizing s with
  | zero => exact h
  | succ k ih => exact ih (h.beginJob.endAll compiler)

theorem fill (workers k : Nat) (h : Scheduled n threshold s) :
    Scheduled n threshold { s with service := Session.fill workers k s.service } := by
  induction k generalizing s with
  | zero => exact h
  | succ k ih =>
    unfold Session.fill
    split
    next => exact ih h.beginJob
    next => exact h

/-- Jobs go on as far as they can. -/
theorem settle (h : Scheduled n threshold s) : Scheduled n threshold (s.settle compiler) := by
  unfold Session.settle
  split
  next => exact h.fill _ _
  next => exact (h.endAll compiler).runQueue compiler _

theorem ensure (i : Nat) (h : Scheduled n threshold s) :
    Scheduled n threshold (s.ensure compiler i).2 := by
  refine settle compiler (h.call (.ensure i) (Service.running_ensure ..) ?_)
  intro t w hw hservice hcounts
  obtain ⟨w', _, halone, hrest, hservice', -, hcounts'⟩ :=
    hw.alone_ensure (t := t) (i := i) fun _ => .done
  exact ⟨w', halone, hrest, hservice ▸ hservice', hcounts ▸ hcounts'⟩

theorem close (h : Scheduled n threshold s) : Scheduled n threshold s.close := by
  refine h.call .close (Service.running_close ..) fun t w hw hservice hcounts => ?_
  obtain ⟨w', halone, hrest, hservice', hcounts'⟩ := hw.alone_close (t := t)
  exact ⟨w', hservice ▸ halone, hrest, hservice ▸ hservice', hcounts ▸ hcounts'⟩

theorem notify (i : Nat) (h : Scheduled n threshold s) :
    Scheduled n threshold (s.notify compiler i) := by
  have hcall : ∀ sv : Service α, sv.running = s.service.running →
      (if (s.counts[i]?.any fun n => s.threshold ≤ nextCall n) ∧ s.service.table.phase i = .notCompiled
        then (s.service.ensure i).2 else s.service) = sv →
      Scheduled n threshold { s with service := sv, counts := s.counts.modify i countUp } := by
    intro sv hrunning hsv
    refine h.call (.notify i) hrunning fun t w hw hservice hcounts => ?_
    obtain ⟨w', halone, hrest, hservice', hcounts'⟩ := hw.alone_notify (t := t) (i := i) s.threshold
    rw [hservice, hcounts, hsv] at hservice'
    exact ⟨w', halone, hrest, hservice', hcounts ▸ hcounts'⟩
  unfold Session.notify
  cases hn : s.counts[i]? with
  | none => exact h
  | some k =>
    have hset : s.counts.set i (countUp k) = s.counts.modify i countUp := by
      simp [List.modify_eq_set_getElem?, hn]
    simp only [hset]
    split
    next hreached =>
      refine settle compiler (hcall _ (Service.running_ensure ..) (if_pos ?_))
      simpa [hn] using hreached
    next hreached =>
      refine hcall _ rfl (if_neg ?_)
      simpa [hn] using hreached

/-- Whether jobs are kept from ending is up to the schedule. -/
theorem release (h : Scheduled n threshold s) : Scheduled n threshold (s.release compiler) := by
  obtain ⟨σ, jobs, hσ, h⟩ := h
  refine settle compiler ⟨σ, jobs, hσ, ?_⟩
  exact ⟨h.rest, h.service, h.counts, h.threshold, h.running, h.busy, h.idle, h.nodup⟩

end Scheduled

/-- Before anything happens. -/
theorem scheduled_new (n threshold workers : Nat) (held : Bool) :
    Scheduled n threshold (Session.new n threshold workers held : Session α) := by
  have hrest : (System.new n threshold : System α).world.Rest := by
    refine ⟨rfl, rfl, rfl, fun i => ?_⟩
    rw [show (System.new n threshold : System α).world.service.table.job? i = none from
      Table.job?_new n i]
    rfl
  refine ⟨[], [], by simp [Schedule.Smooth], hrest, rfl, rfl, rfl, rfl, by simp, ?_, List.nodup_nil⟩
  exact fun _ _ => rfl

end System

/-! ### Sessions -/

namespace Session

/-- What happens in a session. -/
inductive Turn where
  | call (c : Call)
  | release
  deriving DecidableEq, Repr

def turn (compiler : Compiler α) (s : Session α) : Turn → Session α
  | .call (.ensure i) => (s.ensure compiler i).2
  | .call (.compileNow i) => (s.compileNow compiler i).2
  | .call (.phase _) | .call (.artifact _) => s
  | .call (.notify i) => s.notify compiler i
  | .call .close => s.close
  | .release => s.release compiler

/-- **Every session is a schedule** of its callers, its jobs and whoever closes it. -/
theorem exists_schedule (compiler : Compiler α) (n threshold workers : Nat) (held : Bool)
    (turns : List Turn) :
    let s := turns.foldl (turn compiler) (Session.new n threshold workers held)
    ∃ σ : Schedule α, σ.Smooth ∧ ((System.new n threshold).run σ).world.service = s.service ∧
      ((System.new n threshold).run σ).world.counts = s.counts := by
  have hturn : ∀ (s : Session α) (x : Turn), System.Scheduled n threshold s →
      System.Scheduled n threshold (s.turn compiler x) := by
    intro s x h
    cases x with
    | call c =>
      cases c with
      | ensure i | compileNow i => exact h.ensure compiler i
      | phase | artifact => exact h
      | notify i => exact h.notify compiler i
      | close => exact h.close
    | release => exact h.release compiler
  have hrun : ∀ s : Session α, System.Scheduled n threshold s →
      System.Scheduled n threshold (turns.foldl (turn compiler) s) := by
    induction turns with
    | nil => exact fun s h => h
    | cons x turns ih => exact fun s h => ih _ (hturn s x h)
  obtain ⟨σ, jobs, hσ, hmirrors⟩ := hrun _ (System.scheduled_new n threshold workers held)
  exact ⟨σ, hσ, hmirrors.service, hmirrors.counts⟩

end Session

end StackMachine.Lifecycle
