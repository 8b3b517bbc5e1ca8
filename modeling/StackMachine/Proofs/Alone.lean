/-
# A thread alone

A thread that nobody interrupts does in one go what the service does in one
operation. So the operations of a service are what callers, jobs and whoever closes
do when they come one after the other.

* `World.Alone`: a thread takes actions, and nobody else does;
* `World.Rest`: nobody is at work;
* `Rest.alone_ensure`, `Rest.alone_runJob`, `Rest.alone_conclude`, `Rest.alone_close`,
  `Rest.alone_notify`: each script is its operation, and leaves the world at rest.
-/
import Mathlib.Logic.Relation
import StackMachine.Proofs.Duties

namespace StackMachine.Lifecycle

variable {α : Type}

/-! ### A thread alone -/

namespace World

variable {w w' : World α} {t i : Nat} {c c' next : Script α} {z : World α × Script α}

/-- Thread `t` acts, and nobody else does. -/
def Alone (t : Nat) : World α × Script α → World α × Script α → Prop :=
  Relation.ReflTransGen fun x y => x.1.act t x.2 = some y

namespace Alone

theorem refl (x : World α × Script α) : Alone t x x := Relation.ReflTransGen.refl

theorem trans {x y : World α × Script α} (h : Alone t x y) (h' : Alone t y z) : Alone t x z :=
  Relation.ReflTransGen.trans h h'

theorem step (h : w.act t c = some (w', c')) (hz : Alone t (w', c') z) : Alone t (w, c) z :=
  Relation.ReflTransGen.head h hz

theorem phase {f : Phase → Script α} {p : Phase} (hp : w.service.table.phase i = p)
    (hz : Alone t (w, f p) z) : Alone t (w, .phase i f) z :=
  .step (by rw [act, hp]) hz

theorem move {f : Phase → Script α} {p source target : Phase} (hp : w.service.table.phase i = p)
    (hz : Alone t (w.update i (Slot.move · source target), f p) z) :
    Alone t (w, .move i source target f) z :=
  .step (by rw [act, hp]) hz

theorem setArtifact {f : Bool → Script α} {a : α} {b : Bool} (hb : (w.artifact? i).isNone = b)
    (hz : Alone t (w.update i (Slot.setArtifact · a), f b) z) :
    Alone t (w, .setArtifact i a f) z :=
  .step (by rw [act, hb]) hz

theorem submit (hpool : w.pool = true)
    (hz : Alone t
      ({ w with service := { w.service with queue := w.service.queue ++ [i] } }, next) z) :
    Alone t (w, .submit i next) z :=
  .step (by rw [act, World.submit, if_pos hpool]) hz

theorem setClosed {f : Bool → Script α} {b : Bool} (hb : w.service.closed = b)
    (hz : Alone t ({ w with service := { w.service with closed := true } }, f b) z) :
    Alone t (w, .setClosed f) z :=
  .step (by rw [act, hb]) hz

theorem tally {f : Option Nat → Script α} {n : Option Nat} (hn : w.counts[i]?.map nextCall = n)
    (hz : Alone t (w.tally i, f n) z) : Alone t (w, .tally i f) z :=
  .step (by rw [act, hn]) hz

theorem isClosed {f : Bool → Script α} {b : Bool} (hb : w.service.closed = b)
    (hz : Alone t (w, f b) z) : Alone t (w, .isClosed f) z :=
  .step (by rw [act, hb]) hz

end Alone

end World

/-! ### Jobs -/

theorem Table.fail_eq (t : Table α) (i : Nat) :
    t.fail i = (decide (t.phase i = .compiling), t.update i (Slot.move · .compiling .failed)) := by
  unfold Table.fail
  cases hs : t[i]? with
  | none => simp [Table.phase, hs]
  | some s => simp [Table.phase, hs]

namespace World

variable {w : World α} {t i : Nat} {next : Script α}

theorem update_congr {f g : Slot α → Slot α}
    (h : ∀ s, w.service.table[i]? = some s → f s = g s) : w.update i f = w.update i g := by
  rw [update, Table.update_congr h, update]

/-- With nobody asleep, to decide a job is to change its slot. -/
theorem resolve_eq_update {j : Nat} {status : JobStatus} (hcell : w.cells i = some j)
    (hsleepers : w.sleepers = []) :
    w.resolve ⟨i, j⟩ status = w.update i (Slot.resolve · status) := by
  unfold resolve
  split
  next =>
    rw [hsleepers]
    cases w
    subst hsleepers
    rfl
  next hnot =>
    -- the job is decided already, and so the slot stays as it is
    refine (update_eq_self fun s hs => ?_).symm
    have hne : s.job ≠ some .pending := fun hj => hnot ⟨hcell, by simp [Table.job?, hs, hj]⟩
    unfold Slot.resolve
    split
    · contradiction
    · rfl

/-- Decide the job of a function, if it has one. -/
theorem alone_decide {status : JobStatus} {f : Option Handle → Script α} (hnone : f none = next)
    (hsome : ∀ h, f (some h) = .resolve h status next) (hsleepers : w.sleepers = [])
    (hcell : (w.cells i).isSome = (w.service.table.job? i).isSome) :
    Alone t (w, .job i f) (w.update i (Slot.resolve · status), next) := by
  cases hc : w.cells i with
  | none =>
    have hjob : w.service.table.job? i = none := by simpa [hc] using hcell.symm
    have hsame : w.update i (Slot.resolve · status) = w := by
      refine update_eq_self fun s hs => ?_
      have hnojob : s.job = none := by simpa [Table.job?, hs] using hjob
      simp [Slot.resolve, hnojob]
    rw [hsame]
    exact .step (by simp [act, hc, hnone]) (.refl _)
  | some j =>
    have hfind : w.act t (.job i f) = some (w, .resolve ⟨i, j⟩ status next) := by
      simp [act, hc, hsome]
    rw [← resolve_eq_update hc hsleepers]
    exact .step hfind (.step rfl (.refl _))

theorem phase_of_slot {s : Slot α} (hs : w.service.table[i]? = some s) :
    w.service.table.phase i = s.phase := by
  simp [Table.phase, hs]

theorem slot_update {s : Slot α} (hs : w.service.table[i]? = some s) (f : Slot α → Slot α) :
    (w.update i f).service.table[i]? = some (f s) := by
  rw [show (w.update i f).service.table = w.service.table.update i f from rfl,
    Table.getElem?_update, if_pos rfl, hs, Option.map_some]

/-- Tell the holders of handles that the job has ended, if it has. -/
theorem alone_finish (hsleepers : w.sleepers = [])
    (hcell : (w.cells i).isSome = (w.service.table.job? i).isSome) :
    Alone t (w, Script.finish i next)
      ({ w with service := { w.service with table := w.service.table.finish i } }, next) := by
  refine .phase rfl ?_
  change Alone t (w, if (w.service.table.phase i).isFinal then _ else next) (w.update i _, next)
  by_cases hfinal : (w.service.table.phase i).isFinal
  · rw [if_pos hfinal, update_congr (g := (Slot.resolve · (.finished (w.service.table.phase i))))]
    · exact alone_decide rfl (fun _ => rfl) hsleepers hcell
    · intro s hs
      rw [← phase_of_slot hs, if_pos hfinal]
  · rw [if_neg hfinal, update_eq_self]
    · exact .refl _
    · intro s hs
      rw [← phase_of_slot hs, if_neg hfinal]

/-- Publish an artifact. -/
theorem alone_publish {a : α} :
    Alone t (w, Script.publish i a next)
      ({ w with service := w.service.publish i (.ok a) }, next) := by
  cases hs : w.service.table[i]? with
  | none =>
    have hphase : w.service.table.phase i = .notCompiled := by simp [Table.phase, hs]
    have hpublish : w.service.publish i (.ok a) = w.service := by
      simp [Service.publish, Table.publish, hs]
    rw [hpublish]
    exact .phase hphase (.refl _)
  | some s =>
    have hart : (w.artifact? i).isNone = s.artifact.isNone := by simp [artifact?, hs]
    by_cases hp : s.phase = .compiling
    · refine .phase ((phase_of_slot hs).trans hp) ?_
      cases ha : s.artifact with
      | none =>
        have hpublish : { w with service := w.service.publish i (.ok a) } =
            ((w.update i (Slot.setArtifact · a)).update i
              (Slot.move · .compiling .ready)).tell (.succeeded i) := by
          simp only [Service.publish, Table.publish, hs, hp, ha]
          rfl
        refine .setArtifact (b := true) (by simp [hart, ha]) (.move (p := .compiling) ?_ ?_)
        · exact (phase_of_slot (slot_update hs _)).trans hp
        · rw [hpublish]
          exact .step rfl (.refl _)
      | some b =>
        have hpublish : w.service.publish i (.ok a) = w.service := by
          simp [Service.publish, Table.publish, hs, hp, ha]
        refine .setArtifact (b := false) (by simp [hart, ha]) ?_
        rw [hpublish, update_eq_self]
        · exact .refl _
        · intro s' hs'
          cases hs.symm.trans hs'
          rw [Slot.setArtifact, ha, Option.getD_some, ← ha]
    · have hpublish : w.service.publish i (.ok a) = w.service := by
        simp [Service.publish, Table.publish, hs, hp]
      rw [hpublish]
      refine .phase (phase_of_slot hs) ?_
      rw [if_neg hp]
      exact .refl _

/-- Record a failure. -/
theorem alone_fail {e : CompileError} :
    Alone t (w, Script.fail i e next)
      ({ w with service := w.service.publish i (.error e) }, next) := by
  refine .move rfl ?_
  by_cases hp : w.service.table.phase i = .compiling
  · have hpublish : { w with service := w.service.publish i (.error e) } =
        (w.update i (Slot.move · .compiling .failed)).tell (.failed i e) := by
      simp only [Service.publish, Table.fail_eq, hp]
      rfl
    rw [if_pos hp, hpublish]
    exact .step rfl (.refl _)
  · have hpublish : { w with service := w.service.publish i (.error e) } =
        w.update i (Slot.move · .compiling .failed) := by
      simp only [Service.publish, Table.fail_eq, hp]
      rfl
    rw [if_neg hp, hpublish]
    exact .refl _

end World

/-! Jobs stay open. -/

namespace Table

theorem isSome_job_update {t : Table α} {f : Slot α → Slot α}
    (hf : ∀ s, (f s).job.isSome = s.job.isSome) (i j : Nat) :
    ((t.update i f).job? j).isSome = (t.job? j).isSome := by
  rw [job?, Table.getElem?_update]
  split
  next h =>
    subst h
    cases hs : t[j]? with
    | none => simp [job?, hs]
    | some s => simpa [job?, hs] using hf s
  next => rfl

theorem isSome_resolve (s : Slot α) (status : JobStatus) :
    (s.resolve status).job.isSome = s.job.isSome := by
  unfold Slot.resolve
  split
  next h => simp [h]
  next => rfl

theorem isSome_move (s : Slot α) (p q : Phase) : (s.move p q).job.isSome = s.job.isSome := by
  unfold Slot.move
  split
  next => rfl
  next => rfl

theorem isSome_job_finish (t : Table α) (i j : Nat) :
    ((t.finish i).job? j).isSome = (t.job? j).isSome := by
  refine isSome_job_update (fun s => ?_) i j
  split
  next => exact isSome_resolve ..
  next => rfl

theorem isSome_job_publish (t : Table α) (i j : Nat) (a : α) :
    ((t.publish i a).2.job? j).isSome = (t.job? j).isSome := by
  unfold publish
  split
  next => rfl
  next =>
    split
    next =>
      refine (isSome_job_update (isSome_move · ..) i j).trans ?_
      exact isSome_job_update (f := (Slot.setArtifact · a)) (fun _ => rfl) i j
    next => rfl

end Table

namespace Service

theorem closed_publish (s : Service α) (i : Nat) (r : Except CompileError α) :
    (s.publish i r).closed = s.closed := by
  unfold publish
  split
  next => split <;> rfl
  next => split <;> rfl

theorem isSome_job_publish (s : Service α) (i j : Nat) (r : Except CompileError α) :
    ((s.publish i r).table.job? j).isSome = (s.table.job? j).isSome := by
  cases r with
  | ok a =>
    have htable : (s.publish i (.ok a)).table = (s.table.publish i a).2 := by
      rcases hp : s.table.publish i a with ⟨_ | _, t⟩ <;> simp [publish, hp, tell]
    rw [htable]
    exact Table.isSome_job_publish ..
  | error e =>
    have htable : (s.publish i (.error e)).table = (s.table.fail i).2 := by
      rcases hp : s.table.fail i with ⟨_ | _, t⟩ <;> simp [publish, hp, tell]
    rw [htable]
    exact Table.isSome_job_update (Table.isSome_move · ..) i j

variable (compiler : Compiler α) (s : Service α) (i : Nat)

theorem endJob_of_closed (h : s.closed = true) :
    s.endJob compiler i = { s with running := s.running.erase i } :=
  if_pos h

theorem endJob_of_open (h : s.closed = false) :
    s.endJob compiler i =
      let s' := publish { s with running := s.running.erase i } i (compiler i)
      { s' with table := s'.table.finish i } :=
  if_neg (by simp [h])

theorem closed_endJob : (s.endJob compiler i).closed = s.closed := by
  cases h : s.closed with
  | true => rw [endJob_of_closed compiler s i h, h]
  | false =>
    rw [endJob_of_open compiler s i h]
    exact (closed_publish ..).trans h

theorem isSome_job_endJob (j : Nat) :
    ((s.endJob compiler i).table.job? j).isSome = (s.table.job? j).isSome := by
  cases h : s.closed with
  | true => rw [endJob_of_closed compiler s i h]
  | false =>
    rw [endJob_of_open compiler s i h]
    exact (Table.isSome_job_finish ..).trans (isSome_job_publish ..)

theorem running_publish (r : Except CompileError α) : (s.publish i r).running = s.running := by
  unfold publish
  split
  next => split <;> rfl
  next => split <;> rfl

theorem running_endJob : (s.endJob compiler i).running = s.running.erase i := by
  cases h : s.closed with
  | true => rw [endJob_of_closed compiler s i h]
  | false =>
    rw [endJob_of_open compiler s i h]
    exact running_publish ..

theorem running_ensure : (s.ensure i).2.running = s.running := by
  unfold ensure
  split
  next => rfl
  next => split <;> rfl

theorem running_close : s.close.running = s.running := by
  unfold close
  split <;> rfl

/-- What comes of asking an open service. -/
theorem ensure_of_slot {s : Service α} {i : Nat} {x : Slot α} (hclosed : s.closed = false)
    (hx : s.table[i]? = some x) :
    s.ensure i =
      (decide (x.phase = .notCompiled ∨ x.phase = .compiling),
        { s with
          table := (s.table.update i Slot.openJob).update i (Slot.move · .notCompiled .compiling)
          queue := if x.phase = .notCompiled then s.queue ++ [i] else s.queue }) := by
  have hmove : x.phase ≠ .notCompiled →
      (s.table.update i Slot.openJob).update i (Slot.move · .notCompiled .compiling) =
        s.table.update i Slot.openJob := by
    intro hp
    refine Table.update_eq_self fun y hy => if_neg ?_
    rw [Table.getElem?_update, if_pos rfl, hx] at hy
    cases hy
    exact hp
  cases hp : x.phase with
  | notCompiled => simp [ensure, hclosed, Table.start, hx, hp]
  | compiling | ready | failed =>
    rw [hmove (by simp [hp])]
    simp [ensure, hclosed, Table.start, hx, hp]

end Service

/-! ### Operations -/

namespace World

variable {w : World α} {t i : Nat} {next : Script α} {z : World α × Script α}

/-- Nobody is at work: the gate is free and nobody sleeps. The pool takes jobs while
the service is open, and exactly the functions that have a job have a cell. -/
structure Rest (w : World α) : Prop where
  gate : w.gate = {}
  sleepers : w.sleepers = []
  pool : w.pool = !w.service.closed
  cells : ∀ i, (w.cells i).isSome = (w.service.table.job? i).isSome

theorem Rest.gate_inside (h : w.Rest) (t : Nat) : (w.gate.enter t).leave t = {} := by
  simp [h.gate, Gate.enter, Gate.leave]

/-- Inside the gate, something is done to the service. -/
theorem Rest.inside (h : w.Rest) (t : Nat) {s : Service α} (hclosed : s.closed = w.service.closed)
    (hjobs : ∀ i, (s.table.job? i).isSome = (w.service.table.job? i).isSome) :
    ({ w with service := s, gate := (w.gate.enter t).leave t } : World α).Rest where
  gate := h.gate_inside t
  sleepers := h.sleepers
  pool := h.pool.trans (congrArg (!·) hclosed.symm)
  cells i := (h.cells i).trans (hjobs i).symm

theorem Rest.cells_openJob (h : w.Rest) {s : Slot α} (hs : w.service.table[i]? = some s) (j : Nat) :
    ((w.openJob i).cells j).isSome =
      (((w.service.table.update i Slot.openJob).update i
        (Slot.move · .notCompiled .compiling)).job? j).isSome := by
  rw [Table.isSome_job_update (Table.isSome_move · ..) i j]
  by_cases hj : j = i
  · subst hj
    simp [openJob, Table.job?, Table.getElem?_update, hs, Slot.openJob]
  · simpa [openJob, Table.job?, Table.getElem?_update, hj] using h.cells j

theorem Alone.enterGate (h : w.Rest) (hz : Alone t ({ w with gate := w.gate.enter t }, next) z) :
    Alone t (w, .enterGate next) z :=
  .step (if_pos (by rw [h.gate])) hz

/-- A job ends. -/
theorem Rest.alone_conclude (hw : w.Rest) (compiler : Compiler α) :
    ∃ w', Alone t (w.compiled i, Script.conclude i (compiler i)) (w', .done) ∧ w'.Rest ∧
      w'.service = w.service.endJob compiler i ∧ w'.counts = w.counts := by
  have hrest : (w.compiled i).Rest := ⟨hw.gate, hw.sleepers, hw.pool, hw.cells⟩
  refine ⟨_, .enterGate hrest ?_, hrest.inside t (Service.closed_endJob compiler w.service i)
    (Service.isSome_job_endJob compiler w.service i), rfl, rfl⟩
  cases hclosed : w.service.closed with
  | true =>
    rw [Service.endJob_of_closed compiler _ i hclosed]
    exact .isClosed hclosed (.step rfl (.refl _))
  | false =>
    rw [Service.endJob_of_open compiler _ i hclosed]
    have hcell := (hw.cells i).trans
      (Service.isSome_job_publish (w.compiled i).service i i (compiler i)).symm
    refine .isClosed hclosed ?_
    cases hr : compiler i with
    | ok a =>
      refine alone_publish.trans ((alone_finish ?_ ?_).trans (.step rfl (.refl _)))
      · exact hw.sleepers
      · exact hr ▸ hcell
    | error e =>
      refine alone_fail.trans ((alone_finish ?_ ?_).trans (.step rfl (.refl _)))
      · exact hw.sleepers
      · exact hr ▸ hcell

/-- The first job in the queue begins. -/
theorem Rest.alone_runJob (hw : w.Rest) {queue : List Nat} (hqueue : w.service.queue = i :: queue) :
    ∃ w', Alone t (w.unqueue i, Script.runJob i)
        (w', if w.service.closed then .done else .compile i (Script.conclude i)) ∧
      w'.Rest ∧ w'.service = w.service.beginJob ∧ w'.counts = w.counts := by
  have hunqueue : (w.unqueue i).service = { w.service with queue := queue } := by
    simp [unqueue, hqueue]
  cases hclosed : w.service.closed with
  | true =>
    refine ⟨w.unqueue i, .isClosed hclosed (.refl _),
      ⟨hw.gate, hw.sleepers, hw.pool, hw.cells⟩, ?_, rfl⟩
    simp [Service.beginJob, hqueue, hclosed, hunqueue]
  | false =>
    refine ⟨_, .isClosed hclosed (.step rfl (.step rfl (.refl _))),
      ⟨hw.gate, hw.sleepers, hw.pool, hw.cells⟩, ?_, rfl⟩
    simp [Service.beginJob, hqueue, hclosed, hunqueue, beginRun, tell, Service.tell]

/-- The answer to a request is given, and the gate is left. -/
theorem alone_reply {handle : Option Handle} {f : Option Handle → Script α} :
    Alone t (w, Script.reply i handle f)
      ({ w with answers := w.answers ++ [.asked i handle], gate := w.gate.leave t }, f handle) :=
  .step rfl (.step rfl (.refl _))

/-- Somebody asks for a compilation. -/
theorem Rest.alone_ensure (hw : w.Rest) (f : Option Handle → Script α) :
    ∃ w' handle, Alone t (w, Script.ensure i f) (w', f handle) ∧ w'.Rest ∧
      w'.service = (w.service.ensure i).2 ∧ handle.isSome = (w.service.ensure i).1 ∧
      w'.counts = w.counts := by
  cases hclosed : w.service.closed with
  | true =>
    have hensure : w.service.ensure i = (false, w.service) := if_pos hclosed
    rw [hensure]
    exact ⟨_, none, .enterGate hw (.isClosed hclosed alone_reply),
      ⟨hw.gate_inside t, hw.sleepers, hw.pool, hw.cells⟩, rfl, rfl, rfl⟩
  | false =>
    cases hs : w.service.table[i]? with
    | none =>
      have hstart : w.service.table.start i = (.resolved .failed, w.service.table) := by
        simp [Table.start, hs]
      have hensure : w.service.ensure i = (false, w.service) := by
        rw [Service.ensure, if_neg (by simp [hclosed]), hstart]
      rw [hensure]
      refine ⟨_, none, .enterGate hw (.isClosed hclosed (.step (if_neg ?_) alone_reply)),
        ⟨hw.gate_inside t, hw.sleepers, hw.pool, hw.cells⟩, rfl, rfl, rfl⟩
      exact Nat.not_lt.mpr (List.getElem?_eq_none_iff.mp hs)
    | some s =>
      rw [Service.ensure_of_slot hclosed hs]
      have hopened := hw.cells_openJob hs
      have hphase : (w.update i Slot.openJob).service.table.phase i = s.phase :=
        phase_of_slot (s := s.openJob) (slot_update hs _)
      have hi : i < w.service.table.length := (List.getElem?_eq_some_iff.mp hs).1
      cases hp : s.phase with
      | notCompiled =>
        have hpool : w.pool = true := hw.pool.trans (by rw [hclosed]; rfl)
        exact ⟨_, some _, .enterGate hw (.isClosed hclosed (.step (if_pos hi)
          (.move (hphase.trans hp) (.submit hpool alone_reply)))),
          ⟨hw.gate_inside t, hw.sleepers, hw.pool, hopened⟩, rfl, rfl, rfl⟩
      | compiling =>
        exact ⟨_, some _, .enterGate hw (.isClosed hclosed (.step (if_pos hi)
          (.move (hphase.trans hp) alone_reply))),
          ⟨hw.gate_inside t, hw.sleepers, hw.pool, hopened⟩, rfl, rfl, rfl⟩
      | ready | failed =>
        exact ⟨_, none, .enterGate hw (.isClosed hclosed (.step (if_pos hi)
          (.move (hphase.trans hp) alone_reply))),
          ⟨hw.gate_inside t, hw.sleepers, hw.pool, hopened⟩, rfl, rfl, rfl⟩

end World

/-! ### Closing -/

/-- What closing does to a slot. -/
def Slot.cancel (s : Slot α) : Slot α := if Table.inProgress s then s.resolve .cancelled else s

namespace Table

theorem isSome_cancel (s : Slot α) : s.cancel.job.isSome = s.job.isSome := by
  unfold Slot.cancel
  split
  next => exact isSome_resolve ..
  next => rfl

/-- What closing has done when it has visited `left` functions, from `k` on. -/
def swept (t : Table α) (k left : Nat) : Table α :=
  t.mapIdx fun j s => if k ≤ j ∧ j < k + left then s.cancel else s

theorem getElem?_swept (t : Table α) (k left j : Nat) :
    (t.swept k left)[j]? = t[j]?.map fun s => if k ≤ j ∧ j < k + left then s.cancel else s :=
  List.getElem?_mapIdx

theorem swept_zero (t : Table α) (k : Nat) : t.swept k 0 = t := by
  apply List.ext_getElem?
  intro j
  have hj : ¬ (k ≤ j ∧ j < k + 0) := by omega
  rw [getElem?_swept]
  simp only [if_neg hj, Option.map_id']

theorem swept_update (t : Table α) (k left : Nat) :
    (t.update k Slot.cancel).swept (k + 1) left = t.swept k (left + 1) := by
  apply List.ext_getElem?
  intro j
  rw [getElem?_swept, getElem?_swept, getElem?_update]
  by_cases hj : j = k
  · subst hj
    have hout : ¬ (j + 1 ≤ j ∧ j < j + 1 + left) := by omega
    have hin : j ≤ j ∧ j < j + (left + 1) := by omega
    simp only [if_pos hin, if_neg hout, if_true, Option.map_map, Function.comp_def]
  · have hiff : (k + 1 ≤ j ∧ j < k + 1 + left) ↔ (k ≤ j ∧ j < k + (left + 1)) := by omega
    simp only [if_neg hj, hiff]

theorem swept_all (t : Table α) : t.swept 0 t.length = t.cancel.2 := by
  apply List.ext_getElem?
  intro j
  rw [getElem?_swept, show t.cancel.2 = t.map Slot.cancel from rfl, List.getElem?_map]
  cases hs : t[j]? with
  | none => rfl
  | some s =>
    have hj : 0 ≤ j ∧ j < 0 + t.length := by
      have := (List.getElem?_eq_some_iff.mp hs).1
      omega
    rw [Option.map_some, Option.map_some, if_pos hj]

theorem isSome_job_cancel (t : Table α) (i : Nat) :
    (t.cancel.2.job? i).isSome = (t.job? i).isSome := by
  rw [show t.cancel.2 = t.map Slot.cancel from rfl]
  cases hs : t[i]? with
  | none => simp [job?, hs]
  | some s => simp [job?, hs, isSome_cancel]

end Table

namespace World

variable {w : World α} {t i : Nat} {next : Script α}

/-- One function is visited. -/
theorem alone_visit {left k : Nat} (hsleepers : w.sleepers = [])
    (hcell : (w.cells k).isSome = (w.service.table.job? k).isSome) :
    Alone t (w, Script.sweep (left + 1) k next)
      (w.update k Slot.cancel, Script.sweep left (k + 1) next) := by
  refine .phase rfl ?_
  by_cases hp : w.service.table.phase k = .compiling
  · rw [if_pos hp, update_congr (g := (Slot.resolve · .cancelled))]
    · exact alone_decide rfl (fun _ => rfl) hsleepers hcell
    · intro s hs
      have hphase : s.phase = .compiling := (phase_of_slot hs).symm.trans hp
      cases hjob : s.job with
      | none => simp [Slot.cancel, Table.inProgress, hjob, Slot.resolve]
      | some status => simp [Slot.cancel, Table.inProgress, hjob, hphase]
  · rw [if_neg hp, update_eq_self]
    · exact .refl _
    · intro s hs
      have hphase : s.phase ≠ .compiling := (phase_of_slot hs) ▸ hp
      simp [Slot.cancel, Table.inProgress, hphase]

/-- The functions from `k` on are visited one after the other. -/
theorem alone_sweep {left k : Nat} (hsleepers : w.sleepers = [])
    (hcells : ∀ i, (w.cells i).isSome = (w.service.table.job? i).isSome) :
    Alone t (w, Script.sweep left k next)
      ({ w with service := { w.service with table := w.service.table.swept k left } }, next) := by
  induction left generalizing w k with
  | zero =>
    rw [Table.swept_zero]
    exact .refl _
  | succ left ih =>
    have hvisit : Alone t (w, Script.sweep (left + 1) k next)
        (w.update k Slot.cancel, Script.sweep left (k + 1) next) :=
      alone_visit hsleepers (hcells k)
    have hnext := ih (w := w.update k Slot.cancel) (k := k + 1) hsleepers fun i =>
      (hcells i).trans (Table.isSome_job_update Table.isSome_cancel k i).symm
    rw [← Table.swept_update]
    exact hvisit.trans hnext

/-- Somebody closes the service. -/
theorem Rest.alone_close (hw : w.Rest) :
    ∃ w', Alone t (w, Script.close w.service.table.length) (w', .done) ∧ w'.Rest ∧
      w'.service = w.service.close ∧ w'.counts = w.counts := by
  cases hclosed : w.service.closed with
  | true =>
    have hsame : { w.service with closed := true } = w.service := by rw [← hclosed]
    have hclose : w.service.close = w.service := if_pos hclosed
    have hpool : w.pool = !true := hclosed ▸ hw.pool
    rw [hclose]
    exact ⟨_, .setClosed hclosed (.step rfl (.refl _)),
      ⟨hw.gate, hw.sleepers, hpool, hw.cells⟩, hsame, rfl⟩
  | false =>
    have hclose : w.service.close =
        { w.service with closed := true, table := w.service.table.cancel.2 } :=
      if_neg (by simp [hclosed])
    have hlock : w.gate.writer = none ∧ w.gate.readers = [] := by simp [hw.gate]
    rw [hclose, ← Table.swept_all]
    refine ⟨_, .setClosed hclosed (.step rfl (.step (if_pos hlock) ((alone_sweep ?_ ?_).trans
      (.step rfl (.step rfl (.refl _)))))), ⟨?_, hw.sleepers, rfl, fun i => ?_⟩, rfl, rfl⟩
    · exact hw.sleepers
    · exact hw.cells
    · simp [hw.gate, Gate.lock, Gate.unlock]
    · refine (hw.cells i).trans ((Table.isSome_job_cancel w.service.table i).symm.trans ?_)
      rw [← Table.swept_all]

/-- Somebody counts a call. -/
theorem Rest.alone_notify (hw : w.Rest) (threshold : Nat) :
    ∃ w', Alone t (w, Script.notify threshold i) (w', .done) ∧ w'.Rest ∧
      w'.service = (if (w.counts[i]?.any fun n => threshold ≤ nextCall n) ∧
        w.service.table.phase i = .notCompiled then (w.service.ensure i).2 else w.service) ∧
      w'.counts = w.counts.modify i countUp := by
  have hrest : (w.tally i).Rest := ⟨hw.gate, hw.sleepers, hw.pool, hw.cells⟩
  have hback : ∀ w : World α, Alone t (w, .answer (.notified i) .done)
      ({ w with answers := w.answers ++ [.notified i] }, .done) := fun _ => .step rfl (.refl _)
  have hquiet : ∀ {w : World α}, w.Rest →
      ({ w with answers := w.answers ++ [.notified i] } : World α).Rest :=
    fun h => ⟨h.gate, h.sleepers, h.pool, h.cells⟩
  cases hn : w.counts[i]? with
  | none =>
    refine ⟨_, .tally (n := none) (by simp [hn]) (hback _), hquiet hrest, ?_, rfl⟩
    simp [tally]
  | some n =>
    by_cases hcalls : threshold ≤ nextCall n
    · by_cases hp : w.service.table.phase i = .notCompiled
      · obtain ⟨w', _, hensure, hrest', hservice, -, hcounts⟩ :=
          hrest.alone_ensure (t := t) (i := i) fun _ => .answer (.notified i) .done
        refine ⟨_, .tally (n := some (nextCall n)) (by simp [hn]) ?_, hquiet hrest', ?_, hcounts⟩
        · change Alone t (w.tally i, if threshold ≤ nextCall n then _ else _) _
          rw [if_pos hcalls]
          exact .phase hp (hensure.trans (hback w'))
        · rw [if_pos ⟨by simp [hcalls], hp⟩]
          exact hservice
      · refine ⟨_, .tally (n := some (nextCall n)) (by simp [hn]) ?_, hquiet hrest, ?_, rfl⟩
        · change Alone t (w.tally i, if threshold ≤ nextCall n then _ else _) _
          rw [if_pos hcalls]
          refine .phase rfl ?_
          change Alone t (w.tally i, if w.service.table.phase i = .notCompiled then _ else _) _
          rw [if_neg hp]
          exact hback _
        · simp [tally, hp]
    · refine ⟨_, .tally (n := some (nextCall n)) (by simp [hn]) ?_, hquiet hrest, ?_, rfl⟩
      · change Alone t (w.tally i, if threshold ≤ nextCall n then _ else _) _
        rw [if_neg hcalls]
        exact hback _
      · simp [tally, hcalls]

end World

end StackMachine.Lifecycle
