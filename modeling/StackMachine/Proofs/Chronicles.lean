/-
# What has happened

A system knows how things stand, not how they came about. A chronicle is a system with
a record of both: which calls were counted, which functions were taken, which jobs came
into the queue of the pool and left it and which notifications came back, in this order,
and what call every thread is at work on. Keeping the record changes nothing
(`Chronicle.system_run`).

* `Deed`: what is recorded;
* `Chronicle.step`, `Chronicle.run`: one move and a whole schedule, with the record;
* `Chronicle.Faithful`: the queue and the answers are what the record makes of them;
  `Chronicle.Faithful.run` says so after every schedule;
* `Script.Minds`: a script that changes nothing but what is known of one function;
* `Chronicle.Minding.step`: a notification changes nothing of another function.
-/
import StackMachine.Proofs.Duties

namespace StackMachine.Lifecycle

variable {α : Type}

/-! ### The record -/

inductive Deed where
  /-- A call of a function is counted. -/
  | counted (i : Nat)
  /-- Somebody takes a function, and so starts its job. -/
  | started (i : Nat)
  /-- The job of a function comes last in the queue. -/
  | submitted (i : Nat)
  /-- A job of a function leaves the queue: it begins, or the pool drops it. -/
  | withdrawn (i : Nat)
  /-- A notification has come back to its caller. -/
  | notified (i : Nat)
  deriving DecidableEq, Repr

def Deed.func : Deed → Nat
  | counted i | started i | submitted i | withdrawn i | notified i => i

/-- The function of an answer to a notification. -/
def Answer.notified? : Answer α → Option Nat
  | notified i => some i
  | _ => none

/-- What the next action of a script does that is recorded. Whether a job is handed over
shows in the queue. -/
def Script.deed? (w : World α) : Script α → Option Deed
  | .tally i _ => if i < w.counts.length then some (.counted i) else none
  | .move i source target _ =>
    if i < w.service.table.length ∧ w.service.table.phase i = .notCompiled ∧
      source = .notCompiled ∧ target ≠ .notCompiled then some (.started i) else none
  | .submit i _ =>
    if (w.submit i).service.queue = w.service.queue ++ [i] then some (.submitted i) else none
  | .answer a _ => a.notified?.map Deed.notified
  | _ => none

namespace System

/-- What a move of thread `t` does that is recorded. -/
def deed? (s : System α) (t : Nat) : Move α → Option Deed
  | .go => if s.world.asleep t then none else (s.scripts t).deed? s.world
  | .job i =>
    if (s.scripts t).isDone ∧ i ∈ s.world.service.queue then some (.withdrawn i) else none
  | .drop i => if i ∈ s.world.service.queue then some (.withdrawn i) else none
  | _ => none

/-- The call that thread `t` is at work on after a move, if it was `now` before. -/
def errand (s : System α) (t : Nat) (now : Option Call) : Move α → Option Call
  | .call c => if (s.scripts t).isDone then some c else now
  | .job i => if (s.scripts t).isDone ∧ i ∈ s.world.service.queue then none else now
  | _ => now

end System

/-- A system and what has happened in it. -/
structure Chronicle (α : Type) where
  system : System α
  /-- What was done, in order. -/
  deeds : List Deed := []
  /-- The call that every thread is at work on, or was at work on last. -/
  errand : Nat → Option Call := fun _ => none

namespace Chronicle

/-- Nothing has happened yet. -/
def new (n threshold : Nat) : Chronicle α := { system := System.new n threshold }

def step (c : Chronicle α) (t : Nat) (m : Move α) : Chronicle α where
  system := c.system.step t m
  deeds := c.deeds ++ (c.system.deed? t m).toList
  errand := Function.update c.errand t (c.system.errand t (c.errand t) m)

def run (c : Chronicle α) (σ : Schedule α) : Chronicle α :=
  σ.foldl (fun c m => c.step m.1 m.2) c

theorem run_concat (c : Chronicle α) (σ : Schedule α) (m : Nat × Move α) :
    c.run (σ ++ [m]) = (c.run σ).step m.1 m.2 := by
  simp [run]

/-- The system of a chronicle is the system. -/
theorem system_run (c : Chronicle α) (σ : Schedule α) : (c.run σ).system = c.system.run σ := by
  induction σ generalizing c with
  | nil => rfl
  | cons m σ ih => exact ih (c.step m.1 m.2)

end Chronicle

/-! ### Moves -/

/-- The functions, their counts and the pool are the same, and the service is open or
closed as before. -/
structure World.Alike (w w' : World α) : Prop where
  table : w'.service.table = w.service.table
  counts : w'.counts = w.counts
  closed : w'.service.closed = w.service.closed
  pool : w'.pool = w.pool

theorem World.Alike.refl (w : World α) : w.Alike w := ⟨rfl, rfl, rfl, rfl⟩

theorem World.alike_unqueue (w : World α) (i : Nat) : w.Alike (w.unqueue i) := ⟨rfl, rfl, rfl, rfl⟩

/-- Nor has anything come into the queue or left it, or been answered. -/
structure World.Still (w w' : World α) : Prop extends w.Alike w' where
  queue : w'.service.queue = w.service.queue
  answers : w'.answers = w.answers

theorem World.Still.refl (w : World α) : w.Still w := ⟨.refl w, rfl, rfl⟩

/-- What a move `m` of thread `t` can come to: the world and the script of the thread
after it, what is recorded, and the call the thread is at work on. -/
inductive Course (s : System α) (t : Nat) (now : Option Call) (m : Move α) :
    World α → Script α → Option Deed → Option Call → Prop
  | stay {w : World α} (hw : s.world.Still w) : Course s t now m w (s.scripts t) none now
  | call {c : Call} (hm : m = .call c) (hdone : s.scripts t = .done) :
      Course s t now m s.world (c.script s.world.service.table.length s.threshold) none (some c)
  | job {i : Nat} (hmem : i ∈ s.world.service.queue) (hdone : s.scripts t = .done) :
      Course s t now m (s.world.unqueue i) (Script.runJob i) (some (.withdrawn i)) none
  | drop {i : Nat} (hmem : i ∈ s.world.service.queue) :
      Course s t now m (s.world.unqueue i) (s.scripts t) (some (.withdrawn i)) now
  | act {w : World α} {c : Script α} (hact : s.world.act t (s.scripts t) = some (w, c)) :
      Course s t now m w c ((s.scripts t).deed? s.world) now
  | compiled {i : Nat} {next : Except CompileError α → Script α} {r : Except CompileError α}
      {w : World α} (hw : s.world.Still w) (hscript : s.scripts t = .compile i next) :
      Course s t now m w (next r) none now
  | crash {e : Event} {next : Script α} {w : World α} (hw : s.world.Still w)
      (hscript : s.scripts t = .tell e next) : Course s t now m w .done none now

/-- A script that has to wait does nothing that is recorded. -/
theorem Script.deed?_of_blocked {t : Nat} {w : World α} {c : Script α} (h : w.act t c = none) :
    c.deed? w = none := by
  cases c with
  | tally | move | submit | answer => cases h
  | _ => rfl

namespace Chronicle

/-- The chronicle after a move of thread `t` that comes to this. -/
def follow (c : Chronicle α) (t : Nat) (w : World α) (script : Script α) (deed : Option Deed)
    (call : Option Call) : Chronicle α where
  system := c.system.follow t w script
  deeds := c.deeds ++ deed.toList
  errand := Function.update c.errand t call

/-- **All that a move can do.** -/
theorem course (c : Chronicle α) (t : Nat) (m : Move α) :
    ∃ w script deed call, Course c.system t (c.errand t) m w script deed call ∧
      c.step t m = c.follow t w script deed call := by
  have hstay : ∀ w, c.system.world.Still w → c.system.step t m = { c.system with world := w } →
      c.system.deed? t m = none → c.system.errand t (c.errand t) m = c.errand t →
      ∃ w script deed call, Course c.system t (c.errand t) m w script deed call ∧
        c.step t m = c.follow t w script deed call := by
    intro w hw hstep hdeed herrand
    refine ⟨w, _, _, _, .stay hw, ?_⟩
    simp [step, follow, hstep, hdeed, herrand, System.follow_scripts]
  cases m with
  | call x =>
    by_cases hdone : (c.system.scripts t).isDone
    · refine ⟨_, _, _, _, .call rfl (Script.eq_done hdone), ?_⟩
      simp [step, follow, System.step, System.deed?, System.errand, hdone]
    · refine hstay _ (.refl _) ?_ rfl ?_
      · simp [System.step, hdone]
      · simp [System.errand, hdone]
  | job i =>
    by_cases hdone : (c.system.scripts t).isDone ∧ i ∈ c.system.world.service.queue
    · refine ⟨_, _, _, _, .job hdone.2 (Script.eq_done hdone.1), ?_⟩
      simp [step, follow, System.step, System.deed?, System.errand, hdone]
    · refine hstay _ (.refl _) ?_ ?_ ?_
      · simp only [System.step, if_neg hdone]
      · simp only [System.deed?, if_neg hdone]
      · simp only [System.errand, if_neg hdone]
  | drop i =>
    by_cases hmem : i ∈ c.system.world.service.queue
    · refine ⟨_, _, _, _, .drop hmem, ?_⟩
      simp [step, follow, System.step, System.deed?, System.errand, hmem, System.follow_scripts]
    · have hqueue := List.erase_of_not_mem hmem
      exact hstay (c.system.world.unqueue i) ⟨World.alike_unqueue _ i, hqueue, rfl⟩ rfl
        (if_neg hmem) rfl
  | wake => exact hstay (c.system.world.wake t) ⟨⟨rfl, rfl, rfl, rfl⟩, rfl, rfl⟩ rfl rfl rfl
  | go =>
    by_cases hasleep : c.system.world.asleep t
    · refine hstay _ (.refl _) ?_ ?_ rfl
      · simp [System.step, hasleep]
      · simp [System.deed?, hasleep]
    · cases hact : c.system.world.act t (c.system.scripts t) with
      | none =>
        refine hstay (c.system.world.sleep t (c.system.scripts t).awaited?) ?_ ?_ ?_ rfl
        · cases (c.system.scripts t).awaited? with
          | none => exact .refl _
          | some x => exact ⟨⟨rfl, rfl, rfl, rfl⟩, rfl, rfl⟩
        · simp [System.step, System.go, hasleep, hact]
        · simp [System.deed?, Script.deed?_of_blocked hact]
      | some p =>
        refine ⟨p.1, p.2, _, _, .act hact, ?_⟩
        simp [step, follow, System.step, System.go, System.deed?, System.errand, hasleep, hact]
  | compiled r =>
    cases hscript : c.system.scripts t with
    | compile i next =>
      refine ⟨_, _, _, _, .compiled (r := r) (w := c.system.world.compiled i)
        ⟨⟨rfl, rfl, rfl, rfl⟩, rfl, rfl⟩ hscript, ?_⟩
      simp [step, follow, System.step, System.comeBack, hscript, System.deed?, System.errand]
    | _ =>
      refine hstay _ (.refl _) ?_ rfl rfl
      simp [System.step, System.comeBack, hscript]
  | crash =>
    cases hscript : c.system.scripts t with
    | tell e next =>
      refine ⟨_, _, _, _, .crash (w := { c.system.world.tell e with
        gate := (c.system.world.tell e).gate.leave t }) ⟨⟨rfl, rfl, rfl, rfl⟩, rfl, rfl⟩
        hscript, ?_⟩
      simp [step, follow, System.step, System.crash, hscript, System.deed?, System.errand]
    | _ =>
      refine hstay _ (.refl _) ?_ rfl rfl
      simp [System.step, System.crash, hscript]

end Chronicle

/-! ### The record and the world -/

theorem World.queue_submit {w : World α} (h : w.pool = true) (i : Nat) :
    (w.submit i).service.queue = w.service.queue ++ [i] := by
  rw [World.submit, if_pos h]

/-- What is recorded of a step is what it does for function `i` to the queue and to the
answers. -/
structure World.Recorded (i : Nat) (w w' : World α) (deed : Option Deed) : Prop where
  queue : w'.service.queue.count i + deed.toList.count (.withdrawn i) =
    w.service.queue.count i + deed.toList.count (.submitted i)
  answers : w'.answers.countP (·.notified? = some i) =
    w.answers.countP (·.notified? = some i) + deed.toList.count (.notified i)

namespace World.Recorded

variable {i t : Nat} {w w' : World α}

theorem of_same {deed : Option Deed} (hqueue : w'.service.queue = w.service.queue)
    (hanswers : w'.answers = w.answers)
    (hdeed : .withdrawn i ∉ deed.toList ∧ .submitted i ∉ deed.toList ∧ .notified i ∉ deed.toList) :
    Recorded i w w' deed := by
  obtain ⟨hwithdrawn, hsubmitted, hnotified⟩ := hdeed
  constructor
  · rw [hqueue, List.count_eq_zero_of_not_mem hwithdrawn, List.count_eq_zero_of_not_mem hsubmitted]
  · rw [hanswers, List.count_eq_zero_of_not_mem hnotified, Nat.add_zero]

theorem still (h : w.Still w') : Recorded i w w' none :=
  of_same h.queue h.answers (by simp)

theorem unqueue {j : Nat} (h : j ∈ w.service.queue) :
    Recorded i w (w.unqueue j) (some (.withdrawn j)) := by
  refine ⟨?_, rfl⟩
  show (w.service.queue.erase j).count i + _ = _
  by_cases hj : j = i
  · subst hj
    have hpos : 0 < w.service.queue.count j := List.count_pos_iff.mpr h
    have herase : (w.service.queue.erase j).count j + 1 = w.service.queue.count j := by
      rw [List.count_erase_self]
      omega
    simpa using herase
  · have hij : i ≠ j := fun he => hj he.symm
    simp [List.count_erase_of_ne hij, hj]

theorem submit {j : Nat} {next : Script α} :
    Recorded i w (w.submit j) ((Script.submit j next).deed? w) := by
  cases hpool : w.pool with
  | true =>
    have hqueue := World.queue_submit hpool j
    rw [Script.deed?, if_pos hqueue]
    refine ⟨?_, ?_⟩
    · rw [hqueue]
      by_cases hj : j = i
      · simp [hj]
      · simp [hj]
    · rw [World.submit, if_pos hpool]
      rfl
  | false =>
    have hsame : w.submit j = w := by
      rw [World.submit, if_neg (by simp [hpool])]
    have hnone : (Script.submit j next).deed? w = none := by
      rw [Script.deed?, hsame]
      simp
    rw [hsame, hnone]
    exact still (.refl w)

theorem answer {a : Answer α} {next : Script α} :
    Recorded i w { w with answers := w.answers ++ [a] } ((Script.answer a next).deed? w) := by
  rw [Script.deed?]
  constructor
  · cases a.notified? <;> simp
  · rw [List.countP_append]
    cases ha : a.notified? with
    | none => simp [ha]
    | some j =>
      by_cases hj : j = i
      · simp [ha, hj]
      · simp [ha, hj]

/-- **What is recorded of an action.** -/
theorem act {c c' : Script α} (hact : w.act t c = some (w', c')) :
    Recorded i w w' (c.deed? w) := by
  cases c with
  | done | compile => cases hact
  | enterGate next | lockGate next =>
    simp only [World.act] at hact
    split at hact
    · cases hact
      exact of_same rfl rfl (by simp [Script.deed?])
    · cases hact
  | wait x next =>
    simp only [World.act] at hact
    split at hact
    · cases hact
    · cases hact
      exact of_same rfl rfl (by simp [Script.deed?])
  | openJob j next =>
    simp only [World.act] at hact
    split at hact
    · cases hact
      exact of_same rfl rfl (by simp [Script.deed?])
    · cases hact
      exact of_same rfl rfl (by simp [Script.deed?])
  | move j source target next | tally j next =>
    cases hact
    refine of_same rfl rfl ?_
    simp only [Script.deed?]
    split <;> simp
  | resolve x status next =>
    cases hact
    refine of_same ?_ ?_ (by simp [Script.deed?])
    · unfold World.resolve
      split <;> rfl
    · unfold World.resolve
      split <;> rfl
  | submit j next =>
    cases hact
    exact submit
  | answer a next =>
    cases hact
    exact answer
  | leaveGate | unlockGate | isClosed | setClosed | stopPool | job | phase | artifact | setArtifact
  | tell | beginRun =>
    cases hact
    exact of_same rfl rfl (by simp [Script.deed?])

end World.Recorded

theorem Course.recorded {s : System α} {t : Nat} {now call : Option Call} {m : Move α} {w : World α}
    {script : Script α} {deed : Option Deed} (h : Course s t now m w script deed call) (i : Nat) :
    s.world.Recorded i w deed := by
  cases h with
  | stay hw | compiled hw hscript | crash hw hscript => exact .still hw
  | call hm hdone => exact .still (.refl _)
  | job hmem hdone => exact .unqueue hmem
  | drop hmem => exact .unqueue hmem
  | act hact => exact .act hact

namespace Chronicle

/-- The queue holds the jobs that were handed over and have not been withdrawn, and the
answers are those that came back. -/
structure Faithful (c : Chronicle α) : Prop where
  queue : ∀ i, c.system.world.service.queue.count i + c.deeds.count (.withdrawn i) =
    c.deeds.count (.submitted i)
  answers : ∀ i, c.system.world.answers.countP (·.notified? = some i) = c.deeds.count (.notified i)

theorem faithful_new (n threshold : Nat) : (new n threshold : Chronicle α).Faithful :=
  ⟨fun _ => rfl, fun _ => rfl⟩

theorem Faithful.step {c : Chronicle α} (h : c.Faithful) (t : Nat) (m : Move α) :
    (c.step t m).Faithful := by
  obtain ⟨w, script, deed, call, hcourse, hstep⟩ := c.course t m
  rw [hstep]
  constructor
  · intro i
    have hbefore := h.queue i
    have hnow := (hcourse.recorded i).queue
    simp only [follow, System.world_follow, List.count_append]
    omega
  · intro i
    simp only [follow, System.world_follow, List.count_append]
    rw [(hcourse.recorded i).answers, h.answers i]

theorem Faithful.run {c : Chronicle α} (h : c.Faithful) (σ : Schedule α) : (c.run σ).Faithful := by
  induction σ generalizing c with
  | nil => exact h
  | cons m σ ih => exact ih (h.step m.1 m.2)

end Chronicle

/-! ### One function at a time -/

/-- Nothing of function `i` is different. -/
structure World.SameAt (i : Nat) (w w' : World α) : Prop where
  slot : w'.service.table[i]? = w.service.table[i]?
  count : w'.counts[i]? = w.counts[i]?

namespace World.SameAt

variable {i j : Nat} {w : World α}

theorem refl (i : Nat) (w : World α) : SameAt i w w := ⟨rfl, rfl⟩

/-- The slot of another function changes. -/
theorem update (h : i ≠ j) (f : Slot α → Slot α) : SameAt i w (w.update j f) := by
  refine ⟨?_, rfl⟩
  rw [World.update, Table.getElem?_update, if_neg h]

theorem resolve {x : Handle} (h : i ≠ x.func) (status : JobStatus) :
    SameAt i w (w.resolve x status) := by
  unfold World.resolve
  split
  · exact ⟨(update h (Slot.resolve · status)).slot, rfl⟩
  · exact .refl i w

theorem submit (i : Nat) : SameAt i w (w.submit j) := by
  unfold World.submit
  split
  · exact ⟨rfl, rfl⟩
  · exact .refl i w

theorem tally (h : i ≠ j) : SameAt i w (w.tally j) := by
  refine ⟨rfl, ?_⟩
  have h' : j ≠ i := fun e => h e.symm
  simp [World.tally, h']

end World.SameAt

/-- Whatever the script does, it changes nothing but what is known of function `j`. -/
def Script.Minds (j : Nat) : Script α → Prop
  | .done => True
  | .enterGate next | .leaveGate next | .lockGate next | .unlockGate next | .stopPool next =>
    next.Minds j
  | .isClosed next | .setClosed next => ∀ b, (next b).Minds j
  | .openJob i next | .job i next =>
    i = j ∧ ∀ h, (∀ x, h = some x → x.func = i) → (next h).Minds j
  | .phase _ next => ∀ p, (next p).Minds j
  | .move i _ _ next => i = j ∧ ∀ p, (next p).Minds j
  | .artifact _ next => ∀ a, (next a).Minds j
  | .setArtifact i _ next => i = j ∧ ∀ b, (next b).Minds j
  | .resolve h _ next => h.func = j ∧ next.Minds j
  | .wait _ next => ∀ status, (next status).Minds j
  | .submit _ next | .tell _ next | .beginRun _ next | .answer _ next => next.Minds j
  | .compile _ next => ∀ r, (next r).Minds j
  | .tally i next => i = j ∧ ∀ calls, (next calls).Minds j

namespace Script.Minds

variable {i j t : Nat} {w w' : World α} {c c' : Script α}

/-- An action of such a script. -/
theorem act (h : c.Minds j) (hact : w.act t c = some (w', c')) :
    c'.Minds j ∧ ∀ i, i ≠ j → w.SameAt i w' := by
  cases c with
  | done | compile => cases hact
  | enterGate next | lockGate next =>
    simp only [World.act] at hact
    split at hact
    · cases hact
      exact ⟨h, fun i _ => ⟨rfl, rfl⟩⟩
    · cases hact
  | openJob k next =>
    obtain ⟨rfl, hnext⟩ := h
    simp only [World.act] at hact
    split at hact
    · cases hact
      refine ⟨hnext _ ?_, fun i hi => ⟨(World.SameAt.update hi Slot.openJob).slot, rfl⟩⟩
      rintro x ⟨⟩
      rfl
    · cases hact
      exact ⟨hnext none (by simp), fun i _ => .refl i w⟩
  | job k next =>
    obtain ⟨rfl, hnext⟩ := h
    cases hact
    refine ⟨hnext _ fun x hx => ?_, fun i _ => .refl i w⟩
    obtain ⟨job, -, rfl⟩ := Option.map_eq_some_iff.mp hx
    rfl
  | wait x next =>
    simp only [World.act] at hact
    split at hact
    · cases hact
    · cases hact
      exact ⟨h _, fun i _ => .refl i w⟩
  | isClosed | setClosed | phase | artifact =>
    cases hact
    exact ⟨h _, fun i _ => ⟨rfl, rfl⟩⟩
  | move k source target next =>
    obtain ⟨rfl, hnext⟩ := h
    cases hact
    exact ⟨hnext _, fun i hi => .update hi _⟩
  | setArtifact k a next =>
    obtain ⟨rfl, hnext⟩ := h
    cases hact
    exact ⟨hnext _, fun i hi => .update hi _⟩
  | resolve x status next =>
    obtain ⟨rfl, hnext⟩ := h
    cases hact
    exact ⟨hnext, fun i hi => .resolve hi status⟩
  | tally k next =>
    obtain ⟨rfl, hnext⟩ := h
    cases hact
    exact ⟨hnext _, fun i hi => .tally hi⟩
  | submit k next =>
    cases hact
    exact ⟨h, fun i _ => .submit i⟩
  | leaveGate | unlockGate | stopPool | tell | beginRun | answer =>
    cases hact
    exact ⟨h, fun i _ => ⟨rfl, rfl⟩⟩

theorem ensure {next : Option Handle → Script α} (h : ∀ handle, (next handle).Minds j) :
    (Script.ensure j next).Minds j := by
  intro closed
  dsimp only
  split
  · exact h none
  · refine ⟨rfl, fun handle _ => ?_⟩
    cases handle with
    | none => exact h none
    | some x =>
      refine ⟨rfl, fun found => ?_⟩
      simp only
      split
      · exact h (some x)
      · split
        · exact h (some x)
        · exact h none

theorem notify (threshold j : Nat) : (Script.notify threshold j : Script α).Minds j := by
  refine ⟨rfl, fun calls => ?_⟩
  cases calls with
  | none => trivial
  | some calls =>
    simp only
    split
    · intro p
      dsimp only
      split
      · exact ensure fun _ => trivial
      · trivial
    · trivial

end Script.Minds

/-! ### Notifications -/

namespace Chronicle

/-- Whoever is at work on a notification minds its function. -/
def Minding (c : Chronicle α) : Prop :=
  ∀ t j, c.errand t = some (.notify j) → (c.system.scripts t).Minds j

theorem minding_new (n threshold : Nat) : (new n threshold : Chronicle α).Minding := by
  intro t j h
  cases h

/-- **A notification changes nothing of another function**, whatever move its thread
makes. -/
theorem Minding.step {c : Chronicle α} (h : c.Minding) (t : Nat) (m : Move α) :
    (c.step t m).Minding ∧ ∀ i j, c.errand t = some (.notify j) → i ≠ j →
      c.system.world.SameAt i (c.step t m).system.world := by
  obtain ⟨w, script, deed, call, hcourse, hstep⟩ := c.course t m
  rw [hstep]
  -- what the thread goes on with, and what it has left as it was
  have hmove : (∀ j, call = some (.notify j) → script.Minds j) ∧
      ∀ i j, c.errand t = some (.notify j) → i ≠ j → c.system.world.SameAt i w := by
    have halike : ∀ {w}, c.system.world.Alike w → ∀ i, c.system.world.SameAt i w :=
      fun hw i => ⟨by rw [hw.table], by rw [hw.counts]⟩
    cases hcourse with
    | stay hw => exact ⟨h t, fun i j _ _ => halike hw.toAlike i⟩
    | @call x hm hdone =>
      refine ⟨fun j hj => ?_, fun i j _ _ => .refl i _⟩
      obtain rfl : x = .notify j := Option.some.inj hj
      exact Script.Minds.notify ..
    | job hmem hdone => exact ⟨by simp, fun i j _ _ => halike (World.alike_unqueue _ _) i⟩
    | drop hmem => exact ⟨h t, fun i j _ _ => halike (World.alike_unqueue _ _) i⟩
    | act hact =>
      exact ⟨fun j hj => ((h t j hj).act hact).1, fun i j hj => ((h t j hj).act hact).2 i⟩
    | compiled hw hscript =>
      refine ⟨fun j hj => ?_, fun i j _ _ => halike hw.toAlike i⟩
      have hminds := h t j hj
      rw [hscript] at hminds
      exact hminds _
    | crash hw hscript => exact ⟨fun _ _ => trivial, fun i j _ _ => halike hw.toAlike i⟩
  refine ⟨fun u j hu => ?_, hmove.2⟩
  by_cases hut : u = t
  · subst hut
    have hcall : call = some (.notify j) := by simpa [follow] using hu
    simpa [follow, System.follow] using hmove.1 j hcall
  · have hold : c.errand u = some (.notify j) := by simpa [follow, hut] using hu
    simpa [follow, System.follow, hut] using h u j hold

theorem Minding.run {c : Chronicle α} (h : c.Minding) (σ : Schedule α) : (c.run σ).Minding := by
  induction σ generalizing c with
  | nil => exact h
  | cons m σ ih => exact ih (h.step m.1 m.2).1

end Chronicle

end StackMachine.Lifecycle
