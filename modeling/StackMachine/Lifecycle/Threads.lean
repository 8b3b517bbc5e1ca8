/-
# Threads

Callers, jobs and whoever closes the service are at work at the same time. Each
of them is a thread that follows a script: a sequence of atomic actions on what
all of them share, where the answer to an action decides how the script goes on.
A schedule says which thread takes its next action; between two actions of one
thread any number of actions of others may come.

* `World`: what the threads share: the service, the gate that keeps closing and
  publishing apart, who sleeps, and what has been answered so far;
* `World.act`: one atomic action;
* `Script.ensure`, `Script.compileNow`, `Script.job`, `Script.close`: what callers,
  jobs and whoever closes do;
* `System.step`, `System.run`: one move of a schedule, and a whole schedule.

A schedule may also have the pool drop a job that has not begun, wake a sleeper
for no reason, and let whoever is told of an event crash. A move that cannot be
made changes nothing, so every list of moves is a schedule.
-/
import StackMachine.Lifecycle.Service

namespace StackMachine.Lifecycle

/-- A handle on a job. -/
structure Handle where
  func : Nat
  /-- Which job it is: every job that is made has its own number. -/
  job : Nat
  deriving DecidableEq, Repr

/-- What a call has told its caller. -/
inductive Answer (α : Type) where
  | asked (func : Nat) (handle : Option Handle)
  | phase (func : Nat) (phase : Phase)
  /-- The artifact that was found, and the phase that was seen before. -/
  | artifact (func : Nat) (seen : Phase) (found : Option α)
  | notified (func : Nat)
  /-- `first`: this call has closed the service, it was open before. -/
  | closed (first : Bool)
  deriving DecidableEq, Repr

/-- Held by any number of readers, or by one writer. -/
structure Gate where
  readers : List Nat := []
  writer : Option Nat := none
  deriving DecidableEq, Repr

namespace Gate

def enter (g : Gate) (t : Nat) : Gate := { g with readers := t :: g.readers }

def leave (g : Gate) (t : Nat) : Gate := { g with readers := g.readers.filter (· ≠ t) }

def lock (g : Gate) (t : Nat) : Gate := { g with writer := some t }

def unlock (g : Gate) : Gate := { g with writer := none }

end Gate

/-! ### Scripts -/

/-- What a thread has still to do: an action, and how it goes on from there. -/
inductive Script (α : Type) where
  | done
  /-- Take the gate as a reader, once no writer has it. -/
  | enterGate (next : Script α)
  | leaveGate (next : Script α)
  /-- Take the gate as the writer, once nobody has it. -/
  | lockGate (next : Script α)
  | unlockGate (next : Script α)
  | isClosed (next : Bool → Script α)
  /-- Close the service; tells whether it was closed. -/
  | setClosed (next : Bool → Script α)
  /-- From now on the pool takes no jobs. -/
  | stopPool (next : Script α)
  /-- Open the job of a function, or find it open. -/
  | openJob (i : Nat) (next : Option Handle → Script α)
  | job (i : Nat) (next : Option Handle → Script α)
  | phase (i : Nat) (next : Phase → Script α)
  /-- Move a function from one phase to another; tells the phase it was in. -/
  | move (i : Nat) (source target : Phase) (next : Phase → Script α)
  | artifact (i : Nat) (next : Option α → Script α)
  /-- Set the artifact; tells whether it was not set. -/
  | setArtifact (i : Nat) (a : α) (next : Bool → Script α)
  /-- Decide a job, unless it is decided, and wake those who sleep on it. -/
  | resolve (h : Handle) (status : JobStatus) (next : Script α)
  /-- Sleep until a job is decided. -/
  | wait (h : Handle) (next : JobStatus → Script α)
  /-- Hand a job to the pool. -/
  | submit (i : Nat) (next : Script α)
  | tell (e : Event) (next : Script α)
  /-- A run of the compiler begins. -/
  | beginRun (i : Nat) (next : Script α)
  /-- Go on with what the compiler gives. -/
  | compile (i : Nat) (next : Except CompileError α → Script α)
  /-- Count a call; tells which one it is. -/
  | tally (i : Nat) (next : Option Nat → Script α)
  | answer (a : Answer α) (next : Script α)

namespace Script

variable {α : Type}

def isDone : Script α → Bool
  | done => true
  | _ => false

/-- The job the next action waits for. -/
def awaited? : Script α → Option Handle
  | wait h _ => some h
  | _ => none

theorem eq_done {c : Script α} (h : c.isDone) : c = .done := by
  cases c with
  | done => rfl
  | _ => cases h

theorem eq_wait {c : Script α} {h : Handle} (hc : c.awaited? = some h) :
    ∃ next, c = .wait h next := by
  cases c with
  | wait x next => exact ⟨next, by rw [Option.some.inj hc]⟩
  | _ => cases hc

/-- Answer a request for a compilation. The answer is fixed before the gate is left. -/
def reply (i : Nat) (handle : Option Handle) (next : Option Handle → Script α) : Script α :=
  .answer (.asked i handle) <| .leaveGate <| next handle

/-- Ask for a compilation. -/
def ensure (i : Nat) (next : Option Handle → Script α) : Script α :=
  .enterGate <| .isClosed fun closed =>
    if closed then reply i none next
    else .openJob i fun
      | none => reply i none next
      | some h => .move i .notCompiled .compiling fun found =>
        if found = .notCompiled then .submit i <| reply i (some h) next
        else if found = .compiling then reply i (some h) next
        else reply i none next

/-- Ask for a compilation and wait for it. -/
def compileNow (i : Nat) : Script α :=
  let look := .phase i fun p => .answer (.phase i p) .done
  ensure i fun
    | none => look
    | some h => .wait h fun
      | .finished p => .answer (.phase i p) .done
      | _ => look

/-- Read the artifact of a function, if it is published. -/
def readArtifact (i : Nat) : Script α :=
  .phase i fun p =>
    if p = .ready then .artifact i fun a => .answer (.artifact i p a) .done
    else .answer (.artifact i p none) .done

/-- Count a call; one that reaches the threshold asks for a compilation. -/
def notify (threshold i : Nat) : Script α :=
  let back := .answer (.notified i) .done
  .tally i fun
    | none => back
    | some calls =>
      if threshold ≤ calls then
        .phase i fun p => if p = .notCompiled then ensure i fun _ => back else back
      else back

/-- Publish an artifact. -/
def publish (i : Nat) (a : α) (next : Script α) : Script α :=
  .phase i fun p =>
    if p = .compiling then
      .setArtifact i a fun fresh =>
        if fresh then
          .move i .compiling .ready fun found =>
            if found = .compiling then .tell (.succeeded i) next else next
        else next
    else next

/-- Record a failure. -/
def fail (i : Nat) (e : CompileError) (next : Script α) : Script α :=
  .move i .compiling .failed fun found =>
    if found = .compiling then .tell (.failed i e) next else next

/-- Tell the holders of handles that a job has ended. -/
def finish (i : Nat) (next : Script α) : Script α :=
  .phase i fun p =>
    if p.isFinal then
      .job i fun
        | none => next
        | some h => .resolve h (.finished p) next
    else next

/-- What becomes of what the compiler gives. -/
def conclude (i : Nat) (result : Except CompileError α) : Script α :=
  .enterGate <| .isClosed fun closed =>
    if closed then .leaveGate .done
    else
      match result with
      | .ok a => publish i a <| finish i <| .leaveGate .done
      | .error e => fail i e <| finish i <| .leaveGate .done

/-- A job. -/
def runJob (i : Nat) : Script α :=
  .isClosed fun closed =>
    if closed then .done
    else .tell (.started i) <| .beginRun i <| .compile i <| conclude i

/-- Cancel the jobs in progress of `left` functions, from `k` on. -/
def sweep : (left k : Nat) → Script α → Script α
  | 0, _, next => next
  | left + 1, k, next =>
    .phase k fun p =>
      if p = .compiling then
        .job k fun
          | none => sweep left (k + 1) next
          | some h => .resolve h .cancelled <| sweep left (k + 1) next
      else sweep left (k + 1) next

/-- Close a service for `n` functions. -/
def close (n : Nat) : Script α :=
  .setClosed fun closed =>
    if closed then .answer (.closed false) .done
    else .stopPool <| .lockGate <| sweep n 0 <| .unlockGate <| .answer (.closed true) .done

end Script

/-- What can be asked of a service. -/
inductive Call where
  | ensure (i : Nat)
  | compileNow (i : Nat)
  | phase (i : Nat)
  | artifact (i : Nat)
  | notify (i : Nat)
  | close
  deriving DecidableEq, Repr

/-- What a caller does, with `n` functions. -/
def Call.script {α : Type} (n threshold : Nat) : Call → Script α
  | ensure i => Script.ensure i fun _ => .done
  | compileNow i => Script.compileNow i
  | phase i => .phase i fun p => .answer (.phase i p) .done
  | artifact i => Script.readArtifact i
  | notify i => Script.notify threshold i
  | close => Script.close n

/-! ### Actions -/

/-- What the threads share. -/
structure World (α : Type) where
  service : Service α
  /-- The job of every function that has one. -/
  cells : Nat → Option Nat := fun _ => none
  /-- The number of the next job. -/
  made : Nat := 0
  /-- Whether the pool takes jobs. -/
  pool : Bool := true
  gate : Gate := {}
  /-- Who sleeps, and until which job is decided. -/
  sleepers : List (Nat × Handle) := []
  /-- Counted calls of every function. -/
  counts : List Nat := []
  /-- The function of every run of the compiler that has begun. -/
  begun : List Nat := []
  answers : List (Answer α) := []

namespace World

variable {α : Type}

/-- Change the slot of one function. -/
def update (w : World α) (i : Nat) (f : Slot α → Slot α) : World α :=
  { w with service := { w.service with table := w.service.table.update i f } }

/-- What is in a function's artifact cell, published or not. -/
def artifact? (w : World α) (i : Nat) : Option α := w.service.table[i]?.bind Slot.artifact

/-- The status a handle tells. A job that is in no cell is never decided. -/
def status (w : World α) (h : Handle) : JobStatus :=
  if w.cells h.func = some h.job then (w.service.table.job? h.func).getD .pending else .pending

def asleep (w : World α) (t : Nat) : Bool := w.sleepers.any (·.1 = t)

def sleep (w : World α) (t : Nat) : Option Handle → World α
  | none => w
  | some h => { w with sleepers := (t, h) :: w.sleepers }

def wake (w : World α) (t : Nat) : World α :=
  { w with sleepers := w.sleepers.filter (·.1 ≠ t) }

def openJob (w : World α) (i : Nat) : World α :=
  { w.update i Slot.openJob with
    cells := fun j => if j = i then some ((w.cells i).getD w.made) else w.cells j
    made := if w.cells i = none then w.made + 1 else w.made }

def resolve (w : World α) (h : Handle) (status : JobStatus) : World α :=
  if w.cells h.func = some h.job ∧ w.service.table.job? h.func = some .pending then
    { w.update h.func (Slot.resolve · status) with sleepers := w.sleepers.filter (·.2 ≠ h) }
  else w

def submit (w : World α) (i : Nat) : World α :=
  if w.pool then { w with service := { w.service with queue := w.service.queue ++ [i] } } else w

/-- A job leaves the queue. -/
def unqueue (w : World α) (i : Nat) : World α :=
  { w with service := { w.service with queue := w.service.queue.erase i } }

def tell (w : World α) (e : Event) : World α := { w with service := w.service.tell e }

def beginRun (w : World α) (i : Nat) : World α :=
  { w with
    service := { w.service with running := w.service.running ++ [i], runs := w.service.runs + 1 }
    begun := w.begun ++ [i] }

/-- The compiler has come back. -/
def compiled (w : World α) (i : Nat) : World α :=
  { w with service := { w.service with running := w.service.running.erase i } }

def tally (w : World α) (i : Nat) : World α :=
  { w with counts := w.counts.modify i countUp }

/-- One action of thread `t`: the world after it, and how the script goes on.
None while the thread has to wait. -/
def act (t : Nat) (w : World α) : Script α → Option (World α × Script α)
  | .done => none
  | .enterGate next =>
    if w.gate.writer = none then some ({ w with gate := w.gate.enter t }, next) else none
  | .leaveGate next => some ({ w with gate := w.gate.leave t }, next)
  | .lockGate next =>
    if w.gate.writer = none ∧ w.gate.readers = [] then
      some ({ w with gate := w.gate.lock t }, next)
    else none
  | .unlockGate next => some ({ w with gate := w.gate.unlock }, next)
  | .isClosed next => some (w, next w.service.closed)
  | .setClosed next =>
    some ({ w with service := { w.service with closed := true } }, next w.service.closed)
  | .stopPool next => some ({ w with pool := false }, next)
  | .openJob i next =>
    if i < w.service.table.length then
      some (w.openJob i, next (some ⟨i, (w.cells i).getD w.made⟩))
    else some (w, next none)
  | .job i next => some (w, next ((w.cells i).map (Handle.mk i)))
  | .phase i next => some (w, next (w.service.table.phase i))
  | .move i source target next =>
    some (w.update i (Slot.move · source target), next (w.service.table.phase i))
  | .artifact i next => some (w, next (w.artifact? i))
  | .setArtifact i a next => some (w.update i (Slot.setArtifact · a), next (w.artifact? i).isNone)
  | .resolve h status next => some (w.resolve h status, next)
  | .wait h next => if w.status h = .pending then none else some (w, next (w.status h))
  | .submit i next => some (w.submit i, next)
  | .tell e next => some (w.tell e, next)
  | .beginRun i next => some (w.beginRun i, next)
  | .compile _ _ => none
  | .tally i next => some (w.tally i, next (w.counts[i]?.map nextCall))
  | .answer a next => some ({ w with answers := w.answers ++ [a] }, next)

end World

/-! ### Schedules -/

/-- What a schedule can have a thread do. -/
inductive Move (α : Type) where
  /-- Begin a call. -/
  | call (c : Call)
  /-- Begin a job from the queue. -/
  | job (i : Nat)
  /-- The pool drops a job from the queue. -/
  | drop (i : Nat)
  /-- Take the next action, or fall asleep. -/
  | go
  /-- The compiler comes back with a result; if it has crashed, that is the result. -/
  | compiled (result : Except CompileError α)
  /-- Wake up for no reason. -/
  | wake
  /-- Whoever is told of an event crashes, and the thread with it. -/
  | crash

abbrev Schedule (α : Type) := List (Nat × Move α)

/-- No thread crashes. -/
def Schedule.Smooth {α : Type} (σ : Schedule α) : Prop := ∀ m ∈ σ, m.2 ≠ .crash

/-- All threads, and what they share. -/
structure System (α : Type) where
  world : World α
  scripts : Nat → Script α := fun _ => .done
  /-- Calls before a function is compiled. -/
  threshold : Nat

namespace System

variable {α : Type}

/-- A service for `n` functions, open and unused. -/
def new (n threshold : Nat) : System α where
  world := { service := Service.new n, counts := List.replicate n 0 }
  threshold := max threshold 1

/-- Thread `t` goes on with another script, in a changed world. -/
def follow (s : System α) (t : Nat) (w : World α) (c : Script α) : System α :=
  { s with world := w, scripts := fun u => if u = t then c else s.scripts u }

section Follow

variable (s : System α) {t u : Nat} (w w' : World α) (c c' : Script α)

@[simp] theorem world_follow : (s.follow t w c).world = w := rfl

@[simp] theorem scripts_follow_self : (s.follow t w c).scripts t = c := if_pos rfl

theorem scripts_follow_of_ne (h : u ≠ t) : (s.follow t w c).scripts u = s.scripts u := if_neg h

/-- A thread that goes on as before. -/
theorem follow_scripts (t : Nat) : s.follow t w (s.scripts t) = { s with world := w } := by
  have hscripts : (fun u => if u = t then s.scripts t else s.scripts u) = s.scripts := by
    funext u
    split
    next hu => rw [hu]
    next => rfl
  rw [follow, hscripts]

@[simp] theorem follow_follow (t : Nat) :
    (s.follow t w c).follow t w' c' = s.follow t w' c' := by
  have hscripts : (fun u => if u = t then c' else (s.follow t w c).scripts u) =
      fun u => if u = t then c' else s.scripts u := by
    funext u
    split
    next => rfl
    next hu => exact s.scripts_follow_of_ne w c hu
  rw [follow, hscripts]
  rfl

end Follow

/-- The next action of thread `t`. -/
def go (s : System α) (t : Nat) : System α :=
  match s.world.act t (s.scripts t) with
  | some (w, c) => s.follow t w c
  | none => { s with world := s.world.sleep t (s.scripts t).awaited? }

/-- The compiler comes back to thread `t`. -/
def comeBack (s : System α) (t : Nat) (result : Except CompileError α) : System α :=
  match s.scripts t with
  | .compile i next => s.follow t (s.world.compiled i) (next result)
  | _ => s

/-- Thread `t` crashes while it tells an event. The gate is left. -/
def crash (s : System α) (t : Nat) : System α :=
  match s.scripts t with
  | .tell e _ =>
    let w := s.world.tell e
    s.follow t { w with gate := w.gate.leave t } .done
  | _ => s

def step (s : System α) (t : Nat) : Move α → System α
  | .call c =>
    if (s.scripts t).isDone then
      s.follow t s.world (c.script s.world.service.table.length s.threshold)
    else s
  | .job i =>
    if (s.scripts t).isDone ∧ i ∈ s.world.service.queue then
      s.follow t (s.world.unqueue i) (Script.runJob i)
    else s
  | .drop i => { s with world := s.world.unqueue i }
  | .go => if s.world.asleep t then s else s.go t
  | .compiled r => s.comeBack t r
  | .wake => { s with world := s.world.wake t }
  | .crash => s.crash t

def run (s : System α) (σ : Schedule α) : System α := σ.foldl (fun s m => s.step m.1 m.2) s

end System

end StackMachine.Lifecycle
