/-
# Duties

What a thread may do to a function depends on what it has done before: the one
that has taken a function runs its job, and nobody else touches it. The duties
of a thread say what it answers for: how it holds the gate, and which function
is its own and how far that has come. There are only a few effects that a move
may have, each under its own duties, and all that is said about schedules is
said about effects.

* `Stage`: the stations in the life of a function, and `Stage.Next` the ways
  between them;
* `View`: what effects are about: the life of every function by itself;
* `Effect`: what a move can do to the view and to the duties of its thread;
* `Effect.follows`, `Effect.phase_next`: what no effect undoes, and how far it goes.

That scripts have no other effects is in `StackMachine.Proofs.Obedience`.
-/
import Mathlib.Logic.Function.Basic
import StackMachine.Lifecycle.Threads

namespace StackMachine.Lifecycle

variable {α : Type}

/-! ### The life of a function -/

/-- From one phase to the next. -/
inductive Phase.Next : Phase → Phase → Prop
  | take : Next .notCompiled .compiling
  | publish : Next .compiling .ready
  | fail : Next .compiling .failed

/-- The first phase comes no later than the second. -/
def Phase.Before (p q : Phase) : Prop :=
  p = q ∨ p = .notCompiled ∨ (p = .compiling ∧ q.isFinal = true)

instance (p q : Phase) : Decidable (p.Before q) := inferInstanceAs (Decidable (_ ∨ _))

theorem Phase.Before.refl (p : Phase) : p.Before p := Or.inl rfl

theorem Phase.Before.trans {p q r : Phase} (h : p.Before q) (h' : q.Before r) : p.Before r := by
  revert p q r
  intro p q r
  cases p <;> cases q <;> cases r <;> decide

theorem Phase.Next.before {p q : Phase} (h : p.Next q) : p.Before q := by
  cases h <;> decide

/-- A final phase is the last. -/
theorem Phase.Before.eq_of_final {p q : Phase} (h : p.Before q) (hp : p.isFinal = true) :
    q = p := by
  revert h hp
  cases p <;> cases q <;> decide

/-- What has happened to one function. -/
structure Life (α : Type) where
  phase : Phase
  artifact : Option α
  events : List Event
  /-- Runs of the compiler that have begun. -/
  runs : Nat

/-- How far a function has come. -/
inductive Stage (α : Type) where
  | fresh
  /-- Some caller is to have it compiled. -/
  | taken
  | told
  | begun
  | stored (a : α)
  | published (a : α)
  | succeeded (a : α)
  | failed
  | reported (e : CompileError)

namespace Stage

def phase : Stage α → Phase
  | fresh => .notCompiled
  | taken | told | begun | stored _ => .compiling
  | published _ | succeeded _ => .ready
  | failed | reported _ => .failed

def artifact : Stage α → Option α
  | stored a | published a | succeeded a => some a
  | _ => none

def events (i : Nat) : Stage α → List Event
  | fresh | taken => []
  | succeeded _ => [.started i, .succeeded i]
  | reported e => [.started i, .failed i e]
  | _ => [.started i]

def runs : Stage α → Nat
  | fresh | taken | told => 0
  | _ => 1

/-- The life of function `i` up to here. -/
def life (i : Nat) (st : Stage α) : Life α := ⟨st.phase, st.artifact, st.events i, st.runs⟩

theorem runs_le_one (st : Stage α) : st.runs ≤ 1 := by
  cases st <;> simp [runs]

/-- Events come in order, and at most one of them ends it. -/
theorem events_prefix (st : Stage α) (i : Nat) :
    ∃ ending, (ending = .succeeded i ∨ ∃ e, ending = .failed i e) ∧
      st.events i <+: [.started i, ending] := by
  cases st with
  | reported e => exact ⟨.failed i e, Or.inr ⟨e, rfl⟩, List.prefix_rfl⟩
  | succeeded a => exact ⟨.succeeded i, Or.inl rfl, List.prefix_rfl⟩
  | fresh | taken => exact ⟨.succeeded i, Or.inl rfl, List.nil_prefix⟩
  | told | begun | stored | published | failed =>
    exact ⟨.succeeded i, Or.inl rfl, [.succeeded i], rfl⟩

theorem phase_of_succeeded {st : Stage α} {i : Nat} (h : .succeeded i ∈ st.events i) :
    st.phase = .ready := by
  cases st with
  | succeeded a => rfl
  | _ => simp [events] at h

theorem phase_of_failed {st : Stage α} {i : Nat} {e : CompileError}
    (h : .failed i e ∈ st.events i) :
    st.phase = .failed := by
  cases st with
  | reported e => rfl
  | _ => simp [events] at h

/-- The ways of a function that is being compiled. -/
inductive Next : Stage α → Stage α → Prop
  | start : Next taken told
  | compile : Next told begun
  | store (a : α) : Next begun (stored a)
  | publish (a : α) : Next (stored a) (published a)
  | succeed (a : α) : Next (published a) (succeeded a)
  | fail : Next begun failed
  | report (e : CompileError) : Next failed (reported e)

theorem Next.phase {st st' : Stage α} (h : Next st st') :
    st'.phase = st.phase ∨ st.phase.Next st'.phase := by
  cases h with
  | publish a => exact Or.inr .publish
  | fail => exact Or.inr .fail
  | _ => exact Or.inl rfl

theorem Next.artifact {st st' : Stage α} (h : Next st st') {a : α} (ha : st.artifact = some a) :
    st'.artifact = some a := by
  cases h with
  | publish | succeed => exact ha
  | start | compile | store | fail | report => cases ha

end Stage

/-! ### Tables -/

namespace Table

theorem getElem?_update (t : Table α) (i j : Nat) (f : Slot α → Slot α) :
    (t.update i f)[j]? = if j = i then t[j]?.map f else t[j]? := by
  simp only [Table.update, List.getElem?_modify]
  by_cases h : j = i
  · subst h
    simp
  · have h' : i ≠ j := fun e => h e.symm
    simp [h, h']

/-- Changes that agree on the slot of a function. -/
theorem update_congr {t : Table α} {i : Nat} {f g : Slot α → Slot α}
    (h : ∀ s, t[i]? = some s → f s = g s) : t.update i f = t.update i g := by
  apply List.ext_getElem?
  intro j
  rw [getElem?_update, getElem?_update]
  split
  next hj =>
    subst hj
    cases hs : t[j]? with
    | none => rfl
    | some s => rw [Option.map_some, Option.map_some, h s hs]
  next => rfl

/-- A slot that stays as it is. -/
theorem update_eq_self {t : Table α} {i : Nat} {f : Slot α → Slot α}
    (h : ∀ s, t[i]? = some s → f s = s) : t.update i f = t :=
  (update_congr (g := id) h).trans (List.modify_id i t)

/-- Two tables with the same phases, artifacts and jobs are the same. -/
theorem eq_of_fields {t t' : Table α} (hsize : t'.length = t.length)
    (hphase : ∀ i, t'.phase i = t.phase i)
    (hart : ∀ i : Nat, t'[i]?.bind Slot.artifact = t[i]?.bind Slot.artifact)
    (hjob : ∀ i, t'.job? i = t.job? i) : t' = t := by
  apply List.ext_getElem?
  intro i
  have hphase := hphase i
  have hart := hart i
  have hjob := hjob i
  by_cases hi : i < t.length
  · have hi' : i < t'.length := hsize ▸ hi
    simp only [Table.phase, Table.job?, List.getElem?_eq_getElem hi, List.getElem?_eq_getElem hi',
      Option.map_some, Option.getD_some, Option.bind_some] at hphase hart hjob
    rw [List.getElem?_eq_getElem hi, List.getElem?_eq_getElem hi']
    congr 1
    cases ht : t[i]
    cases ht' : t'[i]
    simp_all
  · have hi' : ¬ i < t'.length := hsize ▸ hi
    rw [List.getElem?_eq_none (Nat.le_of_not_lt hi), List.getElem?_eq_none (Nat.le_of_not_lt hi')]

theorem slot_new {n i : Nat} {s : Slot α} (hs : (Table.new n : Table α)[i]? = some s) : s = {} :=
  (List.mem_replicate.mp (List.mem_of_getElem? hs)).2

theorem phase_new (n i : Nat) : (Table.new n : Table α).phase i = .notCompiled := by
  cases hs : (Table.new n : Table α)[i]? with
  | none => simp [Table.phase, hs]
  | some s => simp [Table.phase, hs, slot_new hs]

theorem job?_new (n i : Nat) : (Table.new n : Table α).job? i = none := by
  cases hs : (Table.new n : Table α)[i]? with
  | none => simp [Table.job?, hs]
  | some s => simp [Table.job?, hs, slot_new hs]

end Table

/-! ### Views -/

/-- What effects are about. -/
structure View (α : Type) where
  life : Nat → Life α
  job : Nat → Option JobStatus
  cell : Nat → Option Nat
  size : Nat
  queue : List Nat
  closed : Bool
  gate : Gate
  answers : List (Answer α)
  sleepers : List (Nat × Handle)

namespace World

def life (w : World α) (i : Nat) : Life α where
  phase := w.service.table.phase i
  artifact := w.artifact? i
  events := w.service.events.filter fun e => e.func = i
  runs := w.begun.count i

def view (w : World α) : View α where
  life := w.life
  job := w.service.table.job?
  cell := w.cells
  size := w.service.table.length
  queue := w.service.queue
  closed := w.service.closed
  gate := w.gate
  answers := w.answers
  sleepers := w.sleepers

/-! How actions change the view. -/

/-- A slot that stays as it is. -/
theorem update_eq_self {w : World α} {i : Nat} {f : Slot α → Slot α}
    (h : ∀ s, w.service.table[i]? = some s → f s = s) : w.update i f = w := by
  rw [update, Table.update_eq_self h]

theorem life_update {w : World α} {i : Nat} {s : Slot α} (hs : w.service.table[i]? = some s)
    (f : Slot α → Slot α) :
    (w.update i f).life = Function.update w.life i
      { w.life i with phase := (f s).phase, artifact := (f s).artifact } := by
  funext j
  by_cases h : j = i
  · subst h
    simp [life, update, Table.phase, artifact?, Table.getElem?_update, hs]
  · simp [life, update, Table.phase, artifact?, Table.getElem?_update, h]

theorem job?_update {w : World α} {i : Nat} {s : Slot α} (hs : w.service.table[i]? = some s)
    (f : Slot α → Slot α) :
    (w.update i f).service.table.job? = Function.update w.service.table.job? i (f s).job := by
  funext j
  by_cases h : j = i
  · subst h
    simp [update, Table.job?, Table.getElem?_update, hs]
  · simp [update, Table.job?, Table.getElem?_update, h]

theorem view_update {w : World α} {i : Nat} {s : Slot α} (hs : w.service.table[i]? = some s)
    (f : Slot α → Slot α) :
    (w.update i f).view = { w.view with
      life := Function.update w.life i
        { w.life i with phase := (f s).phase, artifact := (f s).artifact }
      job := Function.update w.service.table.job? i (f s).job } := by
  have hsize : (w.update i f).service.table.length = w.service.table.length :=
    List.length_modify ..
  simp only [view, life_update hs, job?_update hs, hsize]
  rfl

theorem view_tell (w : World α) (e : Event) :
    (w.tell e).view = { w.view with
      life := Function.update w.life e.func
        { w.life e.func with events := (w.life e.func).events ++ [e] } } := by
  have hlife : (w.tell e).life = Function.update w.life e.func
      { w.life e.func with events := (w.life e.func).events ++ [e] } := by
    funext j
    by_cases h : j = e.func
    · subst h
      simp [life, tell, Service.tell, artifact?, List.filter_append]
    · have h' : e.func ≠ j := fun x => h x.symm
      simp [life, tell, Service.tell, artifact?, List.filter_append, h, h']
  simp only [view, hlife]
  rfl

theorem view_beginRun (w : World α) (i : Nat) :
    (w.beginRun i).view = { w.view with
      life := Function.update w.life i { w.life i with runs := (w.life i).runs + 1 } } := by
  have hlife : (w.beginRun i).life = Function.update w.life i
      { w.life i with runs := (w.life i).runs + 1 } := by
    funext j
    by_cases h : j = i
    · subst h
      simp [life, beginRun, artifact?]
    · have h' : i ≠ j := fun x => h x.symm
      simp [life, beginRun, artifact?, h, h']
  simp only [view, hlife]
  rfl

theorem slot_of_job {w : World α} {i : Nat} (h : (w.service.table.job? i).isSome) :
    ∃ s, w.service.table[i]? = some s := by
  cases hs : w.service.table[i]? with
  | none => simp [Table.job?, hs] at h
  | some s => exact ⟨s, rfl⟩

theorem view_move {w : World α} {i : Nat} {s : Slot α} {p q : Phase}
    (hs : w.service.table[i]? = some s) (hp : s.phase = p) :
    (w.update i (Slot.move · p q)).view =
      { w.view with life := Function.update w.life i { w.life i with phase := q } } := by
  have hjob : Function.update w.service.table.job? i s.job = w.service.table.job? := by
    have : s.job = w.service.table.job? i := by simp [Table.job?, hs]
    rw [this, Function.update_eq_self]
  have hart : (w.life i).artifact = s.artifact := by simp [life, artifact?, hs]
  rw [view_update hs]
  simp only [Slot.move, if_pos hp, hjob, ← hart]
  rfl

theorem view_setArtifact {w : World α} {i : Nat} {s : Slot α} {a : α}
    (hs : w.service.table[i]? = some s) (ha : s.artifact = none) :
    (w.update i (Slot.setArtifact · a)).view =
      { w.view with life := Function.update w.life i { w.life i with artifact := some a } } := by
  have hjob : Function.update w.service.table.job? i s.job = w.service.table.job? := by
    have : s.job = w.service.table.job? i := by simp [Table.job?, hs]
    rw [this, Function.update_eq_self]
  have hphase : (w.life i).phase = s.phase := by simp [life, Table.phase, hs]
  rw [view_update hs]
  simp only [Slot.setArtifact, ha, Option.getD_none, hjob, ← hphase]
  rfl

end World

/-! ### What lasts -/

/-- Something about the service that stays so. -/
inductive Fact (α : Type) where
  | job (h : Handle)
  | reached (i : Nat) (p : Phase)
  | artifact (i : Nat) (a : α)

def Fact.Holds (v : View α) : Fact α → Prop
  | job h => v.cell h.func = some h.job
  | reached i p => p.Before (v.life i).phase
  | artifact i a => (v.life i).artifact = some a

/-- What an answer says is so. -/
def Answer.Holds (v : View α) : Answer α → Prop
  | asked i handle => ∀ h, handle = some h → h.func = i ∧ v.cell i = some h.job
  | phase i p => p.Before (v.life i).phase
  | artifact i p found => p.Before (v.life i).phase ∧ (found.isSome ↔ p = .ready) ∧
      ∀ a, found = some a → (v.life i).artifact = some a
  | notified _ | closed _ => True

/-- The second view can come after the first. -/
structure View.Follows (v v' : View α) : Prop where
  phase : ∀ i, (v.life i).phase.Before (v'.life i).phase
  artifact : ∀ i a, (v.life i).artifact = some a → (v'.life i).artifact = some a
  cell : ∀ i j, v.cell i = some j → v'.cell i = some j
  job : ∀ i status, v.job i = some status → status ≠ .pending → v'.job i = some status
  closed : v.closed = true → v'.closed = true
  answers : v.answers <+: v'.answers
  size : v'.size = v.size

namespace View.Follows

theorem refl (v : View α) : v.Follows v where
  phase _ := .refl _
  artifact _ _ h := h
  cell _ _ h := h
  job _ _ h _ := h
  closed h := h
  answers := List.prefix_rfl
  size := rfl

theorem trans {v₁ v₂ v₃ : View α} (h : v₁.Follows v₂) (h' : v₂.Follows v₃) : v₁.Follows v₃ where
  phase i := (h.phase i).trans (h'.phase i)
  artifact i a ha := h'.artifact i a (h.artifact i a ha)
  cell i j hj := h'.cell i j (h.cell i j hj)
  job i status hs hp := h'.job i status (h.job i status hs hp) hp
  closed hc := h'.closed (h.closed hc)
  answers := h.answers.trans h'.answers
  size := h'.size.trans h.size

variable {v v' : View α}

theorem fact (h : v.Follows v') {f : Fact α} (hf : f.Holds v) : f.Holds v' := by
  cases f with
  | job a => exact h.cell _ _ hf
  | reached i p => exact hf.trans (h.phase i)
  | artifact i a => exact h.artifact i a hf

theorem answer (h : v.Follows v') {a : Answer α} (ha : a.Holds v) : a.Holds v' := by
  cases a with
  | asked i handle =>
    intro x hx
    obtain ⟨hfunc, hcell⟩ := ha x hx
    exact ⟨hfunc, h.cell _ _ hcell⟩
  | phase i p => exact Phase.Before.trans ha (h.phase i)
  | artifact i p found =>
    obtain ⟨hp, hfound, hart⟩ := ha
    exact ⟨hp.trans (h.phase i), hfound, fun a e => h.artifact i a (hart a e)⟩
  | notified i => trivial
  | closed first => trivial

end View.Follows

/-! ### Effects -/

/-- How a thread holds the gate. -/
inductive Mode where
  | outside
  | entered
  /-- Inside, with the service open. With `owing`, a job has been opened that
  may still be to be taken. -/
  | admitted (owing : Option Nat)
  /-- Inside, with the service closed. -/
  | refused
  /-- Has closed the service, and waits to be the only one inside. -/
  | closing
  /-- The only one inside; the functions below `k` have been visited. -/
  | sweeping (k : Nat)
  /-- The only one inside, and `k` is being compiled. -/
  | cancelling (k : Nat)
  /-- Outside again, and all functions have been visited. -/
  | parting
  deriving DecidableEq

/-- What a thread answers for. -/
structure Duty (α : Type) where
  mode : Mode := .outside
  /-- The function that is its own, and how far that has come. -/
  own : Option (Nat × Stage α) := none

/-- What the threads own after one of them gets another duty. -/
theorem Duty.own_update (duty : Nat → Duty α) (t : Nat) (d : Duty α) :
    (fun u => (Function.update duty t d u).own) =
      Function.update (fun u => (duty u).own) t d.own :=
  funext (Function.apply_update (fun _ => Duty.own) duty t d)

theorem Duty.mode_update (duty : Nat → Duty α) (t : Nat) (d : Duty α) :
    (fun u => (Function.update duty t d u).mode) =
      Function.update (fun u => (duty u).mode) t d.mode :=
  funext (Function.apply_update (fun _ => Duty.mode) duty t d)

/-- What is owned may be given up. -/
def Duty.Light (d : Duty α) : Prop := ∀ i st, d.own = some (i, st) → st.phase.isFinal = false

/-- Decide a job, if it is not decided, and wake those who sleep on it. -/
def View.resolve (v : View α) (i j : Nat) (status : JobStatus) : View α :=
  if v.job i = some .pending then
    { v with
      job := Function.update v.job i (some status)
      sleepers := v.sleepers.filter (·.2 ≠ ⟨i, j⟩) }
  else v

/-- What a move can do to the view and to the duties of thread `t`. -/
inductive Effect (t : Nat) (v : View α) (d : Duty α) : View α → Duty α → Prop
  | quiet : Effect t v d v d
  | report {a : Answer α} (hholds : a.Holds v) (hclosed : a ≠ .closed true)
      (hasked : ∀ i h, a = .asked i (some h) → d.mode = .admitted none) :
      Effect t v d { v with answers := v.answers ++ [a] } d
  | sleep {h : Handle} (hcell : v.cell h.func = some h.job) (hjob : v.job h.func = some .pending) :
      Effect t v d { v with sleepers := (t, h) :: v.sleepers } d
  | wake : Effect t v d { v with sleepers := v.sleepers.filter (·.1 ≠ t) } d
  -- jobs between callers, the queue and those who run them
  | release (hlight : d.Light) : Effect t v d v { d with own := none }
  | submit {i : Nat} (hown : d.own = some (i, .taken)) :
      Effect t v d { v with queue := v.queue ++ [i] } { d with own := none }
  | drop (i : Nat) : Effect t v d { v with queue := v.queue.erase i } d
  | pick {i : Nat} (hqueue : i ∈ v.queue) (hlight : d.Light) :
      Effect t v d { v with queue := v.queue.erase i } { d with own := some (i, .taken) }
  -- the gate
  | enter (hmode : d.mode = .outside) (hgate : v.gate.writer = none) :
      Effect t v d { v with gate := v.gate.enter t } { d with mode := .entered }
  | grant (hmode : d.mode = .entered) (hclosed : v.closed = false) :
      Effect t v d v { d with mode := .admitted none }
  | deny (hmode : d.mode = .entered) (hclosed : v.closed = true) :
      Effect t v d v { d with mode := .refused }
  | leave (hmode : d.mode = .admitted none ∨ d.mode = .refused) (hlight : d.Light) :
      Effect t v d { v with gate := v.gate.leave t } { d with mode := .outside }
  -- closing
  | close (hmode : d.mode = .outside) (hclosed : v.closed = false) :
      Effect t v d { v with closed := true } { d with mode := .closing }
  | lock (hmode : d.mode = .closing) (hwriter : v.gate.writer = none)
      (hreaders : v.gate.readers = []) :
      Effect t v d { v with gate := v.gate.lock t } { d with mode := .sweeping 0 }
  | pass {k : Nat} (hmode : d.mode = .sweeping k) (hphase : (v.life k).phase ≠ .compiling) :
      Effect t v d v { d with mode := .sweeping (k + 1) }
  | find {k : Nat} (hmode : d.mode = .sweeping k) (hphase : (v.life k).phase = .compiling) :
      Effect t v d v { d with mode := .cancelling k }
  | cancel {k j : Nat} (hmode : d.mode = .cancelling k) (hcell : v.cell k = some j) :
      Effect t v d (v.resolve k j .cancelled) { d with mode := .sweeping (k + 1) }
  | unlock (hmode : d.mode = .sweeping v.size) :
      Effect t v d { v with gate := v.gate.unlock } { d with mode := .parting }
  | conclude (hmode : d.mode = .parting) :
      Effect t v d { v with answers := v.answers ++ [.closed true] } { d with mode := .outside }
  -- the life of a function
  | openJob {i j : Nat} (hmode : d.mode = .admitted none) (hown : d.own = none) (hi : i < v.size)
      (hcell : v.cell i = none ∨ v.cell i = some j) :
      Effect t v d
        { v with
          cell := Function.update v.cell i (some j)
          job := Function.update v.job i (some ((v.job i).getD .pending)) }
        { d with mode := .admitted (some i) }
  | take {i : Nat} (hmode : d.mode = .admitted (some i)) (hown : d.own = none)
      (hlife : v.life i = Stage.life i .fresh) (hjob : (v.job i).isSome) :
      Effect t v d { v with life := Function.update v.life i (Stage.life i .taken) }
        ⟨.admitted none, some (i, .taken)⟩
  | yield {i : Nat} (hmode : d.mode = .admitted (some i))
      (hphase : (v.life i).phase ≠ .notCompiled) :
      Effect t v d v { d with mode := .admitted none }
  | advance {i : Nat} {st st' : Stage α} (hown : d.own = some (i, st))
      (hlife : v.life i = st.life i) (hnext : st.Next st')
      (hmode : st'.phase = st.phase ∧ st'.artifact = st.artifact ∨ d.mode = .admitted none) :
      Effect t v d { v with life := Function.update v.life i (st'.life i) }
        { d with own := some (i, st') }
  | settle {i j : Nat} {st : Stage α} (hmode : d.mode = .admitted none)
      (hown : d.own = some (i, st)) (hlife : v.life i = st.life i)
      (hfinal : st.phase.isFinal = true) (hcell : v.cell i = some j) :
      Effect t v d (v.resolve i j (.finished st.phase)) { d with own := none }

namespace View

/-! Deciding a job changes nothing but that, and who sleeps. -/

section

variable (v : View α) (i j : Nat) (status : JobStatus)

@[simp] theorem life_resolve : (v.resolve i j status).life = v.life := by
  unfold resolve
  split <;> rfl

@[simp] theorem cell_resolve : (v.resolve i j status).cell = v.cell := by
  unfold resolve
  split <;> rfl

@[simp] theorem queue_resolve : (v.resolve i j status).queue = v.queue := by
  unfold resolve
  split <;> rfl

@[simp] theorem closed_resolve : (v.resolve i j status).closed = v.closed := by
  unfold resolve
  split <;> rfl

@[simp] theorem gate_resolve : (v.resolve i j status).gate = v.gate := by
  unfold resolve
  split <;> rfl

@[simp] theorem answers_resolve : (v.resolve i j status).answers = v.answers := by
  unfold resolve
  split <;> rfl

end

theorem resolve_follows (v : View α) (i j : Nat) (status : JobStatus) :
    v.Follows (v.resolve i j status) := by
  unfold resolve
  split
  next hjob =>
    refine { View.Follows.refl v with job := ?_ }
    intro k st hst hpending
    have hk : k ≠ i := by
      rintro rfl
      rw [hjob] at hst
      exact hpending (Option.some.inj hst).symm
    exact (Function.update_of_ne hk ..).trans hst
  next => exact .refl v

/-- Changing the life of one function. -/
theorem follows_update {v : View α} {i : Nat} {L : Life α}
    (hphase : (v.life i).phase.Before L.phase)
    (hart : ∀ a, (v.life i).artifact = some a → L.artifact = some a) :
    v.Follows { v with life := Function.update v.life i L } := by
  refine { View.Follows.refl v with phase := ?_, artifact := ?_ }
  · intro k
    by_cases hk : k = i
    · subst hk
      simpa using hphase
    · simpa [hk] using Phase.Before.refl _
  · intro k a ha
    by_cases hk : k = i
    · subst hk
      simpa using hart a ha
    · simpa [hk] using ha

end View

/-- Nothing that lasts is lost. -/
theorem Effect.follows {t : Nat} {v v' : View α} {d d' : Duty α} (h : Effect t v d v' d') :
    v.Follows v' := by
  have hsame := View.Follows.refl v
  cases h with
  | quiet | release | grant | deny | pass | find | yield => exact hsame
  | sleep | wake | submit | drop | pick | enter | leave | lock | unlock => exact { hsame with }
  | report | conclude => exact { hsame with answers := List.prefix_append .. }
  | close => exact { hsame with closed := fun _ => rfl }
  | cancel => exact View.resolve_follows ..
  | settle => exact View.resolve_follows ..
  | @openJob i j hmode hown hi hcell =>
    refine { hsame with cell := ?_, job := ?_ }
    · intro k x hx
      by_cases hk : k = i
      · subst hk
        rcases hcell with hcell | hcell
        · rw [hcell] at hx
          cases hx
        · rw [← hx, hcell]
          exact Function.update_self ..
      · exact (Function.update_of_ne hk ..).trans hx
    · intro k status hk hpending
      by_cases hki : k = i
      · subst hki
        simp [hk]
      · exact (Function.update_of_ne hki ..).trans hk
  | @take i hmode hown hlife hjob =>
    refine View.follows_update ?_ ?_
    · rw [hlife]
      exact Phase.Next.take.before
    · intro a ha
      rw [hlife] at ha
      cases ha
  | @advance i st st' hown hlife hnext hmode =>
    refine View.follows_update ?_ ?_
    · rw [hlife]
      rcases hnext.phase with hp | hp
      · exact Or.inl hp.symm
      · exact hp.before
    · intro a ha
      rw [hlife] at ha
      exact hnext.artifact ha

/-- A function goes from one phase to the next, and not further. -/
theorem Effect.phase_next {t : Nat} {v v' : View α} {d d' : Duty α} (h : Effect t v d v' d')
    (i : Nat) : (v'.life i).phase = (v.life i).phase ∨ (v.life i).phase.Next (v'.life i).phase := by
  cases h with
  | cancel | settle =>
    rw [View.life_resolve]
    exact Or.inl rfl
  | @take k hmode hown hlife hjob =>
    by_cases hk : i = k
    · subst hk
      simp only [Function.update_self, hlife]
      exact Or.inr .take
    · simp [hk]
  | @advance k st st' hown hlife hnext hmode =>
    by_cases hk : i = k
    · subst hk
      simp only [Function.update_self, hlife]
      exact hnext.phase
    · simp [hk]
  | _ => exact Or.inl rfl

end StackMachine.Lifecycle
