/-
# Standings

A notification counts a call, looks at the phase of the function and takes it: three
actions, with those of others in between. One function is watched here. What a thread
has still to do for it is its standing, and one action changes the standing of its
thread together with what is known of the function and what is recorded.

* `Script.Plays`: a script that goes on as its standing says;
* `Deal`: what one action may do to the standing, the account and the record;
* `Script.Plays.act`: what an action does is a deal.
-/
import StackMachine.Proofs.Chronicles

namespace StackMachine.Lifecycle

variable {α : Type}

/-! ### Standings -/

/-- How far a thread has come with a notification of the function that is watched. -/
inductive Standing where
  /-- Busy with something else, or with nothing. -/
  | idle
  /-- The call has not been counted yet. -/
  | called
  /-- The call came before the threshold. -/
  | spared
  /-- The call came from the threshold on, and the function may still have to be
  taken. -/
  | bound
  /-- Has taken the function, and has not handed its job over. -/
  | holding
  /-- The call came from the threshold on, and the function is taken. -/
  | served
  deriving DecidableEq

/-- What a thread stands as once it has seen that the function is taken. -/
def Standing.assured : Standing → Standing
  | bound => served
  | st => st

/-- With `n` functions and function `i` watched, which is to be compiled from the call
`T` on, a thread that stands so goes on by this script while the service is open. -/
def Script.Plays (n T i : Nat) : Script α → Standing → Prop
  | .done, st => st = .idle
  | .enterGate next, st | .leaveGate next, st | .resolve _ _ next, st | .beginRun _ next, st =>
    next.Plays n T i st
  | .isClosed next, st => (next false).Plays n T i st
  | .openJob j next, st => ∀ h, (h.isSome = true ↔ j < n) → (next h).Plays n T i st
  | .job _ next, st => ∀ h, (next h).Plays n T i st
  | .phase j next, st =>
    ∀ p, (next p).Plays n T i (if j = i ∧ p ≠ .notCompiled then st.assured else st)
  | .move j source target next, st =>
    target ≠ .notCompiled ∧
    if j = i ∧ source = .notCompiled then
      st = .bound ∧ (next .notCompiled).Plays n T i .holding ∧
      ∀ p, p ≠ .notCompiled → (next p).Plays n T i .served
    else ∀ p, (next p).Plays n T i st
  | .artifact _ next, st => ∀ a, (next a).Plays n T i st
  | .setArtifact _ _ next, st => ∀ b, (next b).Plays n T i st
  | .submit j next, st =>
    if j = i then st = .holding ∧ next.Plays n T i .served else next.Plays n T i st
  | .tell _ next, st => st = .idle ∧ next.Plays n T i .idle
  | .compile _ next, st => ∀ r, (next r).Plays n T i st
  | .tally j next, st =>
    if j = i then
      st = .called ∧ ∀ k, (next (some k)).Plays n T i (if k < T then .spared else .bound)
    else ∀ k, (next k).Plays n T i st
  | .answer a next, st =>
    if a.notified? = some i then (st = .spared ∨ st = .served) ∧ next.Plays n T i .idle
    else next.Plays n T i st
  | .lockGate _, _ | .unlockGate _, _ | .setClosed _, _ | .stopPool _, _ | .wait _ _, _ => False

/-- Neither asks for a compilation, a notification apart, nor closes the service. -/
def Call.passive : Call → Bool
  | phase _ | artifact _ | notify _ => true
  | ensure _ | compileNow _ | close => false

section Scripts

variable {n T i j : Nat}

theorem plays_answer {st : Standing} {a : Answer α} {next : Script α} (ha : a.notified? ≠ some i)
    (h : next.Plays n T i st) : (Script.answer a next).Plays n T i st := by
  rw [Script.Plays, if_neg ha]
  exact h

theorem plays_reply {st : Standing} {handle : Option Handle} {next : Option Handle → Script α}
    (h : (next handle).Plays n T i st) : (Script.reply j handle next).Plays n T i st :=
  plays_answer (by simp [Answer.notified?]) h

/-- Whoever is bound takes the function or finds it taken. -/
theorem plays_ensure {next : Option Handle → Script α} (hi : i < n)
    (h : ∀ handle, (next handle).Plays n T i .served) :
    (Script.ensure i next).Plays n T i .bound := by
  intro handle hhandle
  obtain ⟨x, rfl⟩ := Option.isSome_iff_exists.mp (hhandle.mpr hi)
  refine ⟨by simp, ?_⟩
  rw [if_pos ⟨rfl, rfl⟩]
  refine ⟨rfl, ?_, fun p hp => ?_⟩
  · dsimp only
    rw [if_pos rfl, Script.Plays, if_pos rfl]
    exact ⟨rfl, plays_reply (h _)⟩
  · dsimp only
    rw [if_neg hp]
    split
    · exact plays_reply (h _)
    · exact plays_reply (h _)

theorem plays_ensure_of_ne {next : Option Handle → Script α} (hj : j ≠ i)
    (h : ∀ handle, (next handle).Plays n T i .idle) :
    (Script.ensure j next).Plays n T i .idle := by
  intro handle _
  cases handle with
  | none => exact plays_reply (h _)
  | some x =>
    refine ⟨by simp, ?_⟩
    rw [if_neg fun hboth => hj hboth.1]
    intro p
    dsimp only
    split
    · rw [Script.Plays, if_neg hj]
      exact plays_reply (h _)
    · split
      · exact plays_reply (h _)
      · exact plays_reply (h _)

theorem plays_notify (hi : i < n) : (Script.notify T i : Script α).Plays n T i .called := by
  have hback : ∀ st, st = .spared ∨ st = .served →
      (Script.answer (.notified i) .done : Script α).Plays n T i st := by
    intro st hst
    simpa [Script.Plays, Answer.notified?] using hst
  rw [Script.notify, Script.Plays, if_pos rfl]
  refine ⟨rfl, fun k => ?_⟩
  by_cases hk : k < T
  · rw [if_pos hk]
    simp only [if_neg (Nat.not_le.mpr hk)]
    exact hback _ (Or.inl rfl)
  · rw [if_neg hk]
    simp only [if_pos (Nat.not_lt.mp hk)]
    intro p
    dsimp only
    by_cases hp : p = .notCompiled
    · rw [if_pos hp, if_neg fun hboth => hboth.2 hp]
      exact plays_ensure hi fun _ => hback _ (Or.inr rfl)
    · rw [if_neg hp, if_pos ⟨rfl, hp⟩]
      exact hback _ (Or.inr rfl)

/-- What is done for another function. -/
theorem plays_notify_of_ne (hj : j ≠ i) : (Script.notify T j : Script α).Plays n T i .idle := by
  have hback : (Script.answer (.notified j) .done : Script α).Plays n T i .idle :=
    plays_answer (by simpa [Answer.notified?] using hj) rfl
  rw [Script.notify, Script.Plays, if_neg hj]
  intro k
  cases k with
  | none => exact hback
  | some k =>
    dsimp only
    split
    · intro p
      rw [if_neg fun hboth => hj hboth.1]
      dsimp only
      split
      · exact plays_ensure_of_ne hj fun _ => hback
      · exact hback
    · exact hback

theorem plays_phase {st : Standing} {next : Phase → Script α} (hst : st.assured = st)
    (h : ∀ p, (next p).Plays n T i st) : (Script.phase j next).Plays n T i st := by
  intro p
  rw [hst, ite_self]
  exact h p

theorem plays_move {st : Standing} {source target : Phase} {next : Phase → Script α}
    (hsource : source ≠ .notCompiled) (htarget : target ≠ .notCompiled)
    (h : ∀ p, (next p).Plays n T i st) :
    (Script.move j source target next).Plays n T i st := by
  refine ⟨htarget, ?_⟩
  rw [if_neg fun hboth => hsource hboth.2]
  exact h

theorem plays_finish {next : Script α} (h : next.Plays n T i .idle) :
    (Script.finish j next).Plays n T i .idle := by
  refine plays_phase rfl fun p => ?_
  split
  · intro handle
    cases handle with
    | none => exact h
    | some x => exact h
  · exact h

theorem plays_conclude (r : Except CompileError α) :
    (Script.conclude j r).Plays n T i .idle := by
  have hleave : (Script.leaveGate .done : Script α).Plays n T i .idle := rfl
  cases r with
  | ok a =>
    refine plays_phase rfl fun p => ?_
    split
    · intro fresh
      dsimp only
      split
      · refine plays_move (by simp) (by simp) fun found => ?_
        split
        · exact ⟨rfl, plays_finish hleave⟩
        · exact plays_finish hleave
      · exact plays_finish hleave
    · exact plays_finish hleave
  | error e =>
    refine plays_move (by simp) (by simp) fun found => ?_
    split
    · exact ⟨rfl, plays_finish hleave⟩
    · exact plays_finish hleave

theorem plays_runJob (j : Nat) : (Script.runJob j : Script α).Plays n T i .idle :=
  ⟨rfl, fun r => plays_conclude r⟩

theorem plays_readArtifact (j : Nat) : (Script.readArtifact j : Script α).Plays n T i .idle := by
  refine plays_phase rfl fun p => ?_
  split
  · intro a
    exact plays_answer (by simp [Answer.notified?]) rfl
  · exact plays_answer (by simp [Answer.notified?]) rfl

theorem plays_call (hi : i < n) {x : Call} (hx : x.passive = true) :
    (x.script n T : Script α).Plays n T i .idle ∨
      x = .notify i ∧ (x.script n T : Script α).Plays n T i .called := by
  cases x with
  | ensure | compileNow | close => cases hx
  | phase j => exact .inl (plays_phase rfl fun p => plays_answer (by simp [Answer.notified?]) rfl)
  | artifact j => exact .inl (plays_readArtifact j)
  | notify j =>
    by_cases hj : j = i
    · subst hj
      exact .inr ⟨rfl, plays_notify hi⟩
    · exact .inl (plays_notify_of_ne hj)

end Scripts

/-! ### Deals -/

/-- What is known of the function that is watched. -/
structure Account where
  calls : Nat
  /-- Whether it has been taken. -/
  taken : Bool

/-- What one action may do to a thread's standing and to the account, and what is
recorded of it. -/
inductive Deal (T i : Nat) (a : Account) : Standing → Account → Standing → Option Deed → Prop
  | quiet {st : Standing} {deed : Option Deed} (h : ∀ d ∈ deed, d.func ≠ i) :
      Deal T i a st a st deed
  | count : Deal T i a .called { a with calls := a.calls + 1 }
      (if a.calls + 1 < T then .spared else .bound) (some (.counted i))
  | see {st : Standing} (h : a.taken = true) : Deal T i a st a st.assured none
  | take (h : a.taken = false) :
      Deal T i a .bound { a with taken := true } .holding (some (.started i))
  | submit : Deal T i a .holding a .served (some (.submitted i))
  | notify {st : Standing} (h : st = .spared ∨ st = .served) :
      Deal T i a st a .idle (some (.notified i))

theorem Deal.idle {T i : Nat} {a a' : Account} {st : Standing} {deed : Option Deed}
    (h : Deal T i a .idle a' st deed) : st = .idle := by
  cases h with
  | quiet | see | notify => rfl

/-! ### Actions -/

namespace Table

theorem phase_update_of_ne (t : Table α) {i j : Nat} (h : i ≠ j) (f : Slot α → Slot α) :
    (t.update j f).phase i = t.phase i := by
  rw [Table.phase, getElem?_update, if_neg h, Table.phase]

/-- A change that leaves the phase as it is. -/
theorem phase_update_of_same (t : Table α) (i j : Nat) {f : Slot α → Slot α}
    (h : ∀ s, (f s).phase = s.phase) : (t.update j f).phase i = t.phase i := by
  rw [Table.phase, getElem?_update, Table.phase]
  split
  · cases t[i]? with
    | none => rfl
    | some s => simp [h]
  · rfl

theorem phase_move (t : Table α) {i : Nat} (hi : i < t.length) (source target : Phase) :
    (t.update i (Slot.move · source target)).phase i =
      if t.phase i = source then target else t.phase i := by
  simp only [Table.phase, getElem?_update, List.getElem?_eq_getElem hi, if_true, Option.map_some,
    Option.getD_some, Slot.move]
  split <;> rfl

end Table

namespace World

/-- An open service for `n` functions. -/
structure Ready (n : Nat) (w : World α) : Prop where
  slots : w.service.table.length = n
  counts : w.counts.length = n
  closed : w.service.closed = false
  pool : w.pool = true

def account (w : World α) (i : Nat) : Account where
  calls := w.counts.getD i 0
  taken := !decide (w.service.table.phase i = .notCompiled)

variable {n i j : Nat} {w w' : World α}

theorem Alike.ready (h : w.Alike w') (hw : w.Ready n) : w'.Ready n :=
  ⟨h.table ▸ hw.slots, h.counts ▸ hw.counts, h.closed ▸ hw.closed, h.pool ▸ hw.pool⟩

theorem Alike.account (h : w.Alike w') (i : Nat) : w'.account i = w.account i := by
  rw [World.account, World.account, h.table, h.counts]

theorem Ready.update (hw : w.Ready n) (j : Nat) (f : Slot α → Slot α) : (w.update j f).Ready n :=
  { hw with slots := by rw [World.update, Table.update, List.length_modify, hw.slots] }

theorem account_update_of_same {f : Slot α → Slot α} (h : ∀ s, (f s).phase = s.phase) :
    (w.update j f).account i = w.account i := by
  simp only [World.account, World.update, Table.phase_update_of_same _ i j h]

theorem account_update_of_ne (h : i ≠ j) (f : Slot α → Slot α) :
    (w.update j f).account i = w.account i := by
  simp only [World.account, World.update, Table.phase_update_of_ne _ h]

theorem account_resolve (x : Handle) (status : JobStatus) :
    (w.resolve x status).account i = w.account i := by
  unfold World.resolve
  split
  · have hphase : ∀ s : Slot α, (s.resolve status).phase = s.phase := by
      intro s
      unfold Slot.resolve
      split <;> rfl
    exact account_update_of_same (w := w) (j := x.func) hphase
  · rfl

theorem Ready.resolve (hw : w.Ready n) (x : Handle) (status : JobStatus) :
    (w.resolve x status).Ready n := by
  unfold World.resolve
  split
  · exact ⟨(hw.update x.func (Slot.resolve · status)).slots, hw.counts, hw.closed, hw.pool⟩
  · exact hw

theorem alike_submit (w : World α) (j : Nat) : w.Alike (w.submit j) := by
  unfold World.submit
  split <;> exact ⟨rfl, rfl, rfl, rfl⟩

theorem Ready.tally (hw : w.Ready n) (j : Nat) : (w.tally j).Ready n :=
  { hw with counts := by rw [World.tally, List.length_modify, hw.counts] }

theorem account_tally_of_ne (h : i ≠ j) : (w.tally j).account i = w.account i := by
  have h' : j ≠ i := fun e => h e.symm
  refine congrArg (Account.mk · (w.account i).taken) ?_
  simp [World.tally, List.getD_eq_getElem?_getD, h']

theorem account_tally (hi : i < w.counts.length) (hfew : (w.account i).calls + 1 < UInt32.size) :
    (w.tally i).account i = { w.account i with calls := (w.account i).calls + 1 } := by
  have hcalls : w.counts[i] + 1 < UInt32.size := by simpa [World.account, hi] using hfew
  refine congrArg (Account.mk · (w.account i).taken) ?_
  simp [World.account, World.tally, List.getD_eq_getElem?_getD, hi, countUp,
    Nat.mod_eq_of_lt hcalls]

/-- What the caller of a notification is told. -/
theorem nextCall_account (hi : i < w.counts.length)
    (hfew : (w.account i).calls + 1 < UInt32.size) :
    w.counts[i]?.map nextCall = some ((w.account i).calls + 1) := by
  have hcalls : (w.account i).calls = w.counts[i] := by simp [World.account, hi]
  rw [List.getElem?_eq_getElem hi, Option.map_some, ← hcalls, nextCall,
    Nat.min_eq_left (Nat.le_sub_one_of_lt hfew)]

theorem account_move (hi : i < w.service.table.length) {source target : Phase}
    (hsource : source ≠ .notCompiled ∨ w.service.table.phase i ≠ .notCompiled)
    (htarget : target ≠ .notCompiled) :
    (w.update i (Slot.move · source target)).account i = w.account i := by
  have hphase : (w.service.table.update i (Slot.move · source target)).phase i = .notCompiled ↔
      w.service.table.phase i = .notCompiled := by
    rw [Table.phase_move _ hi]
    grind
  simp only [World.account, World.update, hphase]

theorem account_take (hi : i < w.service.table.length) {target : Phase}
    (hfree : w.service.table.phase i = .notCompiled) (htarget : target ≠ .notCompiled) :
    (w.update i (Slot.move · .notCompiled target)).account i =
      { w.account i with taken := true } := by
  simp [World.account, World.update, Table.phase_move _ hi, hfree, htarget]

end World

/-- What leads from `w` to `w'` is a deal, and `c` is how a thread goes on that stood as
`st` before. -/
def Script.Goes (n T i : Nat) (st : Standing) (w w' : World α) (c : Script α)
    (deed : Option Deed) : Prop :=
  ∃ st', c.Plays n T i st' ∧ Deal T i (w.account i) st (w'.account i) st' deed ∧ w'.Ready n

namespace Script.Plays

variable {n T i t : Nat} {w w' : World α} {c c' : Script α} {st : Standing}

theorem goes_of_same (h : c.Plays n T i st) (hw' : w'.Ready n)
    (haccount : w'.account i = w.account i) {deed : Option Deed}
    (hdeed : ∀ d ∈ deed, d.func ≠ i) : Goes n T i st w w' c deed :=
  ⟨st, h, haccount ▸ .quiet hdeed, hw'⟩

theorem goes_of_account (h : c.Plays n T i st) (hw' : w'.Ready n)
    (haccount : w'.account i = w.account i) : Goes n T i st w w' c none :=
  goes_of_same h hw' haccount (by simp)

theorem goes_of_alike (h : c.Plays n T i st) (hw : w.Ready n) (halike : w.Alike w') :
    Goes n T i st w w' c none :=
  goes_of_account h (halike.ready hw) (halike.account i)

/-- Of all who try to take the function one does, and the others see that it is
taken. -/
theorem goes_move {j : Nat} {source target : Phase} {next : Phase → Script α}
    (h : (Script.move j source target next).Plays n T i st) (hi : i < n) (hw : w.Ready n) :
    Goes n T i st w (w.update j (Slot.move · source target)) (next (w.service.table.phase j))
      ((Script.move j source target next).deed? w) := by
  have hslot : i < w.service.table.length := hw.slots ▸ hi
  obtain ⟨htarget, hnext⟩ := h
  by_cases hj : j = i
  · subst hj
    by_cases hsource : source = .notCompiled
    · subst hsource
      rw [if_pos ⟨rfl, rfl⟩] at hnext
      obtain ⟨rfl, htake, hsee⟩ := hnext
      by_cases hfree : w.service.table.phase j = .notCompiled
      · refine ⟨.holding, hfree ▸ htake, ?_, hw.update j _⟩
        rw [World.account_take hslot hfree htarget, Script.deed?,
          if_pos ⟨hslot, hfree, rfl, htarget⟩]
        exact .take (by simp [World.account, hfree])
      · refine ⟨.served, hsee _ hfree, ?_, hw.update j _⟩
        rw [World.account_move hslot (Or.inr hfree) htarget, Script.deed?,
          if_neg fun hall => hfree hall.2.1]
        exact .see (by simp [World.account, hfree])
    · rw [if_neg fun hboth => hsource hboth.2] at hnext
      refine goes_of_same (hnext _) (hw.update j _)
        (World.account_move hslot (Or.inl hsource) htarget) ?_
      simp [Script.deed?, hsource]
  · rw [if_neg fun hboth => hj hboth.1] at hnext
    refine goes_of_same (hnext _) (hw.update j _) (World.account_update_of_ne (Ne.symm hj) _) ?_
    intro d hd
    simp only [Script.deed?] at hd
    split at hd
    · obtain rfl : Deed.started j = d := Option.some.inj hd
      exact hj
    · cases hd

theorem goes_tally {j : Nat} {next : Option Nat → Script α}
    (h : (Script.tally j next).Plays n T i st) (hi : i < n) (hw : w.Ready n)
    (hfew : (Script.tally j next).deed? w = some (.counted i) →
      (w.account i).calls + 1 < UInt32.size) :
    Goes n T i st w (w.tally j) (next (w.counts[j]?.map nextCall))
      ((Script.tally j next).deed? w) := by
  have hcounts : i < w.counts.length := hw.counts ▸ hi
  by_cases hj : j = i
  · subst hj
    have hdeed : (Script.tally j next).deed? w = some (.counted j) := if_pos hcounts
    rw [Script.Plays, if_pos rfl] at h
    obtain ⟨rfl, hnext⟩ := h
    refine ⟨_, (World.nextCall_account hcounts (hfew hdeed)).symm ▸ hnext _, ?_, hw.tally j⟩
    rw [hdeed, World.account_tally hcounts (hfew hdeed)]
    exact .count
  · rw [Script.Plays, if_neg hj] at h
    refine goes_of_same (h _) (hw.tally j) (World.account_tally_of_ne (Ne.symm hj)) ?_
    intro d hd
    simp only [Script.deed?] at hd
    split at hd
    · obtain rfl : Deed.counted j = d := Option.some.inj hd
      exact hj
    · cases hd

theorem goes_submit {j : Nat} {next : Script α} (h : (Script.submit j next).Plays n T i st)
    (hw : w.Ready n) :
    Goes n T i st w (w.submit j) next ((Script.submit j next).deed? w) := by
  have halike := World.alike_submit w j
  have hdeed : (Script.submit j next).deed? w = some (.submitted j) :=
    if_pos (World.queue_submit hw.pool j)
  rw [hdeed]
  by_cases hj : j = i
  · subst hj
    rw [Script.Plays, if_pos rfl] at h
    obtain ⟨rfl, hnext⟩ := h
    exact ⟨.served, hnext, (halike.account j).symm ▸ .submit, halike.ready hw⟩
  · rw [Script.Plays, if_neg hj] at h
    exact goes_of_same h (halike.ready hw) (halike.account i) (by simpa [Deed.func] using hj)

theorem goes_answer {a : Answer α} {next : Script α} (h : (Script.answer a next).Plays n T i st)
    (hw : w.Ready n) :
    Goes n T i st w { w with answers := w.answers ++ [a] } next
      ((Script.answer a next).deed? w) := by
  have halike : w.Alike { w with answers := w.answers ++ [a] } := ⟨rfl, rfl, rfl, rfl⟩
  rw [Script.deed?]
  by_cases ha : a.notified? = some i
  · rw [Script.Plays, if_pos ha] at h
    rw [ha]
    exact ⟨.idle, h.2, .notify h.1, halike.ready hw⟩
  · rw [Script.Plays, if_neg ha] at h
    refine goes_of_same h (halike.ready hw) rfl ?_
    intro d hd
    obtain ⟨j, hj, rfl⟩ := Option.map_eq_some_iff.mp hd
    exact fun hji => ha (hj.trans (congrArg some hji))

/-- **One action of a script that goes on as its thread stands.** -/
theorem act (h : c.Plays n T i st) (hi : i < n) (hw : w.Ready n)
    (hact : w.act t c = some (w', c'))
    (hfew : c.deed? w = some (.counted i) → (w.account i).calls + 1 < UInt32.size) :
    Goes n T i st w w' c' (c.deed? w) := by
  cases c with
  | done | compile => cases hact
  | lockGate | unlockGate | setClosed | stopPool | wait => cases h
  | enterGate next =>
    simp only [World.act] at hact
    split at hact
    · cases hact
      exact goes_of_alike h hw ⟨rfl, rfl, rfl, rfl⟩
    · cases hact
  | leaveGate next | beginRun j next =>
    cases hact
    exact goes_of_alike h hw ⟨rfl, rfl, rfl, rfl⟩
  | tell e next =>
    obtain ⟨rfl, hnext⟩ := h
    cases hact
    exact goes_of_alike hnext hw ⟨rfl, rfl, rfl, rfl⟩
  | isClosed next =>
    cases hact
    rw [hw.closed]
    exact goes_of_alike h hw (.refl w)
  | job j next | artifact j next =>
    cases hact
    exact goes_of_alike (h _) hw (.refl w)
  | openJob j next =>
    simp only [World.act] at hact
    split at hact
    next hj =>
      cases hact
      have hnext := h (some ⟨j, (w.cells j).getD w.made⟩) (by simpa [hw.slots] using hj)
      have hupdate := hw.update j Slot.openJob
      refine goes_of_account hnext ⟨hupdate.slots, hw.counts, hw.closed, hw.pool⟩ ?_
      exact World.account_update_of_same (w := w) (j := j) (f := Slot.openJob) fun _ => rfl
    next hj =>
      cases hact
      exact goes_of_alike (h _ (by simpa [hw.slots] using hj)) hw (.refl w)
  | phase j next =>
    cases hact
    by_cases hseen : j = i ∧ w.service.table.phase j ≠ .notCompiled
    · have hnext := h (w.service.table.phase j)
      rw [if_pos hseen] at hnext
      obtain ⟨rfl, hseen⟩ := hseen
      exact ⟨_, hnext, .see (by simpa [World.account] using hseen), hw⟩
    · have hnext := h (w.service.table.phase j)
      rw [if_neg hseen] at hnext
      exact goes_of_alike hnext hw (.refl w)
  | setArtifact j a next =>
    cases hact
    exact goes_of_account (h _) (hw.update j _) (World.account_update_of_same fun _ => rfl)
  | resolve x status next =>
    cases hact
    exact goes_of_account h (hw.resolve x status) (World.account_resolve x status)
  | move j source target next =>
    cases hact
    exact goes_move h hi hw
  | submit j next =>
    cases hact
    exact goes_submit h hw
  | tally j next =>
    cases hact
    exact goes_tally h hi hw hfew
  | answer a next =>
    cases hact
    exact goes_answer h hw

end Script.Plays

end StackMachine.Lifecycle
