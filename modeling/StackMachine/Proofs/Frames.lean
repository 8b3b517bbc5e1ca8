/-
# Frames come and go with calls

Three ways lead into a call and out of it: the stream goes on in the body,
integrated code runs, or a new task interprets until the frames are as few as
before. Code that was never checked may jump anywhere and fall through from one
function into the next. All the same frames stay in order: the outermost one is
at the bottom and alone has nowhere to return to (`Frame.Founded`), and a call
that is over has left the frames it found, with their locals
(`Run.frames_of_until`). So no call is ever left that was not begun, and a run
that ends without a failure has a reason to (`Run.frame_discipline`).

* `Run.calls`: how many calls are under way;
* `Run.Until`: the states of a run up to the first one of some kind.
-/
import Mathlib
import StackMachine.Proofs.Activations

namespace StackMachine

/-! ### The outermost frame -/

namespace Frame

/-- At the bottom is the frame `f`, but for its locals, and has nowhere to return
to; all others have. -/
def Founded (f : Frame) (fs : List Frame) : Prop :=
  ∃ inner entry, fs = inner ++ [entry] ∧ entry.outline = f.outline ∧ entry.returnIp = none ∧
    ∀ g ∈ inner, g.returnIp ≠ none

namespace Founded

variable {f g : Frame} {fs fs' : List Frame}

theorem singleton (hf : f.returnIp = none) : Founded f [f] :=
  ⟨[], f, rfl, rfl, hf, fun _ hg => absurd hg List.not_mem_nil⟩

theorem ne_nil (h : Founded f fs) : fs ≠ [] := by
  obtain ⟨inner, entry, rfl, -⟩ := h
  simp

theorem push (h : Founded f fs) (hg : g.returnIp ≠ none) : Founded f (g :: fs) := by
  obtain ⟨inner, entry, rfl, hout, hret, hinner⟩ := h
  exact ⟨g :: inner, entry, rfl, hout, hret, List.forall_mem_cons.mpr ⟨hg, hinner⟩⟩

theorem pop (h : Founded f (g :: fs)) (hne : fs ≠ []) : Founded f fs := by
  obtain ⟨inner, entry, heq, hout, hret, hinner⟩ := h
  cases inner with
  | nil =>
    obtain ⟨-, rfl⟩ := List.cons.inj heq
    exact absurd rfl hne
  | cons g' inner =>
    obtain ⟨-, rfl⟩ := List.cons.inj heq
    exact ⟨inner, entry, rfl, hout, hret, (List.forall_mem_cons.mp hinner).2⟩

/-- The locals of the innermost call do not matter. -/
theorem congr (h : Founded f fs)
    (he : fs'.modifyHead Frame.outline = fs.modifyHead Frame.outline) : Founded f fs' := by
  obtain ⟨inner, entry, rfl, hout, hret, hinner⟩ := h
  cases fs' with
  | nil => cases inner <;> cases he
  | cons g fs' =>
    cases inner with
    | nil =>
      obtain ⟨hg, rfl⟩ := List.cons.inj he
      exact ⟨[], g, rfl, hg.trans hout, (returnIp_of_outline hg).trans hret, hinner⟩
    | cons g' inner =>
      obtain ⟨hg, rfl⟩ := List.cons.inj he
      obtain ⟨hg', hrest⟩ := List.forall_mem_cons.mp hinner
      refine ⟨g :: inner, entry, rfl, hout, hret, List.forall_mem_cons.mpr ⟨?_, hrest⟩⟩
      rwa [returnIp_of_outline hg]

end Founded

end Frame

namespace Machine

/-- A call can be left if there is one. -/
theorem leave_ok {m : Machine} (hm : m.frames ≠ []) (op : Opcode) (v : Option Value) :
    ∃ g n, leave op v m = .ok g n := by
  obtain ⟨g, gs, hg⟩ := List.exists_cons_of_ne_nil hm
  exact ⟨g, _, leave_cons hg⟩

/-- Where a call cannot be left there is none. -/
theorem frames_of_leave_error {m n : Machine} {op : Opcode} {v : Option Value} {e : Fault}
    (h : leave op v m = .error e n) : n.frames = [] := by
  cases hm : m.frames with
  | nil =>
    simp only [leave, hm] at h
    cases h
    exact hm
  | cons g gs =>
    rw [leave_cons hm] at h
    cases h

end Machine

/-- Isolated code, which runs without a frame. -/
def Task.frameless : Task → Bool
  | isolated _ _ _ => true
  | _ => false

namespace Run

variable {σ : Type} {env : Env} {hooks : Hooks σ}

namespace Nested

variable {ts : List Task} {fs : List Frame} {ip : Nat} {as : List Activation}

theorem frames_ne_nil (h : Nested env ts fs ip as) : fs ≠ [] := by
  induction h with
  | entry | callee | task | code => exact List.cons_ne_nil _ _
  | apart _ _ ih => exact ih

/-- Every call has a frame, or a task that needs none. -/
theorem length (h : Nested env ts fs ip as) : fs.length + ts.countP Task.frameless = as.length := by
  induction h with
  | entry => rfl
  | callee _ _ _ _ ih => rw [List.length_cons, List.length_cons, ← ih, Nat.add_right_comm]
  | task _ _ _ ih | code _ _ _ ih =>
    rw [List.length_cons, List.length_cons, ← ih, List.countP_cons_of_neg (by simp [Task.frameless]),
      Nat.add_right_comm]
  | apart _ _ ih =>
    rw [List.length_cons, ← ih, List.countP_cons_of_pos rfl, Nat.add_assoc]

end Nested

/-! ### The outermost call -/

section Founded

variable {f : Frame} {m n : Machine} {s s' : σ} {as as' : List Activation} {r : Run σ}
  {output : Array String}

/-- A step that leaves some frame keeps the outermost one at the bottom. -/
theorem Act.founded (h : Act env hooks m s as n s' as') (hm : f.Founded m.frames)
    (hn : n.frames ≠ []) : f.Founded n.frames := by
  cases h with
  | @data _ _ _ _ _ _ x _ _ _ _ hexec =>
    have hcalm := Machine.exec_outline env.settings x m
    unfold Gives at hcalm
    rw [hexec] at hcalm
    exact hm.congr (congrArg Machine.frames hcalm)
  | call | enter => exact hm.push (Option.some_ne_none _)
  | ret _ hfs | retVoid _ hfs | off hfs =>
    rw [hfs] at hm
    exact hm.pop hn
  | jump | pass | isolate | on | ended => exact hm

theorem frames_collected (hm : m = r.machine ∨ m = r.machine.maybeCollect env.settings) :
    m.frames = r.machine.frames := by
  rcases hm with rfl | rfl
  · rfl
  · exact Machine.frames_maybeCollect ..

theorem frames_boot (env : Env) (s : σ) (output : Array String) :
    ∃ f, (boot env s output).machine.frames = [f] ∧ f.returnIp = none :=
  ⟨_, rfl, rfl⟩

/-- In every state of a run, the outermost frame is at the bottom. -/
theorem founded_of_reach (hf : (boot env s output).machine.frames = [f]) (hret : f.returnIp = none)
    (hr : Reach env hooks (boot env s output) r) : f.Founded r.machine.frames := by
  obtain ⟨g, hboot⟩ := under_boot env s output
  have hstart : f.Founded (boot env s output).machine.frames := by
    rw [hf]
    exact .singleton hret
  obtain ⟨-, -, hfounded⟩ := hboot.keeps (I := fun t _ => f.Founded t.machine.frames)
    (fun t u m as as' hm _ hi hact hu => by
      rw [← frames_collected hm] at hi
      exact hact.founded hi hu.nested.frames_ne_nil)
    hstart hr
  exact hfounded

/-- A step that fails leaves the frames, but for the locals of the innermost. -/
theorem Under.frames_of_failed {e : Ending σ} (h : Under env r as)
    (hs : Run.step env hooks r = .ended e) (he : e.failure ≠ none) :
    e.machine.frames.modifyHead Frame.outline = r.machine.frames.modifyHead Frame.outline := by
  obtain ⟨m, hm, ho⟩ := outcome hooks h.nested h.going
  rw [← frames_collected hm]
  rw [hs] at ho
  cases ho with
  | fault _ _ _ hkept => exact hkept
  | lost _ _ _ hkept => exact congrArg (List.modifyHead Frame.outline) hkept
  | halted | ranOut => exact absurd rfl he

/-- A run that ends without a failure has stopped. -/
theorem Under.stop_of_ended {e : Ending σ} (h : Under env r as)
    (hs : Run.step env hooks r = .ended e) (he : e.failure = none) : e.machine.stop ≠ none := by
  obtain ⟨m, ho⟩ := h.ended hs
  cases ho with
  | fault | lost => cases he
  | halted hstop | ranOut _ hstop =>
    rw [hstop]
    exact Option.some_ne_none _

end Founded

/-! ### One call -/

/-- How many calls are under way: each has a frame, or is isolated code. -/
def calls (r : Run σ) : Nat := r.machine.frames.length + r.tasks.countP Task.frameless

/-- The run is at an instruction that calls. -/
def AtCall (env : Env) (r : Run σ) : Prop :=
  ∃ ip x, r.tasks.head?.bind (Task.site? env r.machine) = some (ip, x) ∧ x.op = .call

/-- The states on the way until `P` holds, and the first one in which it does. -/
inductive Until (env : Env) (hooks : Hooks σ) (P : Run σ → Prop) (r : Run σ) : Run σ → Prop
  | here : Until env hooks P r r
  | step {t u : Run σ} : Until env hooks P r t → ¬ P t → Run.step env hooks t = .running u →
      Until env hooks P r u

section Calls

variable {r t u : Run σ} {a : Activation} {as rest : List Activation}

theorem Under.calls (h : Under env r as) : r.calls = as.length := h.nested.length

/-- A call is one more under way, and those around it wait. -/
theorem AtCall.begins (h : AtCall env r) (hr : Under env r as)
    (hs : Run.step env hooks r = .running u) :
    ∃ a b rest, as = a :: rest ∧ Under env u (b :: a :: rest) := by
  obtain ⟨ip, x, hsite, hop⟩ := h
  obtain ⟨a, rest, rfl⟩ := hr.nested.exists_cons
  rw [hr.nested.site rfl] at hsite
  obtain ⟨m, as', -, hact, hu⟩ := hr.step hs
  obtain ⟨k, -, ⟨t, f, ret, -, -, -, -, rfl⟩ | ⟨t, art, b, -, rfl⟩⟩ := hact.of_call hsite hop
  · exact ⟨a, _, rest, rfl, hu⟩
  · exact ⟨a, b, rest, rfl, hu⟩

/-- Until a call is over, its caller and all those around it wait; then the
caller goes on. -/
theorem Until.inside {b : Activation} {depth : Nat} (h : Under env u (b :: a :: rest))
    (hdepth : depth = (a :: rest).length)
    (ht : Until env hooks (fun t => t.calls ≤ depth) u t) :
    (∃ inner, inner ≠ [] ∧ Under env t (inner ++ a :: rest)) ∨ Under env t (a.next :: rest) := by
  induction ht with
  | here => exact Or.inl ⟨[b], List.cons_ne_nil _ _, h⟩
  | @step t v _ hgoing hs ih =>
    rcases ih with ⟨inner, hne, hunder⟩ | hunder
    · obtain ⟨m, as', -, hact, hv⟩ := hunder.step hs
      rcases hact.shape.inside hne with ⟨inner', hne', rfl⟩ | rfl
      · exact Or.inl ⟨inner', hne', hv⟩
      · exact Or.inr hv
    · -- the caller has gone on, so there is no further step
      have hcalls := hunder.calls
      rw [List.length_cons] at hcalls hdepth
      exact absurd (by omega) hgoing

/-- **A call leaves the frames it found.** Until it is over they are the outer
ones, with their locals; then they are all there are. -/
theorem frames_of_until (hr : Under env r as) (hcall : AtCall env r)
    (hs : Run.step env hooks r = .running u)
    (ht : Until env hooks (fun t => t.calls ≤ r.calls) u t) :
    r.machine.frames <:+ t.machine.frames ∧
      (t.calls ≤ r.calls → t.machine.frames = r.machine.frames) := by
  obtain ⟨a, b, rest, rfl, hu⟩ := hcall.begins hr hs
  have hframes := hr.nested.frames
  rcases ht.inside hu hr.calls with ⟨inner, hne, hunder⟩ | hunder
  · refine ⟨⟨inner.filterMap Activation.frame?, ?_⟩, fun hle => ?_⟩
    · rw [← hframes, ← List.filterMap_append, hunder.nested.frames]
    · -- as long as a call is inside, more are under way
      have hpos := List.length_pos_iff.mpr hne
      rw [hunder.calls, hr.calls, List.length_append] at hle
      omega
  · have hsame : t.machine.frames = r.machine.frames := by
      rw [← hframes, ← hunder.nested.frames]
      cases a <;> rfl
    exact ⟨hsame ▸ List.suffix_refl _, fun _ => hsame⟩

end Calls

/-- **Frames come and go with calls.** Whatever the program, and whatever compiled
code serves its calls: in every state of a run the outermost frame is at the
bottom and alone has nowhere to return to, so that there is a call to leave; an
instruction that calls adds a call to those under way, and when that is over, the
frames are those from before, with their locals. A run that fails does so with
the outermost frame in place, so never for want of a call to leave, and a run
that does not fail ends because it has stopped. -/
theorem frame_discipline (env : Env) (hooks : Hooks σ) (s : σ) (output : Array String) :
    ∃ f, (boot env s output).machine.frames = [f] ∧ f.returnIp = none ∧
      (∀ r, Reach env hooks (boot env s output) r →
        f.Founded r.machine.frames ∧
        (∀ op v m, m.frames = r.machine.frames → ∃ g n, Machine.leave op v m = .ok g n) ∧
        ∀ u, AtCall env r → Run.step env hooks r = .running u → u.calls = r.calls + 1 ∧
          ∀ t, Until env hooks (fun t => t.calls ≤ r.calls) u t →
            r.machine.frames <:+ t.machine.frames ∧
            (t.calls ≤ r.calls → t.machine.frames = r.machine.frames)) ∧
      ∀ fuel e, env.run hooks s output fuel = some e →
        (e.failure ≠ none → f.Founded e.machine.frames ∧
          ∀ op v n cause, Machine.leave op v n ≠ .error cause e.machine) ∧
        (e.failure = none → e.machine.stop ≠ none) := by
  obtain ⟨f, hf, hret⟩ := frames_boot env s output
  refine ⟨f, hf, hret, fun r hr => ?_, fun fuel e he => ?_⟩
  · have hfounded := founded_of_reach hf hret hr
    obtain ⟨as, hunder⟩ := under_of_reach hr
    refine ⟨hfounded, fun op v m hm => ?_, fun u hcall hs => ⟨?_, fun t ht => ?_⟩⟩
    · exact Machine.leave_ok (hm ▸ hfounded.ne_nil) op v
    · obtain ⟨a, b, rest, rfl, hu⟩ := hcall.begins hunder hs
      rw [hu.calls, hunder.calls, List.length_cons]
    · exact frames_of_until hunder hcall hs ht
  · obtain ⟨r, hr, hs⟩ := Ends.last ⟨fuel, he⟩
    obtain ⟨as, hunder⟩ := under_of_reach hr
    refine ⟨fun hfail => ?_, hunder.stop_of_ended hs⟩
    have hfounded := (founded_of_reach hf hret hr).congr (hunder.frames_of_failed hs hfail)
    exact ⟨hfounded, fun op v n cause hleave =>
      hfounded.ne_nil (Machine.frames_of_leave_error hleave)⟩

/-- One function calls another; both write their first local. -/
def bothStore : Env where
  program :=
    { code :=
        [⟨.call, some 0⟩, ⟨.halt, none⟩,
         ⟨.pushInt, some 5⟩, ⟨.storeLocal, some 0⟩, ⟨.call, some 1⟩, ⟨.retVoid, none⟩,
         ⟨.pushInt, some 7⟩, ⟨.storeLocal, some 0⟩, ⟨.retVoid, none⟩]
      functions := [⟨"outer", 2, 0, 1, false⟩, ⟨"inner", 6, 0, 1, false⟩] }

/-- The first function is served by integrated code, the other is interpreted. -/
def servingOuter : Hooks Unit where
  compiled s k :=
    (if k = 0 then
      some (.integrated ⟨0,
        [⟨.pushInt, some 5⟩, ⟨.storeLocal, some 0⟩, ⟨.call, some 1⟩, ⟨.retVoid, none⟩],
        [2, 3, 4, 5]⟩)
     else none, s)
  notify s _ := s

/-- A call from integrated code that is interpreted by a task of its own: its
local is gone with its frame, and that of the caller is as before. -/
theorem frame_discipline_bothStore :
    ∃ r u t : Run Unit, Reach bothStore servingOuter (boot bothStore () #[]) r ∧
      AtCall bothStore r ∧ Run.step bothStore servingOuter r = .running u ∧
      r.tasks.length < u.tasks.length ∧
      Until bothStore servingOuter (fun t => t.calls ≤ r.calls) u t ∧ t.calls ≤ r.calls ∧
      r.machine.locals = [.int 5] ∧ t.machine.frames = r.machine.frames := by
  have hstates : ∃ r u t : Run Unit, Reach bothStore servingOuter (boot bothStore () #[]) r ∧
      AtCall bothStore r ∧ Run.step bothStore servingOuter r = .running u ∧
      r.tasks.length < u.tasks.length ∧
      Until bothStore servingOuter (fun t => t.calls ≤ r.calls) u t ∧ t.calls ≤ r.calls ∧
      r.machine.locals = [.int 5] :=
    ⟨_, _, _, .step (.step (.step .here rfl) rfl) rfl, ⟨4, ⟨.call, some 1⟩, rfl, rfl⟩, rfl, by decide,
      .step (.step (.step .here (by decide) rfl) (by decide) rfl) (by decide) rfl, by decide, rfl⟩
  obtain ⟨r, u, t, hr, hcall, hs, htasks, ht, hback, hlocals⟩ := hstates
  obtain ⟨f, -, -, hstates, -⟩ := frame_discipline bothStore servingOuter () #[]
  obtain ⟨-, -, hcalls⟩ := hstates r hr
  obtain ⟨-, hframes⟩ := hcalls u hcall hs
  exact ⟨r, u, t, hr, hcall, hs, htasks, ht, hback, hlocals, (hframes t ht).2 hback⟩

end Run
end StackMachine
