/-
# Collections cannot be seen

When the heap is collected, and whether it is at all, is no concern of the
program: two runs that differ in nothing else go in step, on heaps that match
wherever the program can get to (`Collections.step_twin`). That every address
the program knows of leads to an object is part of what they keep.

* `collection_unobservable`: the two runs end alike;
* `no_dangling_reference`: in every state of a run, references lead to objects,
  so that no run fails for want of one.

Isolated code has values of its own that a collection would not find. It is
always innermost, and makes none (`Collections.Held`).
-/
import Mathlib
import StackMachine.Proofs.Contexts
import StackMachine.Proofs.Runs
import StackMachine.Proofs.Sharing

namespace StackMachine

variable {σ τ : Type}

/-- The same but for when the heap is collected. -/
def Env.collecting (env : Env) (on : Bool) (after : Nat) : Env :=
  { env with settings := { env.settings with collecting := on, collectAfter := after } }

theorem Env.program_collecting (env : Env) (on : Bool) (after : Nat) :
    (env.collecting on after).program = env.program := rfl

/-- From `s` and `t` on, two hooks answer every call alike. -/
def Hooks.AnswerAlike (hooks : Hooks σ) (hooks' : Hooks τ) (s : σ) (t : τ) : Prop :=
  ∃ R : σ → τ → Prop, R s t ∧ ∀ s t, R s t → ∀ f,
    (hooks.compiled s f).1 = (hooks'.compiled t f).1 ∧
      R (hooks.compiled s f).2 (hooks'.compiled t f).2 ∧ R (hooks.notify s f) (hooks'.notify t f)

namespace Hooks.AnswerAlike

variable {hooks : Hooks σ} {hooks' : Hooks τ} {s : σ} {t : τ}

theorem refl (hooks : Hooks σ) (s : σ) : hooks.AnswerAlike hooks s s := by
  refine ⟨Eq, rfl, fun s t h f => ?_⟩
  subst h
  exact ⟨rfl, rfl, rfl⟩

theorem answer (h : hooks.AnswerAlike hooks' s t) (f : Nat) :
    (hooks.compiled s f).1 = (hooks'.compiled t f).1 := by
  obtain ⟨R, h0, hR⟩ := h
  exact (hR s t h0 f).1

theorem compiled (h : hooks.AnswerAlike hooks' s t) (f : Nat) :
    hooks.AnswerAlike hooks' (hooks.compiled s f).2 (hooks'.compiled t f).2 := by
  obtain ⟨R, h0, hR⟩ := h
  exact ⟨R, (hR s t h0 f).2.1, hR⟩

theorem notify (h : hooks.AnswerAlike hooks' s t) (f : Nat) :
    hooks.AnswerAlike hooks' (hooks.notify s f) (hooks'.notify t f) := by
  obtain ⟨R, h0, hR⟩ := h
  exact ⟨R, (hR s t h0 f).2.2, hR⟩

end Hooks.AnswerAlike

/-! ### Isolated code -/

namespace Context

variable {S : Set Addr} {c : Context}

/-- Isolated code that knows of no address outside `S`. -/
structure Within (S : Set Addr) (c : Context) : Prop where
  stack : ∀ v ∈ c.stack, v.Within S
  locals : ∀ v ∈ c.locals, v.Within S
  globals : ∀ v ∈ c.globals, v.Within S
  result : ∀ v ∈ c.result, v.Within S

theorem Within.pushed (h : c.Within S) {v : Value} (hv : v.Within S) :
    Within S { c with stack := v :: c.stack } :=
  ⟨List.forall_mem_cons.mpr ⟨hv, h.stack⟩, h.locals, h.globals, h.result⟩

theorem Within.popped (h : c.Within S) {v : Value} {vs : List Value} (hst : c.stack = v :: vs) :
    v.Within S ∧ Within S { c with stack := vs } := by
  have hall := h.stack
  rw [hst, List.forall_mem_cons] at hall
  exact ⟨hall.1, hall.2, h.locals, h.globals, h.result⟩

theorem present_target (x : Instr) : Raises (·.dangling = false) x.target := by
  refine Raises.bind ((raises_arg x).mono fun e he => by rw [he]; rfl) fun n _ => ?_
  cases Instr.place? n with
  | some t => exact raises_ok _
  | none => exact raises_error rfl

/-- No instruction of isolated code brings up a new address, or finds an object
missing. -/
theorem exec_within (h : c.Within S) (x : Instr) :
    Gives (exec x) c (fun _ d => d.Within S) (fun e _ => e.dangling = false) := by
  have harg : Raises (·.dangling = false) x.arg := (raises_arg x).mono fun e he => by rw [he]; rfl
  unfold exec
  cases x.op with
  | pushInt =>
    simp only [gives_bind, gives_lift, gives_push, gives_pure]
    exact ⟨fun n _ => h.pushed (Value.within_int S n), harg⟩
  | pushBool b => exact h.pushed (Value.within_bool S b)
  | pop =>
    simp only [gives_bind, gives_pop, gives_pure]
    exact ⟨fun _ => rfl, fun v vs hst => (h.popped hst).2⟩
  | dup =>
    simp only [gives_bind, gives_peek, gives_push, gives_pure]
    exact ⟨fun _ => rfl, fun v vs hst => h.pushed (h.popped hst).1⟩
  | binary b =>
    simp only [gives_bind, gives_pop, gives_lift, gives_push, gives_pure]
    refine ⟨fun _ => rfl, fun r rs hr => ⟨fun _ => rfl, fun l ls hl => ⟨fun v hv => ?_, ?_⟩⟩⟩
    · exact ((h.popped hr).2.popped hl).2.pushed (Binary.within_eval hv)
    · exact (raises_binary b l r).present
  | unary u =>
    simp only [gives_bind, gives_pop, gives_lift, gives_push, gives_pure]
    refine ⟨fun _ => rfl, fun w ws hst => ⟨fun v hv => ?_, (raises_unary u w).present⟩⟩
    exact (h.popped hst).2.pushed (Unary.within_eval hv)
  | jump w =>
    cases w with
    | always =>
      simp only [gives_bind, gives_lift, gives_pure]
      exact ⟨fun t _ => h, present_target x⟩
    | on b =>
      simp only [gives_bind, gives_lift, gives_pop, gives_pure]
      exact ⟨fun t _ => ⟨fun _ => rfl, fun v vs hst => (h.popped hst).2⟩, present_target x⟩
  | loadLocal =>
    simp only [gives_bind, gives_lift, gives_get, gives_push, gives_pure]
    refine ⟨fun n _ => ⟨fun k _ => ?_, (raises_slot _ _ _).present⟩, harg⟩
    exact h.pushed (Value.within_getD h.locals k)
  | storeLocal =>
    simp only [gives_bind, gives_lift, gives_get, gives_pop, gives_modify, gives_pure]
    refine ⟨fun n _ => ⟨fun k _ => ⟨fun _ => rfl, fun v vs hst => ?_⟩, (raises_slot _ _ _).present⟩, harg⟩
    obtain ⟨hv, hrest⟩ := h.popped hst
    refine ⟨hrest.stack, fun w hw => ?_, h.globals, h.result⟩
    rcases List.mem_or_eq_of_mem_set hw with hw | rfl
    · exact h.locals w hw
    · exact hv
  | loadGlobal =>
    simp only [gives_bind, gives_lift, gives_get, gives_push, gives_pure]
    refine ⟨fun n _ => ⟨fun k _ => ?_, (raises_slot _ _ _).present⟩, harg⟩
    exact h.pushed (Value.within_getD h.globals k)
  | storeGlobal =>
    simp only [gives_bind, gives_lift, gives_get, gives_pop, gives_modify, gives_pure]
    refine ⟨fun n _ => ⟨fun _ => rfl, fun v vs hst => ⟨fun k _ => ?_, (raises_slot _ _ _).present⟩⟩, harg⟩
    obtain ⟨hv, hrest⟩ := h.popped hst
    exact ⟨hrest.stack, h.locals, fun w hw => Value.within_setGrowing h.globals hv hw, h.result⟩
  | printInt =>
    simp only [gives_bind, gives_pop, gives_lift, gives_print, gives_pure]
    refine ⟨fun _ => rfl, fun v vs hst => ⟨fun n _ => ?_, (raises_toInt v).present⟩⟩
    obtain ⟨hstack, hlocals, hglobals, hresult⟩ := (h.popped hst).2
    exact ⟨hstack, hlocals, hglobals, hresult⟩
  | printBool =>
    simp only [gives_bind, gives_pop, gives_print, gives_pure]
    refine ⟨fun _ => rfl, fun v vs hst => ?_⟩
    obtain ⟨hstack, hlocals, hglobals, hresult⟩ := (h.popped hst).2
    exact ⟨hstack, hlocals, hglobals, hresult⟩
  | ret =>
    simp only [gives_bind, gives_pop, gives_modify, gives_pure]
    refine ⟨fun _ => rfl, fun v vs hst => ?_⟩
    obtain ⟨hv, hrest⟩ := h.popped hst
    exact ⟨hrest.stack, h.locals, h.globals, fun w hw => Option.some.inj hw ▸ hv⟩
  | retVoid => exact h
  | halt => exact rfl
  | call | allocArray | loadElem | storeElem | allocStruct | loadField | storeField | new => exact rfl

/-- What comes of a step of isolated code that knows of nothing outside `S`. -/
def StepWithin (S : Set Addr) : Step → Prop
  | .on _ d => d.Within S
  | .ended d => d.Within S
  | .failed e _ => e.dangling = false

theorem step_within (h : c.Within S) (code : Code) (pc : Nat) : StepWithin S (step code pc c) := by
  unfold step
  cases code[pc]? with
  | none => exact h
  | some x =>
    have hx := exec_within h x
    unfold Gives at hx
    dsimp only
    cases hr : exec x c with
    | ok fl d =>
      rw [hr] at hx
      cases fl <;> exact hx
    | error e d =>
      rw [hr] at hx
      exact hx

end Context

namespace Machine

variable {S : Set Addr}

theorem blind_popArgs (n : Nat) : Blind S (Kept S fun vs => ∀ v ∈ vs, v.Within S) (popArgs n) := by
  induction n with
  | zero => exact blind_pure fun v hv => absurd hv List.not_mem_nil
  | succ n ih =>
    refine (blind_pop _).bind fun v hv => ih.bind fun vs hvs => blind_pure ?_
    intro w hw
    rcases List.mem_append.mp hw with hw | hw
    · exact hvs w hw
    · exact List.mem_singleton.mp hw ▸ hv

/-- Isolated code starts with values of the machine. -/
theorem blind_isolate (s : Settings) (func arity locals : Nat) :
    Blind S (Kept S (Context.Within S)) (isolate s func arity locals) := by
  refine (blind_popArgs arity).bind fun vs hvs => blind_get fun m k c h => ?_
  rw [globals_onHeap]
  refine .ok ⟨⟨fun v hv => absurd hv List.not_mem_nil, fun v hv => ?_, h.globals, fun v hv => by cases hv⟩, h⟩
  rcases List.mem_append.mp hv with hv | hv
  · exact hvs v hv
  · exact Value.within_of_mem_zeros hv

theorem blind_writeBack (s : Settings) {vs : List Value} (hvs : ∀ v ∈ vs, v.Within S) (ks : List Nat) :
    Blind S (Kept S fun _ => True) (writeBack s vs ks) := by
  induction ks with
  | nil => exact blind_done _
  | cons k ks ih => exact (blind_storeGlobal s _ (Value.within_getD hvs k)).bind fun _ _ => ih

/-- What isolated code leaves behind are values it knew of. -/
theorem blind_rejoin (s : Settings) {d : Context} (hd : d.Within S) :
    Blind S (Kept S fun _ => True) (rejoin s d) := by
  refine (blind_writeBack s hd.globals d.dirty).bind fun _ _ => ?_
  cases hr : d.result with
  | none => exact blind_done _
  | some v => exact blind_push (hd.result v (by simp [hr]))

end Machine

/-! ### Runs -/

namespace Collections

open Machine (Shares Joint Grown)

variable {env : Env} {on : Bool} {after : Nat} {hooks : Hooks σ} {hooks' : Hooks τ} {s : σ} {s' : τ}
  {S : Set Addr} {m : Machine} {k : Heap} {c : Collector} {ts : List Task}

/-- A task that has no values of its own. -/
def OnMachine : Task → Prop
  | .isolated _ _ _ => False
  | _ => True

/-- Only the innermost task may have values of its own, and they lie in `S`. -/
inductive Held (S : Set Addr) : List Task → Prop
  | machine {ts : List Task} : (∀ t ∈ ts, OnMachine t) → Held S ts
  | isolated {b : CompiledBody} {pc : Nat} {d : Context} {ts : List Task} : d.Within S →
      (∀ t ∈ ts, OnMachine t) → Held S (.isolated b pc d :: ts)

theorem Held.around {t : Task} (h : Held S (t :: ts)) : ∀ u ∈ ts, OnMachine u := by
  cases h with
  | machine hts => exact fun u hu => hts u (List.mem_cons_of_mem _ hu)
  | isolated _ hts => exact hts

/-- Two runs that differ in their heaps, where the program cannot get. -/
inductive Twin (hooks : Hooks σ) (hooks' : Hooks τ) : Run σ → Run τ → Prop
  | mk {S : Set Addr} {m : Machine} {k : Heap} {c : Collector} {s : σ} {s' : τ} {ts : List Task} :
      Shares S m k → Held S ts → hooks.AnswerAlike hooks' s s' →
      Twin hooks hooks' ⟨m, s, ts⟩ ⟨m.onHeap k c, s', ts⟩

/-- Two endings that differ in their heaps, where the program cannot get; neither
is for want of an object. -/
inductive TwinEnd : Ending σ → Ending τ → Prop
  | mk {S : Set Addr} {m : Machine} {k : Heap} {c : Collector} {s : σ} {s' : τ} {f : Option Failure} :
      Shares S m k → (∀ x ∈ f, x.root.dangling = false) →
      TwinEnd ⟨f, m, s⟩ ⟨f, m.onHeap k c, s'⟩

theorem Twin.intact {r : Run σ} {t : Run τ} (h : Twin hooks hooks' r t) : r.machine.Intact := by
  obtain ⟨hs, -, -⟩ := h
  exact hs.intact

theorem TwinEnd.intact {e : Ending σ} {f : Ending τ} (h : TwinEnd e f) : e.machine.Intact := by
  obtain ⟨hs, -⟩ := h
  exact hs.intact

theorem TwinEnd.present {e : Ending σ} {f : Ending τ} (h : TwinEnd e f) {x : Failure}
    (hx : e.result = .error x) : x.root.dangling = false := by
  obtain ⟨-, hf⟩ := h
  rename_i failure
  cases failure with
  | none => cases hx
  | some y =>
    cases hx
    exact hf _ rfl

theorem restore_onHeap (t : Task) (m : Machine) (k : Heap) (c : Collector) :
    t.restore (m.onHeap k c) = (t.restore m).onHeap k c := by
  rcases t with ⟨d, _ | ip⟩ | ⟨b, pc⟩ | ⟨b, pc, d⟩ <;> rfl

/-- On its way out a failure looks at places in the stream and in code only. -/
theorem carry_onHeap (m : Machine) (ts : List Task) (f : Failure) :
    Run.carry (env.collecting on after) (m.onHeap k c) ts f = Run.carry env m ts f := by
  induction ts generalizing m f with
  | nil => rfl
  | cons t ts ih =>
    have hsite : t.site? (env.collecting on after) (m.onHeap k c) = t.site? env m := by
      cases t <;> rfl
    rw [Run.carry, Run.carry, hsite, restore_onHeap]
    exact ih ..

theorem fail_twin (h : Shares S m k) {e : Fault} (he : e.dangling = false) :
    Run.Both (Twin hooks hooks') TwinEnd (Run.fail env ⟨m, s, ts⟩ e)
      (Run.fail (env.collecting on after) ⟨m.onHeap k c, s', ts⟩ e) := by
  rw [Run.fail, Run.fail, carry_onHeap]
  refine .ended (.mk h fun x hx => ?_)
  cases hx
  rw [Run.root_carry]
  exact he

/-- What surrounds a call goes on after it in both runs, or ends in both. -/
theorem resume_twin (h : Shares S m k) (hts : ∀ t ∈ ts, OnMachine t)
    (hh : hooks.AnswerAlike hooks' s s') :
    Run.Both (Twin hooks hooks') TwinEnd (Run.resume m s ts) (Run.resume (m.onHeap k c) s' ts) := by
  induction ts generalizing m with
  | nil => exact .ended (.mk h fun x hx => by cases hx)
  | cons t ts ih =>
    have hrest : ∀ u ∈ ts, OnMachine u := fun u hu => hts u (List.mem_cons_of_mem _ hu)
    have hstopped : (m.onHeap k c).stopped = m.stopped := rfl
    unfold Run.resume
    rw [hstopped]
    split_ifs
    · rcases t with ⟨d, _ | ip⟩ | ⟨b, pc⟩ | ⟨b, pc, d⟩
      · exact ih h hrest
      · exact ih (m := { m with ip }) (h.congr rfl rfl) hrest
      · exact ih h hrest
      · exact ih h hrest
    · cases t with
      | interpret d back => exact .running (.mk (h.congr rfl rfl) (.machine hts) hh)
      | integrated b pc =>
        refine .running (.mk h (.machine fun u hu => ?_) hh)
        rcases List.mem_cons.mp hu with rfl | hu
        · trivial
        · exact hrest u hu
      | isolated b pc d => exact (hts _ (List.mem_cons_self ..)).elim

theorem Shares.restore (h : Shares S m k) (t : Task) : Shares S (t.restore m) k := by
  rcases t with ⟨d, _ | ip⟩ | ⟨b, pc⟩ | ⟨b, pc, d⟩ <;> exact h.congr rfl rfl

/-- A task ends, and what surrounds it goes on. -/
theorem leave_twin (t : Task) (h : Shares S m k) (hts : ∀ u ∈ ts, OnMachine u)
    (hh : hooks.AnswerAlike hooks' s s') :
    Run.Both (Twin hooks hooks') TwinEnd (Run.resume (t.restore m) s ts)
      (Run.resume (t.restore (m.onHeap k c)) s' ts) := by
  rw [restore_onHeap]
  exact resume_twin (Shares.restore h t) hts hh

/-- Compiled code begins in both runs. -/
theorem begin_twin (h : Shares S m k) (hts : ∀ t ∈ ts, OnMachine t)
    (hh : hooks.AnswerAlike hooks' s s') (a : Artifact) :
    Run.Both (Twin hooks hooks') TwinEnd (Run.begin env ⟨m, s, ts⟩ a)
      (Run.begin (env.collecting on after) ⟨m.onHeap k c, s', ts⟩ a) := by
  cases a with
  | integrated b =>
    have hj := Machine.blind_enter env.program b.func m.ip m k c h
    unfold Run.begin
    dsimp only
    rw [Env.program_collecting, Machine.ip_onHeap]
    rcases hj.cases with ⟨start, t, k', c', hr, hr', hp⟩ | ⟨e, t, k', c', hr, hr', he, hs⟩ <;> rw [hr, hr']
    · refine .running (.mk hp.2 (.machine fun u hu => ?_) hh)
      rcases List.mem_cons.mp hu with rfl | hu
      · trivial
      · exact hts u hu
    · exact fail_twin hs he
  | isolated b arity locals =>
    have hj := Machine.blind_isolate env.settings b.func arity locals m k c h
    have hsame : Machine.isolate (env.collecting on after).settings b.func arity locals =
      Machine.isolate env.settings b.func arity locals := rfl
    unfold Run.begin
    dsimp only
    rw [hsame]
    rcases hj.cases with ⟨d, t, k', c', hr, hr', hp⟩ | ⟨e, t, k', c', hr, hr', he, hs⟩ <;> rw [hr, hr']
    · exact .running (.mk hp.2 (.isolated hp.1 hts) hh)
    · exact fail_twin hs he

/-- A call is served by compiled code in both runs. -/
theorem beginCompiled_twin (h : Shares S m k) (hts : ∀ t ∈ ts, OnMachine t)
    (hh : hooks.AnswerAlike hooks' s s') (a : Artifact) :
    Run.Both (Twin hooks hooks') TwinEnd (Run.beginCompiled env ⟨m, s, ts⟩ a)
      (Run.beginCompiled (env.collecting on after) ⟨m.onHeap k c, s', ts⟩ a) :=
  begin_twin (m := { m with compiledCalls := m.compiledCalls + 1 }) (h.congr rfl rfl) hts hh a

theorem callFromStream_twin (h : Shares S m k) (hts : ∀ t ∈ ts, OnMachine t)
    (hh : hooks.AnswerAlike hooks' s s') (f : Nat) :
    Run.Both (Twin hooks hooks') TwinEnd (Run.callFromStream env hooks ⟨m, s, ts⟩ f)
      (Run.callFromStream (env.collecting on after) hooks' ⟨m.onHeap k c, s', ts⟩ f) := by
  have hanswer := hh.answer f
  have hnext := hh.compiled f
  unfold Run.callFromStream
  dsimp only
  generalize hooks.compiled s f = answer, hooks'.compiled s' f = answer' at hanswer hnext ⊢
  obtain ⟨x, u⟩ := answer
  obtain ⟨x', u'⟩ := answer'
  obtain rfl : x = x' := hanswer
  cases x with
  | some a => exact beginCompiled_twin h hts hnext a
  | none =>
    have hj := Machine.blind_enter env.program f (m.ip + 1) m k c h
    dsimp only
    rw [Env.program_collecting, Machine.ip_onHeap]
    rcases hj.cases with ⟨start, t, k', c', hr, hr', hp⟩ | ⟨e, t, k', c', hr, hr', he, hs⟩ <;> rw [hr, hr']
    · exact .running (.mk (hp.2.congr rfl rfl) (.machine hts) (hnext.notify f))
    · exact fail_twin hs he

theorem call_twin (h : Shares S m k) (hts : ∀ t ∈ ts, OnMachine t)
    (hh : hooks.AnswerAlike hooks' s s') (f : Nat) :
    Run.Both (Twin hooks hooks') TwinEnd (Run.call env hooks ⟨m, s, ts⟩ f)
      (Run.call (env.collecting on after) hooks' ⟨m.onHeap k c, s', ts⟩ f) := by
  have hanswer := hh.answer f
  have hnext := hh.compiled f
  unfold Run.call
  dsimp only
  rw [Env.program_collecting]
  split_ifs
  · exact fail_twin h rfl
  generalize hooks.compiled s f = answer, hooks'.compiled s' f = answer' at hanswer hnext ⊢
  obtain ⟨x, u⟩ := answer
  obtain ⟨x', u'⟩ := answer'
  obtain rfl : x = x' := hanswer
  cases x with
  | some a => exact beginCompiled_twin h hts hnext a
  | none =>
    have hj := Machine.blind_enter env.program f m.ip m k c h
    dsimp only
    rw [Machine.ip_onHeap]
    rcases hj.cases with ⟨start, t, k', c', hr, hr', hp⟩ | ⟨e, t, k', c', hr, hr', he, hs⟩ <;> rw [hr, hr']
    · refine .running (.mk (hp.2.congr rfl rfl) (.machine fun u hu => ?_) (hnext.notify f))
      rcases List.mem_cons.mp hu with rfl | hu
      · trivial
      · exact hts u hu
    · exact fail_twin hs he

/-- Where control goes after an instruction of the stream. -/
theorem afterInterpret_twin {d : Nat} {back : Option Nat}
    {r r' : EStateM.Result Fault Machine Flow} (hj : Joint S Grown r r')
    (hts : ∀ t ∈ ts, OnMachine t) (hh : hooks.AnswerAlike hooks' s s') :
    Run.Both (Twin hooks hooks') TwinEnd (Run.afterInterpret env hooks s d back ts r)
      (Run.afterInterpret (env.collecting on after) hooks' s' d back ts r') := by
  have hall : ∀ t ∈ Task.interpret d back :: ts, OnMachine t := List.forall_mem_cons.mpr ⟨trivial, hts⟩
  rcases hj.cases with ⟨fl, t, k', c', rfl, rfl, T, hT⟩ | ⟨e, t, k', c', rfl, rfl, he, hs⟩
  · cases fl with
    | next => exact .running (.mk (hT.congr rfl rfl) (.machine hall) hh)
    | jump target => exact .running (.mk (hT.congr rfl rfl) (.machine hall) hh)
    | call f => exact callFromStream_twin hT hall hh f
    | returned =>
      by_cases hd : t.frames.length ≤ d
      · have hd' : (t.onHeap k' c').frames.length ≤ d := hd
        simp only [Run.afterInterpret, if_pos hd, if_pos hd']
        exact leave_twin _ hT hts hh
      · have hd' : ¬ (t.onHeap k' c').frames.length ≤ d := hd
        simp only [Run.afterInterpret, if_neg hd, if_neg hd']
        exact .running (.mk hT (.machine hall) hh)
    | stop => exact leave_twin _ hT hts hh
  · exact fail_twin hs he

/-- Where control goes after an instruction of integrated code. -/
theorem afterIntegrated_twin {b : CompiledBody} {pc : Nat}
    {r r' : EStateM.Result Fault Machine Flow} (hj : Joint S Grown r r')
    (hts : ∀ t ∈ ts, OnMachine t) (hh : hooks.AnswerAlike hooks' s s') :
    Run.Both (Twin hooks hooks') TwinEnd (Run.afterIntegrated env hooks s b pc ts r)
      (Run.afterIntegrated (env.collecting on after) hooks' s' b pc ts r') := by
  have hall : ∀ pc', ∀ t ∈ Task.integrated b pc' :: ts, OnMachine t :=
    fun pc' => List.forall_mem_cons.mpr ⟨trivial, hts⟩
  rcases hj.cases with ⟨fl, t, k', c', rfl, rfl, T, hT⟩ | ⟨e, t, k', c', rfl, rfl, he, hs⟩
  · cases fl with
    | next => exact .running (.mk hT (.machine (hall _)) hh)
    | jump target => exact .running (.mk hT (.machine (hall _)) hh)
    | call f => exact call_twin hT (hall _) hh f
    | returned => exact resume_twin hT hts hh
    | stop => exact resume_twin hT hts hh
  · exact fail_twin hs he

/-- One step of interpreting the stream. -/
theorem stepInterpret_twin {d : Nat} {back : Option Nat} (h : Shares S m k)
    (hts : ∀ t ∈ ts, OnMachine t) (hh : hooks.AnswerAlike hooks' s s') :
    Run.Both (Twin hooks hooks') TwinEnd (Run.step env hooks ⟨m, s, .interpret d back :: ts⟩)
      (Run.step (env.collecting on after) hooks' ⟨m.onHeap k c, s', .interpret d back :: ts⟩) := by
  cases hstop : m.stop with
  | some st =>
    have hleft : m.stopped = true := by simp [Machine.stopped, hstop]
    have hright : (m.onHeap k c).stopped = true := hleft
    simp only [Run.step, Run.stepInterpret, hleft, hright, if_true]
    exact leave_twin _ h hts hh
  | none =>
    obtain ⟨T, k', c', hT, hright⟩ :=
      h.maybeCollect env.settings (env.collecting on after).settings c
    have hstop' : (m.onHeap k c).stop = none := hstop
    have hfetch : (env.collecting on after).program.code[
          ((m.onHeap k c).maybeCollect (env.collecting on after).settings).ip]? =
        env.program.code[(m.maybeCollect env.settings).ip]? := by
      rw [hright]
      rfl
    cases hx : env.program.code[(m.maybeCollect env.settings).ip]? with
    | none =>
      rw [Run.step_ranOut hstop hx, Run.step_ranOut hstop' (hfetch.trans hx), hright]
      exact leave_twin (m := { m.maybeCollect env.settings with stop := some .ranOut }) _
        (hT.congr rfl rfl) hts hh
    | some x =>
      rw [Run.step_interpret hstop hx, Run.step_interpret hstop' (hfetch.trans hx), hright]
      have hsame : Machine.interpret (env.collecting on after) x = Machine.interpret env x := rfl
      rw [hsame]
      exact afterInterpret_twin (Machine.interpret_blind env x _ k' c' hT) hts hh

/-- One step of integrated code. -/
theorem stepIntegrated_twin {b : CompiledBody} {pc : Nat} (h : Shares S m k)
    (hts : ∀ t ∈ ts, OnMachine t) (hh : hooks.AnswerAlike hooks' s s') :
    Run.Both (Twin hooks hooks') TwinEnd (Run.step env hooks ⟨m, s, .integrated b pc :: ts⟩)
      (Run.step (env.collecting on after) hooks' ⟨m.onHeap k c, s', .integrated b pc :: ts⟩) := by
  cases hx : b.code[pc]? with
  | none =>
    have hj := Machine.blind_leave .retVoid (v := none) (by simp) m k c h
    simp only [Run.step, Run.stepIntegrated, hx]
    rcases hj.cases with ⟨f, t, k', c', hr, hr', hp⟩ | ⟨e, t, k', c', hr, hr', he, hs⟩ <;> rw [hr, hr']
    · exact resume_twin hp.2 hts hh
    · exact fail_twin hs he
  | some x =>
    obtain ⟨T, k', c', hT, hright⟩ :=
      h.maybeCollect env.settings (env.collecting on after).settings c
    rw [Run.step_integrated hx, Run.step_integrated hx, hright]
    have hsame : Machine.integrated (env.collecting on after) b.func x =
      Machine.integrated env b.func x := rfl
    rw [hsame]
    exact afterIntegrated_twin (Machine.integrated_blind env b.func x _ k' c' hT) hts hh

theorem rejoin_collecting (env : Env) (on : Bool) (after : Nat) (d : Context) :
    Machine.rejoin (env.collecting on after).settings d = Machine.rejoin env.settings d := by
  have hwrite : ∀ vs ks, Machine.writeBack (env.collecting on after).settings vs ks =
      Machine.writeBack env.settings vs ks := by
    intro vs ks
    induction ks with
    | nil => rfl
    | cons j ks ih =>
      unfold Machine.writeBack
      rw [ih]
      rfl
  unfold Machine.rejoin
  rw [hwrite]

/-- One step of isolated code. -/
theorem stepIsolated_twin {b : CompiledBody} {pc : Nat} {d : Context} (h : Shares S m k)
    (hd : d.Within S) (hts : ∀ t ∈ ts, OnMachine t) (hh : hooks.AnswerAlike hooks' s s') :
    Run.Both (Twin hooks hooks') TwinEnd (Run.step env hooks ⟨m, s, .isolated b pc d :: ts⟩)
      (Run.step (env.collecting on after) hooks' ⟨m.onHeap k c, s', .isolated b pc d :: ts⟩) := by
  have hstep := Context.step_within hd b.code pc
  simp only [Run.step, Run.stepIsolated]
  cases hc : Context.step b.code pc d with
  | on pc' d' =>
    rw [hc] at hstep
    exact .running (.mk h (.isolated hstep hts) hh)
  | failed e d' =>
    rw [hc] at hstep
    exact fail_twin (m := m.printAll d'.output) (h.congr rfl rfl) hstep
  | ended d' =>
    rw [hc] at hstep
    have hprinted : Shares S (m.printAll d'.output) k := h.congr rfl rfl
    have hj := Machine.blind_rejoin env.settings hstep (m.printAll d'.output) k c hprinted
    have hprint : (m.onHeap k c).printAll d'.output = (m.printAll d'.output).onHeap k c := rfl
    simp only [Run.endIsolated]
    rw [rejoin_collecting, hprint]
    rcases hj.cases with ⟨u, t, k', c', hr, hr', hp⟩ | ⟨e, t, k', c', hr, hr', he, hs⟩ <;> rw [hr, hr']
    · exact resume_twin hp.2 hts hh
    · exact fail_twin hs he

/-- **The two runs go in step.** -/
theorem step_twin (r : Run σ) (t : Run τ) (h : Twin hooks hooks' r t) :
    Run.Both (Twin hooks hooks') TwinEnd (Run.step env hooks r)
      (Run.step (env.collecting on after) hooks' t) := by
  obtain ⟨h, held, hh⟩ := h
  rename_i S m k c s s' ts
  cases ts with
  | nil => exact .ended (.mk h fun x hx => by cases hx)
  | cons u ts =>
    cases u with
    | interpret d back => exact stepInterpret_twin h held.around hh
    | integrated b pc => exact stepIntegrated_twin h held.around hh
    | isolated b pc d =>
      cases held with
      | machine hall => exact (hall _ (List.mem_cons_self ..)).elim
      | isolated hd hts => exact stepIsolated_twin h hd hts hh

/-- Nothing is known at the start. -/
theorem boot_twin (env : Env) (on : Bool) (after : Nat) (hh : hooks.AnswerAlike hooks' s s')
    (out : Array String) :
    Twin hooks hooks' (Run.boot env s out) (Run.boot (env.collecting on after) s' out) := by
  have hsound : ({} : Heap).Sound := fun a o ho => by cases ho
  have hshares : Shares ∅ (Machine.boot env out) {} := by
    refine ⟨⟨rfl, rfl, fun a ha => absurd ha (Set.notMem_empty a), hsound, hsound⟩, fun v hv => ?_⟩
    simp only [Machine.mem_roots, Machine.boot, List.mem_singleton] at hv
    rcases hv with hv | ⟨f, rfl, hv⟩ | hv
    · cases hv
    · exact Value.within_of_mem_zeros hv
    · exact Value.within_of_mem_zeros hv
  exact .mk (c := {}) hshares (.machine (by simp [OnMachine])) hh

end Collections

open Collections in
/-- **Collections cannot be seen.** However often the heap is collected, a run
ends if and only if it ends with any other choice, with the same result or the
same failure, the same output, operands, frames and globals; as many objects
were allocated, and what can be reached from the machine is the same in both
heaps. -/
theorem collection_unobservable (env : Env) (on : Bool) (after : Nat) {hooks : Hooks σ}
    {hooks' : Hooks τ} {s : σ} {s' : τ} (hh : hooks.AnswerAlike hooks' s s') (out : Array String) :
    ((∃ fuel e, env.run hooks s out fuel = some e) ↔
      ∃ fuel f, (env.collecting on after).run hooks' s' out fuel = some f) ∧
    ∀ i j e f, env.run hooks s out i = some e →
      (env.collecting on after).run hooks' s' out j = some f →
      e.result = f.result ∧ e.machine.output = f.machine.output ∧
      e.machine.stack = f.machine.stack ∧ e.machine.frames = f.machine.frames ∧
      e.machine.globals = f.machine.globals ∧ e.machine.heap.total = f.machine.heap.total ∧
      ∀ a, (e.machine.heap.Reaches e.machine.roots a ↔ f.machine.heap.Reaches f.machine.roots a) ∧
        (e.machine.heap.Reaches e.machine.roots a →
          ∃ o, e.machine.heap.get? a = some o ∧ f.machine.heap.get? a = some o) := by
  obtain ⟨hends, hagree⟩ := Run.lockstep step_twin (.running (boot_twin env on after hh out))
  refine ⟨?_, fun i j e f he hf => ?_⟩
  · rw [exists_comm,
      exists_comm (p := fun fuel f => (env.collecting on after).run hooks' s' out fuel = some f)]
    exact hends
  · obtain ⟨h, -⟩ := hagree e f ⟨i, he⟩ ⟨j, hf⟩
    refine ⟨rfl, rfl, rfl, rfl, rfl, h.heaps.total, fun a => ⟨⟨?_, ?_⟩, fun ha => ?_⟩⟩
    · exact h.heaps.reaches_right h.roots
    · exact h.heaps.symm.reaches_right h.roots
    · obtain ⟨o, hleft, hright, -⟩ := h.heaps.object a (h.heaps.reaches h.roots ha)
      exact ⟨o, hleft, hright⟩

namespace Collections

/-- Three arrays: the first refers to the last, and the second is dropped. Run
without collections. -/
def dropping : Env where
  program :=
    { code :=
        [⟨.pushInt, some 1⟩, ⟨.allocArray, none⟩, ⟨.storeGlobal, some 0⟩,
         ⟨.pushInt, some 2⟩, ⟨.allocArray, none⟩, ⟨.pop, none⟩,
         ⟨.pushInt, some 1⟩, ⟨.allocArray, none⟩, ⟨.storeGlobal, some 1⟩,
         ⟨.loadGlobal, some 0⟩, ⟨.pushInt, some 0⟩, ⟨.loadGlobal, some 1⟩, ⟨.storeElem, none⟩,
         ⟨.loadGlobal, some 1⟩, ⟨.pushInt, some 0⟩, ⟨.pushInt, some 7⟩, ⟨.storeElem, none⟩,
         ⟨.pushBool false, none⟩, ⟨.storeGlobal, some 1⟩,
         ⟨.loadGlobal, some 0⟩, ⟨.pushInt, some 0⟩, ⟨.loadElem, none⟩,
         ⟨.pushInt, some 0⟩, ⟨.loadElem, none⟩, ⟨.printInt, none⟩, ⟨.halt, none⟩] }
  settings := { collecting := false, globals := 2 }

end Collections

open Collections in
/-- Collected after every allocation, the run still finds the last array through
the first. -/
theorem collection_unobservable_dropping :
    ∃ fuel f, (dropping.collecting true 0).run Hooks.none () #[] fuel = some f ∧
      f.result = .ok ⟨0, none⟩ ∧ f.machine.output = #["7"] ∧
      f.machine.globals = [.ref 0, .bool false] ∧ f.machine.heap.total = 3 ∧
      f.machine.heap.get? 2 = some ⟨.array, [.int 7]⟩ := by
  obtain ⟨e, he, hresult, houtput, hglobals, htotal, hfirst, hlast⟩ :
      ∃ e, dropping.run Hooks.none () #[] 40 = some e ∧ e.result = .ok ⟨0, none⟩ ∧
        e.machine.output = #["7"] ∧ e.machine.globals = [.ref 0, .bool false] ∧
        e.machine.heap.total = 3 ∧ e.machine.heap.get? 0 = some ⟨.array, [.ref 2]⟩ ∧
        e.machine.heap.get? 2 = some ⟨.array, [.int 7]⟩ :=
    ⟨_, rfl, rfl, by decide, rfl, rfl, rfl, rfl⟩
  obtain ⟨hends, hagree⟩ :=
    collection_unobservable dropping true 0 (Hooks.AnswerAlike.refl Hooks.none ()) #[]
  obtain ⟨fuel, f, hf⟩ := hends.mp ⟨40, e, he⟩
  obtain ⟨hresult', houtput', -, -, hglobals', htotal', hreach⟩ := hagree 40 fuel e f he hf
  have hroot : .ref 0 ∈ e.machine.roots :=
    Machine.mem_roots.mpr (Or.inr (Or.inr (by rw [hglobals]; exact List.mem_cons_self ..)))
  have hreached : e.machine.heap.Reaches e.machine.roots 2 :=
    (Heap.Reaches.root hroot).slot hfirst (List.mem_cons_self ..)
  obtain ⟨o, ho, ho'⟩ := (hreach 2).2 hreached
  refine ⟨fuel, f, hf, hresult' ▸ hresult, houtput' ▸ houtput, hglobals' ▸ hglobals, htotal' ▸ htotal, ?_⟩
  rw [ho', ← ho, hlast]

open Collections in
/-- **References lead to objects.** In every state of every run, whatever compiled
code serves its calls, and in the state it ends in, every reference leads to an
object; so no run fails for want of one. -/
theorem no_dangling_reference (env : Env) (hooks : Hooks σ) (s : σ) (out : Array String) :
    (∀ r, Run.Reach env hooks (Run.boot env s out) r → r.machine.Intact) ∧
    ∀ fuel e, env.run hooks s out fuel = some e → e.machine.Intact ∧
      ∀ x, e.result = .error x → ∀ a, x.root ≠ .noSuchObject a := by
  -- the run goes in step with itself
  have hboot : Twin hooks hooks (Run.boot env s out) (Run.boot env s out) :=
    boot_twin env env.settings.collecting env.settings.collectAfter (.refl hooks s) out
  have hstep : ∀ r t, Twin hooks hooks r t →
      Run.Both (Twin hooks hooks) TwinEnd (Run.step env hooks r) (Run.step env hooks t) :=
    @step_twin σ σ env env.settings.collecting env.settings.collectAfter hooks hooks
  refine ⟨fun r hr => ?_, fun fuel e he => ?_⟩
  · obtain ⟨t, ht⟩ := Run.Passes.related hstep (.running hboot) ⟨_, rfl, hr⟩
    exact ht.intact
  · obtain ⟨-, hagree⟩ := Run.lockstep hstep (.running hboot)
    have hend := hagree e e ⟨fuel, he⟩ ⟨fuel, he⟩
    refine ⟨hend.intact, fun x hx a ha => ?_⟩
    have hpresent := hend.present hx
    rw [ha] at hpresent
    cases hpresent

end StackMachine
