/-
# Isolated code agrees with the stream

Isolated code serves a call on a stack and globals of its own. Put together with
the machine it was called from (`Machine.joined`), they are the machine that the
stream would have at the same instruction, step by step; so the call ends if and
only if the stream would return from it, and leaves the same behind
(`isolated_agrees`).

The operands of the caller are below those of the call and stay out of reach
because the body passed the check; no collection comes due, because isolated code
allocates nothing.
-/
import Mathlib
import StackMachine.Proofs.Compilation
import StackMachine.Proofs.Control
import StackMachine.Proofs.Runs
import StackMachine.Proofs.Visible
import StackMachine.Proofs.WriteBack

namespace StackMachine

/-- The machine of a caller with the call put back onto it: at the place `ip`, to
return to `ret`. -/
def Machine.joined (m : Machine) (ret ip : Nat) (c : Context) : Machine :=
  { m with
    ip := ip
    stack := c.stack ++ m.stack
    frames := ⟨some c.func, some ret, m.stack.length, c.locals⟩ :: m.frames
    globals := c.globals
    output := m.output ++ c.output }

namespace Isolation

variable {env : Env} {m : Machine} {ret ip : Nat} {c : Context} {x : Instr}

/-! ### Instructions that move data -/

/-- What an operation does to the context, another does to the machine that it is
put back onto. -/
def Mirrored (m : Machine) (ret ip : Nat) (f : Context.Exec Flow) (g : Exec Unit) (c : Context) :
    Prop :=
  Gives f c (fun _ d => g (m.joined ret ip c) = .ok () (m.joined ret ip d))
    (fun e d => ∃ n, g (m.joined ret ip c) = .error e n ∧ n.output = m.output ++ d.output)

section Mirrored

variable {α : Type} {op : Opcode} {v : Value} {vs : List Value}

theorem mirrored_lift (r : Except Fault α) {f : α → Context.Exec Flow} {g : α → Exec Unit}
    (h : ∀ a, r = .ok a → Mirrored m ret ip (f a) (g a) c) :
    Mirrored m ret ip (liftM r >>= f) (liftM r >>= g) c := by
  cases r with
  | ok a => exact h a rfl
  | error e => exact ⟨m.joined ret ip c, rfl, rfl⟩

theorem mirrored_get {f : Context → Context.Exec Flow} {g : Exec Unit}
    (h : Mirrored m ret ip (f c) g c) : Mirrored m ret ip (get >>= f) g c := h

theorem pop_joined (hst : c.stack = v :: vs) (op : Opcode) :
    Machine.pop op (m.joined ret ip c) = .ok v (m.joined ret ip { c with stack := vs }) := by
  simp only [Machine.pop, Machine.joined, hst, List.cons_append]

theorem mirrored_pop (hst : c.stack = v :: vs) {f : Value → Context.Exec Flow}
    {g : Value → Exec Unit} (h : Mirrored m ret ip (f v) (g v) { c with stack := vs }) :
    Mirrored m ret ip (Context.pop op >>= f) (Machine.pop op >>= g) c := by
  unfold Mirrored Gives at h ⊢
  rw [bind_of_ok (Context.pop_cons hst op), bind_of_ok (pop_joined hst op)]
  exact h

theorem mirrored_peek (hst : c.stack = v :: vs) {f : Value → Context.Exec Flow}
    {g : Value → Exec Unit} (h : Mirrored m ret ip (f v) (g v) c) :
    Mirrored m ret ip (Context.peek op >>= f) (Machine.peek op >>= g) c := by
  have hc : Context.peek op c = .ok v c := by simp only [Context.peek, hst]
  have hm : Machine.peek op (m.joined ret ip c) = .ok v (m.joined ret ip c) := by
    simp only [Machine.peek, Machine.joined, hst, List.cons_append]
  unfold Mirrored Gives at h ⊢
  rw [bind_of_ok hc, bind_of_ok hm]
  exact h

theorem mirrored_push (v : Value) :
    Mirrored m ret ip (Context.push v >>= fun _ => pure .next) (Machine.push v) c := rfl

theorem mirrored_print (line : String) :
    Mirrored m ret ip (Context.print line >>= fun _ => pure .next) (Machine.print line) c := by
  show EStateM.Result.ok () _ = EStateM.Result.ok () _
  simp only [Machine.joined, Array.append_push]

/-- A local is one of the call's. -/
theorem storeLocal_joined {n : Int64} {k : Nat} (hk : slot .local n c.locals.length = .ok k)
    (v : Value) : Machine.storeLocal n v (m.joined ret ip c) =
      .ok () (m.joined ret ip { c with locals := c.locals.set k v }) := by
  show (liftM (slot .local n c.locals.length) >>= _ : Exec Unit) (m.joined ret ip c) = _
  rw [hk]
  rfl

theorem storeLocal_missing {n : Int64} {e : Fault} (hk : slot .local n c.locals.length = .error e)
    (v : Value) : Machine.storeLocal n v (m.joined ret ip c) = .error e (m.joined ret ip c) := by
  show (liftM (slot .local n c.locals.length) >>= _ : Exec Unit) (m.joined ret ip c) = _
  rw [hk]
  rfl

end Mirrored

/-- What an instruction does to the context, it does to the machine. -/
theorem exec_joined {s : Settings} {pops pushes : Nat} (hd : x.op.movesData = true)
    (hiso : x.op.isolable = true) (he : Instr.fixedEffect x.op = some (pops, pushes))
    (hen : pops ≤ c.stack.length) (hs : c.maxGlobals = s.maxGlobals) :
    Mirrored m ret ip (Context.exec x) (Machine.exec s x) c := by
  have hcons : ∀ a b, Instr.fixedEffect x.op = some (a + 1, b) → ∃ v vs, c.stack = v :: vs := by
    intro a b hab
    obtain ⟨rfl, -⟩ := Prod.mk.inj (Option.some.inj (he.symm.trans hab))
    exact List.length_pos_iff_exists_cons.mp (by omega)
  unfold Context.exec Machine.exec
  cases hop : x.op with
  | jump | call | ret | retVoid | halt => rw [hop] at hd; cases hd
  | allocArray | loadElem | storeElem | allocStruct | loadField | storeField | new =>
    rw [hop] at hiso
    cases hiso
  | pushInt => exact mirrored_lift _ fun n _ => mirrored_push _
  | pushBool b => exact mirrored_push _
  | pop =>
    obtain ⟨v, vs, hst⟩ := hcons 0 0 (by rw [hop]; rfl)
    exact mirrored_pop hst rfl
  | dup =>
    obtain ⟨v, vs, hst⟩ := hcons 0 2 (by rw [hop]; rfl)
    exact mirrored_peek hst (mirrored_push v)
  | unary u =>
    obtain ⟨v, vs, hst⟩ := hcons 0 1 (by rw [hop]; rfl)
    exact mirrored_pop hst (mirrored_lift _ fun w _ => mirrored_push w)
  | printInt =>
    obtain ⟨v, vs, hst⟩ := hcons 0 0 (by rw [hop]; rfl)
    simp only [Machine.popInt, bind_assoc]
    exact mirrored_pop hst (mirrored_lift _ fun n _ => mirrored_print _)
  | printBool =>
    obtain ⟨v, vs, hst⟩ := hcons 0 0 (by rw [hop]; rfl)
    exact mirrored_pop hst (mirrored_print _)
  | binary b =>
    obtain ⟨r, rest, hst⟩ := hcons 1 1 (by rw [hop]; rfl)
    rw [hop] at he
    cases he
    rw [hst] at hen
    obtain ⟨l, st, rfl⟩ := List.length_pos_iff_exists_cons.mp (Nat.le_of_succ_le_succ hen)
    exact mirrored_pop hst (mirrored_pop rfl (mirrored_lift _ fun w _ => mirrored_push w))
  | loadLocal =>
    refine mirrored_lift _ fun n _ => ?_
    simp only [Machine.loadLocal, bind_assoc, pure_bind]
    exact mirrored_get (mirrored_lift _ fun k _ => mirrored_push _)
  | loadGlobal =>
    refine mirrored_lift _ fun n _ => ?_
    simp only [Machine.loadGlobal, bind_assoc, pure_bind]
    exact mirrored_get (mirrored_lift _ fun k _ => mirrored_push _)
  | storeGlobal =>
    obtain ⟨v, vs, hst⟩ := hcons 0 0 (by rw [hop]; rfl)
    refine mirrored_lift _ fun n _ => mirrored_pop hst (mirrored_get ?_)
    simp only [Machine.storeGlobal, ← hs]
    exact mirrored_lift _ fun k _ => rfl
  | storeLocal =>
    -- the slot is looked up before the value is taken, and after it in the stream
    obtain ⟨v, vs, hst⟩ := hcons 0 0 (by rw [hop]; rfl)
    refine mirrored_lift _ fun n _ => mirrored_get ?_
    cases hk : slot .local n c.locals.length with
    | error e =>
      refine ⟨m.joined ret ip { c with stack := vs }, ?_, rfl⟩
      rw [bind_of_ok (pop_joined hst _)]
      exact storeLocal_missing (c := { c with stack := vs }) hk v
    | ok k => exact mirrored_pop hst (storeLocal_joined (c := { c with stack := vs }) hk v)

/-! ### The start of the call -/

theorem popArgs_ok {n : Nat} (h : n ≤ m.stack.length) :
    Machine.popArgs n m = .ok (m.stack.take n).reverse { m with stack := m.stack.drop n } := by
  induction n generalizing m with
  | zero => rfl
  | succ n ih =>
    obtain ⟨v, vs, hst⟩ := List.length_pos_iff_exists_cons.mp (show 0 < m.stack.length by omega)
    have hpop := Machine.pop_cons hst .call
    have hlen : n ≤ vs.length := by
      rw [hst, List.length_cons] at h
      omega
    unfold Machine.popArgs
    rw [bind_of_ok hpop, bind_of_ok (ih (m := { m with stack := vs }) hlen), hst]
    simp only [List.take_succ_cons, List.reverse_cons, List.drop_succ_cons]
    rfl

/-- Nothing has been allocated that calls for a collection. -/
def Quiet (s : Settings) (m : Machine) : Prop :=
  (s.collecting && decide (s.collectAfter < m.heap.sinceCollection)) = false

theorem quiet_maybeCollect (s : Settings) (m : Machine) : Quiet s (m.maybeCollect s) := by
  unfold Quiet Machine.maybeCollect
  split_ifs with h
  · simp [Machine.collect, Collector.collect]
  · simpa using h

theorem Quiet.maybeCollect {s : Settings} (h : Quiet s m) : m.maybeCollect s = m := by
  unfold Machine.maybeCollect
  unfold Quiet at h
  rw [if_neg (by simpa using h)]

/-! ### Two ways to serve a call -/

/-- Code of a function that may run apart from the machine. -/
structure Served (env : Env) (b : CompiledBody) (f : Function) (heights : List (Option Nat))
    (peak : Nat) : Prop where
  fits : env.program.Fits
  plain : env.program.Plain b f heights peak
  returning : env.program.Returning b.func
  isolable : ∀ x ∈ b.code, x.op.isolable = true

/-- A context in the middle of a call that the machine `m` has made. -/
structure Within (env : Env) (heights : List (Option Nat)) (m : Machine) (pc : Nat) (c : Context) :
    Prop where
  upright : Context.Upright heights pc c
  written : c.Written m.globals
  max : c.maxGlobals = env.settings.maxGlobals
  result : c.result = none

/-- Isolated code at work for the caller `m`, and the stream in its place. -/
inductive Sim (env : Env) (b : CompiledBody) (f : Function) (heights : List (Option Nat))
    (m : Machine) (ret : Nat) : Run Unit → Run Unit → Prop
  | mk {pc : Nat} {c : Context} (within : Within env heights m pc c) :
      Sim env b f heights m ret ⟨m, (), [.isolated b pc c]⟩
        ⟨m.joined ret (f.entry + pc) c, (), [.interpret m.frames.length none]⟩

/-- How the two end alike. -/
structure Agree (e f : Ending Unit) : Prop where
  failure : e.failure.map Failure.site = f.failure.map Failure.site
  output : e.machine.output = f.machine.output
  success : e.failure = none → e.machine.stack = f.machine.stack ∧
    e.machine.frames = f.machine.frames ∧ e.machine.globals = f.machine.globals ∧
    e.machine.heap = f.machine.heap ∧ e.machine.collector = f.machine.collector
  fault : ∀ x, e.failure = some x → ∃ ip c, x.site = (some ip, c) ∧ c.structural = false

/-- Where control goes after an instruction of isolated code. -/
def afterIsolated (env : Env) (m : Machine) (b : CompiledBody) (pc : Nat) (c : Context) :
    EStateM.Result Fault Context Flow → Progress Unit
  | .error e d => Run.fail env ⟨m.printAll d.output, (), [.isolated b pc c]⟩ e
  | .ok .next d => .running ⟨m, (), [.isolated b (pc + 1) d]⟩
  | .ok (.jump t) d => .running ⟨m, (), [.isolated b t d]⟩
  | .ok _ d => Run.endIsolated env ⟨m, (), [.isolated b pc c]⟩ d []

theorem step_isolated {b : CompiledBody} {pc : Nat} (hx : b.code[pc]? = some x) :
    Run.step env Hooks.none ⟨m, (), [.isolated b pc c]⟩ =
      afterIsolated env m b pc c (Context.exec x c) := by
  simp only [Run.step, Run.stepIsolated, Context.step, hx]
  rcases Context.exec x c with ⟨fl, d⟩ | ⟨e, d⟩
  · cases fl <;> rfl
  · rfl

section Steps

variable {b : CompiledBody} {f : Function} {heights : List (Option Nat)} {peak pc : Nat}

/-- The fault of an instruction, on both sides. -/
theorem fail_both {e : Fault} {d : Context} {n : Machine} (hserved : Served env b f heights peak)
    (hx : b.code[pc]? = some x) (hip : n.ip = f.entry + pc) (hout : n.output = m.output ++ d.output)
    (he : e.structural = false) :
    Run.Both (Sim env b f heights m ret) Agree
      (Run.fail env ⟨m.printAll d.output, (), [.isolated b pc c]⟩ e)
      (Run.fail env ⟨n, (), [.interpret m.frames.length none]⟩ e) := by
  have hsite := hserved.plain.site? hx
  have hfetch := hserved.plain.verified.fetch hx
  have hstream : (Task.interpret m.frames.length none).site? env n =
      some (f.entry + pc, x.based f.entry) := by
    rw [Task.site?, hip, hfetch, Option.map_some]
  rw [Run.fail, Run.fail, Run.carry_fault hstream,
    Run.carry_fault (t := .isolated b pc c) (m := m.printAll d.output) hsite]
  refine .ended ⟨rfl, hout.symm, nofun, fun y hy => ?_⟩
  cases hy
  exact ⟨_, _, rfl, he⟩

theorem Within.step (h : Within env heights m pc c) (hserved : Served env b f heights peak)
    {pc' : Nat} {d : Context} (hs : Context.step b.code pc c = .on pc' d) :
    Within env heights m pc' d := by
  obtain ⟨x, -, hr⟩ := Context.step_on hs
  have hkeep := Context.exec_written h.written x
  unfold Gives at hkeep
  have hup := h.upright.step hserved.plain.verified.accepted hs
  rcases hr with ⟨hr, -⟩ | hr <;> rw [hr] at hkeep <;> obtain ⟨hw, hmax, hres⟩ := hkeep
  · exact ⟨hup, hw, hmax.trans h.max, (hres nofun).trans h.result⟩
  · exact ⟨hup, hw, hmax.trans h.max, (hres nofun).trans h.result⟩

/-- A data instruction, on both sides. -/
theorem data_both {pops pushes : Nat} (hserved : Served env b f heights peak)
    (h : Within env heights m pc c) (hx : b.code[pc]? = some x) (hd : x.op.movesData = true)
    (ho : x.op.needsOperand = true → x.operand.isSome = true)
    (he : Instr.fixedEffect x.op = some (pops, pushes)) (hen : pops ≤ c.stack.length) :
    Run.Both (Sim env b f heights m ret) Agree
      (afterIsolated env m b pc c (Context.exec x c))
      (Run.afterInterpret env Hooks.none () m.frames.length none []
        (Machine.interpret env x (m.joined ret (f.entry + pc) c))) := by
  have hmir : Mirrored m ret (f.entry + pc) (Context.exec x) (Machine.exec env.settings x) c :=
    exec_joined hd (hserved.isolable x (List.mem_of_getElem? hx)) he hen h.max
  have hlen : pops ≤ (m.joined ret (f.entry + pc) c).stack.length := by
    simp only [Machine.joined, List.length_append]
    omega
  have hflow := Context.exec_ok x c
  have heffect := Machine.exec_effect (s := env.settings) hd ho he _ hlen
  have houtline := Machine.exec_outline env.settings x (m.joined ret (f.entry + pc) c)
  unfold Mirrored at hmir
  unfold Gives at hmir hflow heffect houtline
  rw [Machine.interpret_data hd]
  rcases hr : Context.exec x c with ⟨fl, d⟩ | ⟨e, d⟩
  · rw [hr] at hmir hflow
    have hfl := hflow.1.next_of_data hd
    subst hfl
    rw [bind_of_ok hmir]
    exact .running (.mk (h.step hserved (by simp only [Context.step, hx, hr])))
  · rw [hr] at hmir
    obtain ⟨n, hn, hout⟩ := hmir
    rw [hn] at heffect houtline
    rw [bind_of_error hn]
    have hip : n.ip = f.entry + pc := Machine.ip_of_outline houtline
    exact fail_both hserved hx hip hout heffect

/-- A jump, on both sides. -/
theorem jump_both {w : Branch} {n : Int64} {t k : Nat} (hserved : Served env b f heights peak)
    (h : Within env heights m pc c) (hx : b.code[pc]? = some x) (hop : x.op = .jump w)
    (hn : x.operand = some n) (ht : Instr.place? n = some t) (hland : heights[t]? = some (some k))
    (hen : ∀ b, w = .on b → 1 ≤ c.stack.length) :
    Run.Both (Sim env b f heights m ret) Agree
      (afterIsolated env m b pc c (Context.exec x c))
      (Run.afterInterpret env Hooks.none () m.frames.length none []
        (Machine.interpret env (x.based f.entry) (m.joined ret (f.entry + pc) c))) := by
  have hexec := Context.exec_jump (c := c) hop hn ht
  rw [Machine.interpret_based hserved.fits hserved.plain.verified hop hn ht hland]
  cases w with
  | always =>
    have hs : Context.step b.code pc c = .on t c := by
      simp only [Context.step, hx, hexec, Context.branch]
    rw [hexec]
    exact .running (.mk (h.step hserved hs))
  | on q =>
    obtain ⟨v, vs, hst⟩ := List.length_pos_iff_exists_cons.mp (hen q rfl)
    simp only [Context.branch, hst] at hexec
    rw [hexec, Machine.branch_on, bind_of_ok (pop_joined hst _)]
    by_cases hv : v.truth = q
    · rw [if_pos hv] at hexec ⊢
      have hs : Context.step b.code pc c = .on t { c with stack := vs } := by
        simp only [Context.step, hx, hexec]
      rw [if_pos hv]
      exact .running (.mk (h.step hserved hs))
    · rw [if_neg hv] at hexec ⊢
      have hs : Context.step b.code pc c = .on (pc + 1) { c with stack := vs } := by
        simp only [Context.step, hx, hexec]
      rw [if_neg hv]
      exact .running (.mk (h.step hserved hs))

/-- What isolated code leaves behind. -/
theorem rejoin_ok {d : Context} (hw : d.Written m.globals)
    (hmax : d.maxGlobals = env.settings.maxGlobals) :
    Machine.rejoin env.settings d (m.printAll d.output) =
      .ok () { m with
        stack := d.result.toList ++ m.stack, globals := d.globals
        output := m.output ++ d.output } := by
  unfold Machine.rejoin
  rw [bind_of_ok (hw.writeBack hmax (m := m.printAll d.output) rfl)]
  cases d.result <;> rfl

/-- A return, on both sides. -/
theorem return_both {d : Context} {v : Option Value} (hw : d.Written m.globals)
    (hmax : d.maxGlobals = env.settings.maxGlobals) (hres : d.result = v) (op : Opcode) (ip : Nat) :
    Run.Both (Sim env b f heights m ret) Agree
      (Run.endIsolated env ⟨m, (), [.isolated b pc c]⟩ d [])
      (Run.afterInterpret env Hooks.none () m.frames.length none []
        (Machine.returnWith op v (m.joined ret ip d))) := by
  subst hres
  have hstack : (d.stack ++ m.stack).drop ((d.stack ++ m.stack).length - m.stack.length) = m.stack := by
    rw [List.length_append, Nat.add_sub_cancel, List.drop_left]
  have hframes : (m.joined ret ip d).frames =
      ⟨some d.func, some ret, m.stack.length, d.locals⟩ :: m.frames := rfl
  have hleft : Run.endIsolated env ⟨m, (), [.isolated b pc c]⟩ d [] =
      .ended ⟨none, { m with
        stack := d.result.toList ++ m.stack, globals := d.globals
        output := m.output ++ d.output }, ()⟩ := by
    simp only [Run.endIsolated, rejoin_ok hw hmax, Run.resume]
  rw [hleft, Machine.returnWith_some hframes rfl]
  simp only [Run.afterInterpret, Nat.le_refl, ↓reduceIte, Task.restore, Run.resume]
  refine .ended ⟨rfl, rfl, fun _ => ⟨?_, rfl, rfl, rfl, rfl⟩, fun x hx => ?_⟩
  · exact congrArg (d.result.toList ++ ·) hstack.symm
  · cases hx

/-- **The two ways go in step.** -/
theorem step_both (hserved : Served env b f heights peak) (hstop : m.stop = none)
    (hquiet : Quiet env.settings m) (r t : Run Unit) (h : Sim env b f heights m ret r t) :
    Run.Both (Sim env b f heights m ret) Agree (Run.step env Hooks.none r)
      (Run.step env Hooks.none t) := by
  cases h with
  | @mk pc c h =>
    obtain ⟨x, hx, hc⟩ := h.upright.checked hserved.plain.verified.accepted
    have hquiet' : Quiet env.settings (m.joined ret (f.entry + pc) c) := hquiet
    have hfetch := hserved.plain.verified.fetch hx
    have hstop' : (m.joined ret (f.entry + pc) c).stop = none := hstop
    have hfetch' : env.program.code[
        ((m.joined ret (f.entry + pc) c).maybeCollect env.settings).ip]? = some (x.based f.entry) := by
      rw [hquiet'.maybeCollect]
      exact hfetch
    rw [step_isolated hx, Run.step_interpret hstop' hfetch', hquiet'.maybeCollect]
    cases hc with
    | data pops pushes hd ho he hen _ =>
      rw [Instr.based_of_data hd]
      exact data_both hserved h hx hd ho he hen
    | jump n t hop hn ht hland => exact jump_both hserved h hx hop hn ht hland nofun
    | branch q n t hop hn ht hen _ hland =>
      exact jump_both hserved h hx hop hn ht hland fun _ _ => hen
    | call _ _ _ hop =>
      have := hserved.isolable x (List.mem_of_getElem? hx)
      rw [hop] at this
      cases this
    | halt hop => exact absurd hop (hserved.returning.not_halt hserved.plain hx)
    | ret hop hen =>
      obtain ⟨v, vs, hst⟩ := List.length_pos_iff_exists_cons.mp hen
      have hw : Context.Written m.globals { c with stack := vs, result := some v } :=
        ⟨h.written.bound, h.written.length, h.written.clean⟩
      rw [Context.exec_ret hop hst, Machine.interpret_ret (by rw [Instr.op_based, hop]),
        bind_of_ok (pop_joined hst .ret)]
      exact return_both hw h.max rfl .ret (f.entry + pc)
    | retVoid hop =>
      rw [Context.exec_retVoid hop, Machine.interpret_retVoid (by rw [Instr.op_based, hop])]
      exact return_both h.written h.max h.result .retVoid (f.entry + pc)

/-- Where the call ends, what it has written may be written back. -/
theorem Within.writeBack (h : Within env heights m pc c) (hserved : Served env b f heights peak)
    {d : Context} (hs : Context.step b.code pc c = .ended d) :
    ∃ n, Machine.writeBack env.settings d.globals d.dirty (m.printAll d.output) = .ok () n := by
  obtain ⟨x, hx, -⟩ := h.upright.checked hserved.plain.verified.accepted
  rcases Context.step_ended hs with hnone | ⟨y, fl, -, hr⟩
  · rw [hx] at hnone
    cases hnone
  · have hkeep := Context.exec_written h.written y
    unfold Gives at hkeep
    rw [hr] at hkeep
    obtain ⟨hw, hmax, -⟩ := hkeep
    exact ⟨_, hw.writeBack (hmax.trans h.max) rfl⟩

/-- The caller, with the arguments of the call taken off its stack. -/
def caller (f : Function) (m : Machine) : Machine := { m with stack := m.stack.drop f.arity }

/-- The context that the call begins with. -/
def start (env : Env) (f : Function) (func : Nat) (m : Machine) : Context where
  func := func
  locals := (m.stack.take f.arity).reverse ++ Value.zeros (f.frameSize - f.arity)
  globals := m.globals
  maxGlobals := env.settings.maxGlobals

/-- A call that is served either way begins in step. -/
theorem begin_both {m : Machine} (hserved : Served env b f heights peak)
    (harity : f.arity ≤ m.stack.length) :
    Run.Both (Sim env b f heights (caller f m) (m.ip + 1)) Agree
      (Run.begin env ⟨m, (), []⟩ (.isolated b f.arity f.frameSize))
      (Run.callFromStream env Hooks.none ⟨m, (), [.interpret m.frames.length none]⟩ b.func) := by
  have hisolate : Machine.isolate env.settings b.func f.arity f.frameSize m =
      .ok (start env f b.func m) (caller f m) := by
    unfold Machine.isolate
    rw [bind_of_ok (popArgs_ok harity)]
    rfl
  have hleft : Run.begin env ⟨m, (), []⟩ (.isolated b f.arity f.frameSize) =
      .running ⟨caller f m, (), [.isolated b 0 (start env f b.func m)]⟩ := by
    simp only [Run.begin, hisolate]
  have hright : Run.callFromStream env Hooks.none ⟨m, (), [.interpret m.frames.length none]⟩ b.func =
      .running ⟨(caller f m).joined (m.ip + 1) (f.entry + 0) (start env f b.func m), (),
        [.interpret (caller f m).frames.length none]⟩ := by
    have hjoined : (caller f m).joined (m.ip + 1) (f.entry + 0) (start env f b.func m) =
        { m with
          ip := f.entry
          stack := m.stack.drop f.arity
          frames := ⟨some b.func, some (m.ip + 1), (m.stack.drop f.arity).length,
            (m.stack.take f.arity).reverse ++ Value.zeros (f.frameSize - f.arity)⟩ :: m.frames } := by
      simp [Machine.joined, caller, start]
    rw [hjoined]
    rw [Run.callFromStream_none, Machine.enter_eq hserved.plain.verified.func,
      if_neg (Nat.not_lt.mpr harity)]
    rfl
  rw [hleft, hright]
  refine .running (.mk ⟨hserved.returning.entry hserved.plain, ⟨?_, rfl, fun _ _ => rfl⟩, rfl, rfl⟩)
  intro k hk
  cases hk

end Steps

end Isolation

open Isolation in
/-- **Isolated code agrees with the stream.** At a call, with the arguments on the
stack and any collection just made, isolated code comes to an end if and only if
the stream returns from the call, and both leave the same behind: the same
machine, or the same fault at the same place, and the same output. The fault is
never one that the check rules out, and writing back never fails. -/
theorem isolated_agrees {env : Env} {i : Nat} {a : Artifact} {f : Function} {m₀ m : Machine}
    (hform : env.settings.form = .isolated) (hplain : env.settings.simplify = false)
    (hfits : env.program.Fits) (hc : env.program.compile env.settings i = .ok a)
    (hret : env.program.Returning i) (hf : env.program.functions[i]? = some f)
    (hm : m = m₀.maybeCollect env.settings) (hstop : m.stop = none)
    (harity : f.arity ≤ m.stack.length) :
    let p := Run.begin env ⟨m, (), []⟩ a
    let q := Run.callFromStream env Hooks.none ⟨m, (), [.interpret m.frames.length none]⟩ i
    ((∃ e, Run.Ends env Hooks.none p e) ↔ ∃ e, Run.Ends env Hooks.none q e) ∧
    (∀ e e', Run.Ends env Hooks.none p e → Run.Ends env Hooks.none q e' → Agree e e') ∧
    ∀ r b pc c d, Run.Passes env Hooks.none p r → r.tasks = [.isolated b pc c] →
      Context.step b.code pc c = .ended d →
      ∃ n, Machine.writeBack env.settings d.globals d.dirty (r.machine.printAll d.output) = .ok () n := by
  intro p q
  obtain ⟨b, g, heights, peak, rfl, rfl, hp, hiso⟩ := Program.compile_isolated hform hplain hc
  obtain rfl : g = f := by
    have := hp.verified.func
    rw [hf] at this
    exact (Option.some.inj this).symm
  have hserved : Served env b g heights peak := ⟨hfits, hp, hret, hiso⟩
  have hquiet : Quiet env.settings (caller g m) := hm ▸ quiet_maybeCollect env.settings m₀
  have hstop' : (caller g m).stop = none := hstop
  have hbegin := begin_both hserved harity
  obtain ⟨hends, hagree⟩ := Run.lockstep (step_both hserved hstop' hquiet) hbegin
  refine ⟨hends, hagree, fun r b' pc c d hr htasks hend => ?_⟩
  obtain ⟨t, ht⟩ := hr.related (step_both hserved hstop' hquiet) hbegin
  cases ht with
  | mk within =>
    cases htasks
    exact within.writeBack hserved hend

namespace Isolation

/-- A function that counts its argument down, prints it and keeps it in a global
that is not there yet. -/
def counting : Env where
  program :=
    { code :=
        [⟨.call, some 0⟩, ⟨.halt, none⟩,
         ⟨.loadLocal, some 0⟩, ⟨.storeGlobal, some 2⟩, ⟨.loadGlobal, some 2⟩, ⟨.printInt, none⟩,
         ⟨.loadLocal, some 0⟩, ⟨.pushInt, some 1⟩, ⟨.binary .sub, none⟩, ⟨.storeLocal, some 0⟩,
         ⟨.loadLocal, some 0⟩, ⟨.jump (.on true), some 2⟩, ⟨.loadGlobal, some 2⟩, ⟨.ret, none⟩]
      functions := [⟨"count", 2, 1, 1, true⟩] }
  settings := { form := .isolated, simplify := false }

/-- A machine about to call it. -/
def calling : Machine := { stack := [.int 2, .int 9], frames := [⟨none, none, 0, []⟩] }

end Isolation

open Isolation in
theorem isolated_agrees_counting :
    ∃ a, counting.program.compile counting.settings 0 = .ok a ∧
      ∃ e, Run.Ends counting Hooks.none (Run.begin counting ⟨calling, (), []⟩ a) e ∧
        e.failure = none ∧ e.machine.stack = [.int 1, .int 9] ∧
        e.machine.globals = [.zero, .zero, .int 1] ∧ e.machine.output = #["2", "1"] := by
  have hsome : (counting.program.compile counting.settings 0).toOption.isSome = true := by
    decide +kernel
  obtain ⟨a, ha⟩ : ∃ a, counting.program.compile counting.settings 0 = .ok a := by
    cases hc : counting.program.compile counting.settings 0 with
    | error e => rw [hc] at hsome; cases hsome
    | ok a => exact ⟨a, rfl⟩
  have hreturning : counting.program.Returning 0 := ⟨_, rfl, by decide, by decide⟩
  have hcollected : calling = calling.maybeCollect counting.settings := rfl
  obtain ⟨hends, hagree, -⟩ := isolated_agrees rfl rfl (by decide) ha hreturning rfl hcollected rfl
    (by decide)
  obtain ⟨s, hs, hok, hstack, hglobals, hprinted⟩ : ∃ s, Run.Ends counting Hooks.none
      (Run.callFromStream counting Hooks.none ⟨calling, (), [.interpret 1 none]⟩ 0) s ∧
      s.failure = none ∧ s.machine.stack = [.int 1, .int 9] ∧
      s.machine.globals = [.zero, .zero, .int 1] ∧ s.machine.output = #["2", "1"] :=
    ⟨_, ⟨40, rfl⟩, rfl, rfl, rfl, by decide⟩
  obtain ⟨e, he⟩ := hends.mpr ⟨s, hs⟩
  have hsame := hagree e s he hs
  have hnone : e.failure = none := by
    have hfailure := hsame.failure
    rw [hok] at hfailure
    exact Option.map_eq_none_iff.mp hfailure
  obtain ⟨hstack', -, hglobals', -, -⟩ := hsame.success hnone
  exact ⟨a, ha, e, he, hnone, hstack'.trans hstack, hglobals'.trans hglobals,
    hsame.output.trans hprinted⟩

end StackMachine
