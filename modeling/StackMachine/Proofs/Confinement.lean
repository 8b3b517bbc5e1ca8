/-
# Control stays inside a body that passed the check

The check of heights follows control through a body: what it has on record is
closed under going on, jumping, and coming back from a call (`Run.Allows`), and
none of it is past the end of the body. So while a call of such a function is
interpreted, the stream is at a place of its body whenever the call itself is
the innermost one, however its own calls are served, and does not run out there
(`Run.body_confined`).

A body with no instruction passes the check as well, and has no place to be at:
an interpreted call of it ends the run at once (`Run.empty_body_runs_out`).

* `Run.Streamed`: a call interprets the body of a function, at a place on
  record;
* `Run.Allows`: where a call may go from its instruction.
-/
import Mathlib
import StackMachine.Proofs.Activations
import StackMachine.Proofs.Compilation
import StackMachine.Proofs.Soundness

namespace StackMachine

namespace Run

variable {σ : Type} {env : Env} {hooks : Hooks σ} {P : Activation → Nat → Prop} {a : Activation}
  {h : Nat}

/-- With `h` operands of its own, the call may do what its instruction says, and
is then as `P` asks. -/
inductive Allows (env : Env) (P : Activation → Nat → Prop) (a : Activation) (h : Nat) : Prop
  | data {ip pops pushes : Nat} {x : Instr} (site : a.site? env = some (ip, x))
      (op : x.op.movesData = true) (operand : x.op.needsOperand = true → x.operand.isSome = true)
      (effect : Instr.fixedEffect x.op = some (pops, pushes)) (enough : pops ≤ h)
      (next : ∀ g g' : Frame, a.frame? = some g → g'.outline = g.outline →
        P (a.inFrame g').next (h - pops + pushes))
  | jump {ip t : Nat} {x : Instr} (site : a.site? env = some (ip, x)) (op : x.op = .jump .always)
      (target : a.target? env x = some t) (next : P (a.goto t) h)
  | branch {ip t : Nat} {x : Instr} {b : Bool} (site : a.site? env = some (ip, x))
      (op : x.op = .jump (.on b)) (target : a.target? env x = some t) (enough : 1 ≤ h)
      (next : P a.next (h - 1)) (landing : P (a.goto t) (h - 1))
  | call {ip k : Nat} {x : Instr} {f : Function} (site : a.site? env = some (ip, x))
      (op : x.op = .call) (callee : a.callee? env x = some k)
      (func : env.program.functions[k]? = some f) (enough : f.arity ≤ h)
      (next : P a.next (h - f.arity + if f.returns then 1 else 0))
  | ret {ip : Nat} {x : Instr} (site : a.site? env = some (ip, x)) (op : x.op = .ret)
      (enough : 1 ≤ h)
  | retVoid {ip : Nat} {x : Instr} (site : a.site? env = some (ip, x)) (op : x.op = .retVoid)
  | halt {ip : Nat} {x : Instr} (site : a.site? env = some (ip, x)) (op : x.op = .halt)

namespace Allows

variable {ip : Nat} {x : Instr}

theorem of_data (ha : Allows env P a h) (hs : a.site? env = some (ip, x))
    (hd : x.op.movesData = true) :
    ∃ pops pushes, (x.op.needsOperand = true → x.operand.isSome = true) ∧
      Instr.fixedEffect x.op = some (pops, pushes) ∧ pops ≤ h ∧
      ∀ g g' : Frame, a.frame? = some g → g'.outline = g.outline →
        P (a.inFrame g').next (h - pops + pushes) := by
  cases ha with
  | data hs' _ ho he hen hnext =>
    obtain ⟨rfl, rfl⟩ := Prod.mk.inj (Option.some.inj (hs.symm.trans hs'))
    exact ⟨_, _, ho, he, hen, hnext⟩
  | jump hs' hop | branch hs' hop | call hs' hop | ret hs' hop | retVoid hs' hop | halt hs' hop =>
    obtain ⟨rfl, rfl⟩ := Prod.mk.inj (Option.some.inj (hs.symm.trans hs'))
    rw [hop] at hd
    cases hd

theorem of_jump (ha : Allows env P a h) (hs : a.site? env = some (ip, x))
    (hj : x.op = .jump .always) : ∃ t, a.target? env x = some t ∧ P (a.goto t) h := by
  cases ha with
  | jump hs' _ ht hnext =>
    obtain ⟨rfl, rfl⟩ := Prod.mk.inj (Option.some.inj (hs.symm.trans hs'))
    exact ⟨_, ht, hnext⟩
  | data hs' hop | branch hs' hop | call hs' hop | ret hs' hop | retVoid hs' hop | halt hs' hop =>
    obtain ⟨rfl, rfl⟩ := Prod.mk.inj (Option.some.inj (hs.symm.trans hs'))
    rw [hj] at hop
    cases hop

theorem of_branch {b : Bool} (ha : Allows env P a h) (hs : a.site? env = some (ip, x))
    (hj : x.op = .jump (.on b)) :
    1 ≤ h ∧ P a.next (h - 1) ∧ ∃ t, a.target? env x = some t ∧ P (a.goto t) (h - 1) := by
  cases ha with
  | branch hs' _ ht hen hnext hland =>
    obtain ⟨rfl, rfl⟩ := Prod.mk.inj (Option.some.inj (hs.symm.trans hs'))
    exact ⟨hen, hnext, _, ht, hland⟩
  | data hs' hop | jump hs' hop | call hs' hop | ret hs' hop | retVoid hs' hop | halt hs' hop =>
    obtain ⟨rfl, rfl⟩ := Prod.mk.inj (Option.some.inj (hs.symm.trans hs'))
    rw [hj] at hop
    cases hop

theorem of_call (ha : Allows env P a h) (hs : a.site? env = some (ip, x)) (hc : x.op = .call) :
    ∃ k f, a.callee? env x = some k ∧ env.program.functions[k]? = some f ∧ f.arity ≤ h ∧
      P a.next (h - f.arity + if f.returns then 1 else 0) := by
  cases ha with
  | call hs' _ hk hf hen hnext =>
    obtain ⟨rfl, rfl⟩ := Prod.mk.inj (Option.some.inj (hs.symm.trans hs'))
    exact ⟨_, _, hk, hf, hen, hnext⟩
  | data hs' hop | jump hs' hop | branch hs' hop | ret hs' hop | retVoid hs' hop | halt hs' hop =>
    obtain ⟨rfl, rfl⟩ := Prod.mk.inj (Option.some.inj (hs.symm.trans hs'))
    rw [hc] at hop
    cases hop

theorem of_ret (ha : Allows env P a h) (hs : a.site? env = some (ip, x)) (hr : x.op = .ret) :
    1 ≤ h := by
  cases ha with
  | ret _ _ hen => exact hen
  | data hs' hop | jump hs' hop | branch hs' hop | call hs' hop | retVoid hs' hop | halt hs' hop =>
    obtain ⟨rfl, rfl⟩ := Prod.mk.inj (Option.some.inj (hs.symm.trans hs'))
    rw [hr] at hop
    cases hop

/-- With more operands it may do the same. -/
theorem mono {Q : Activation → Nat → Prop} {h' : Nat} (ha : Allows env P a h) (hle : h ≤ h')
    (hPQ : ∀ {b k k'}, P b k → k ≤ k' → Q b k') : Allows env Q a h' := by
  cases ha with
  | data hs hop ho he hen hnext =>
    exact .data hs hop ho he (hen.trans hle) fun g g' hg hout => hPQ (hnext g g' hg hout) (by omega)
  | jump hs hop ht hnext => exact .jump hs hop ht (hPQ hnext hle)
  | branch hs hop ht hen hnext hland =>
    exact .branch hs hop ht (hen.trans hle) (hPQ hnext (by omega)) (hPQ hland (by omega))
  | call hs hop hk hf hen hnext => exact .call hs hop hk hf (hen.trans hle) (hPQ hnext (by omega))
  | ret hs hop hen => exact .ret hs hop (hen.trans hle)
  | retVoid hs hop => exact .retVoid hs hop
  | halt hs hop => exact .halt hs hop

/-- Where a call goes by a step of its own: on, into a call, or back. -/
theorem stays {m n : Machine} {s s' : σ} {rest as' : List Activation} {g : Frame}
    (ha : Allows env P a h) (hframe : a.frame? = some g)
    (hact : Act env hooks m s (a :: rest) n s' as') :
    (∃ a' k, as' = a' :: rest ∧ P a' k) ∨ (∃ b, as' = b :: a :: rest) ∨
      ∃ b rest', rest = b :: rest' ∧ as' = b.next :: rest' := by
  cases hact with
  | data hg hs hd _ hout =>
    obtain ⟨pops, pushes, -, -, -, hnext⟩ := ha.of_data hs hd
    exact Or.inl ⟨_, _, rfl, hnext _ _ hg hout⟩
  | jump _ hs hop ht htaken =>
    rcases htaken with ⟨rfl, -⟩ | ⟨b, v, rfl, -, -⟩
    · obtain ⟨t, ht', hnext⟩ := ha.of_jump hs hop
      obtain rfl := Option.some.inj (ht.symm.trans ht')
      exact Or.inl ⟨_, _, rfl, hnext⟩
    · obtain ⟨-, -, t, ht', hland⟩ := ha.of_branch hs hop
      obtain rfl := Option.some.inj (ht.symm.trans ht')
      exact Or.inl ⟨_, _, rfl, hland⟩
  | pass _ hs hop =>
    obtain ⟨-, hnext, -⟩ := ha.of_branch hs hop
    exact Or.inl ⟨_, _, rfl, hnext⟩
  | call | enter | isolate => exact Or.inr (Or.inl ⟨_, rfl⟩)
  | ret | retVoid | off | ended => exact Or.inr (Or.inr ⟨_, _, rfl, rfl⟩)
  | on => cases hframe

end Allows

/-- The call interprets the body of function `i`, at a place with this height on
record. -/
def Streamed (p : Program) (i : Nat) (a : Activation) (h : Nat) : Prop :=
  ∃ g ip, a = .stream g ip ∧ p.heightAt? i ip = some h

/-- **What is on record is closed.** -/
theorem Streamed.allows {i : Nat} (hfits : env.program.Fits) (hs : Streamed env.program i a h) :
    Allows env (Streamed env.program i) a h := by
  obtain ⟨g, ip, rfl, hh⟩ := hs
  obtain ⟨f, code, heights, peak, pc, x, hv, rfl, hfetch, hc⟩ := Program.heightAt?_checked hh
  have hsite : (Activation.stream g (f.entry + pc)).site? env =
      some (f.entry + pc, x.based f.entry) := by
    simp only [Activation.site?, hfetch, Option.map_some]
  have hgo : ∀ (g' : Frame) (t k : Nat), heights[t]? = some (some k) →
      Streamed env.program i (.stream g' (f.entry + t)) k := fun g' t k ht =>
    ⟨g', f.entry + t, rfl, hv.heightAt? ht⟩
  have htarget : ∀ {w : Branch} {n : Int64} {t k : Nat}, x.op = .jump w → x.operand = some n →
      Instr.place? n = some t → heights[t]? = some (some k) →
      (Activation.stream g (f.entry + pc)).target? env (x.based f.entry) = some (f.entry + t) := by
    intro w n t k hop hn ht hland
    have hinside : f.entry + t ≤ env.program.size := (hv.add_lt_size hland).le
    have hjump := Machine.jumpTarget_based hfits (by rw [hop]; rfl) hn ht hinside
    simp only [Activation.target?, hjump, Except.toOption]
  cases hc with
  | data pops pushes hd ho he hen hnext =>
    rw [Instr.based_of_data hd] at hsite
    exact .data hsite hd ho he hen fun g g' _ _ => hgo g' (pc + 1) _ hnext
  | jump n t hop hn ht hnext =>
    exact .jump hsite (by rw [Instr.op_based, hop]) (htarget hop hn ht hnext) (hgo g t _ hnext)
  | branch b n t hop hn ht hen hnext hland =>
    exact .branch hsite (by rw [Instr.op_based, hop]) (htarget hop hn ht hland) hen
      (hgo g (pc + 1) _ hnext) (hgo g t _ hland)
  | call n k f' hop hn hk hf hen hnext =>
    rw [Instr.based_of_not_jump (by rw [hop]; rfl)] at hsite
    refine .call hsite hop ?_ hf hen (hgo g (pc + 1) _ hnext)
    simp only [Activation.callee?, Machine.callee_ok hn hk hf, Except.toOption]
  | ret hop hen => exact .ret hsite (by rw [Instr.op_based, hop]) hen
  | retVoid hop => exact .retVoid hsite (by rw [Instr.op_based, hop])
  | halt hop => exact .halt hsite (by rw [Instr.op_based, hop])

/-! ### Calls -/

/-- The call over `rest` interprets the body of function `i`, at a place on
record, with calls of its own inside it. -/
def Confined (p : Program) (i : Nat) (rest as : List Activation) : Prop :=
  ∃ inner a h, as = inner ++ a :: rest ∧ Streamed p i a h

theorem length_frames_next (a : Activation) (as : List Activation) :
    ((a.next :: as).filterMap Activation.frame?).length =
      ((a :: as).filterMap Activation.frame?).length := by
  cases a <;> rfl

/-- **A step stays inside the body, or leaves the call.** -/
theorem Confined.step {i : Nat} {m n : Machine} {s s' : σ} {rest as as' : List Activation} {t : Run σ}
    (hfits : env.program.Fits) (hc : Confined env.program i rest as) (hu : Under env t as)
    (hact : Act env hooks m s as n s' as') :
    Confined env.program i rest as' ∨ ∃ b rest', rest = b :: rest' ∧ as' = b.next :: rest' := by
  obtain ⟨inner, a, h, rfl, hs⟩ := hc
  by_cases hinner : inner = []
  · subst hinner
    have hframe : ∃ g, a.frame? = some g := by
      obtain ⟨g, ip, rfl, -⟩ := hs
      exact ⟨g, rfl⟩
    obtain ⟨g, hframe⟩ := hframe
    rcases (hs.allows hfits).stays hframe hact with
      ⟨a', k, rfl, hs'⟩ | ⟨b, rfl⟩ | hleft
    · exact Or.inl ⟨[], a', k, rfl, hs'⟩
    · exact Or.inl ⟨[b], a, h, rfl, hs⟩
    · exact Or.inr hleft
  · refine Or.inl ?_
    rcases hact.shape.inside hinner with ⟨inner', -, rfl⟩ | rfl
    · exact ⟨inner', a, h, rfl, hs⟩
    · -- the call has waited for another, and goes on behind it
      obtain ⟨b, inner, rfl⟩ := List.exists_cons_of_ne_nil hinner
      obtain ⟨ip, x, hsite, hop⟩ := hu.nested.waiting a (by simp)
      obtain ⟨k, f, -, -, -, hnext⟩ := (hs.allows hfits).of_call hsite hop
      exact ⟨[], a.next, _, rfl, hnext⟩

/-- While no call of its own has a frame, what is interpreted is the call
itself. -/
theorem Confined.top {p : Program} {i ip : Nat} {g : Frame} {rest as : List Activation}
    (hc : Confined p i rest (.stream g ip :: as))
    (hlen : ((Activation.stream g ip :: as).filterMap Activation.frame?).length =
      (rest.filterMap Activation.frame?).length + 1) : ∃ h, p.heightAt? i ip = some h := by
  obtain ⟨inner, a, h, heq, g', ip', rfl, hh⟩ := hc
  cases inner with
  | nil =>
    obtain ⟨rfl, rfl⟩ := Activation.stream.inj (List.cons.inj heq).1
    exact ⟨h, hh⟩
  | cons b inner =>
    -- then the call inside has a frame of its own
    obtain ⟨rfl, rfl⟩ := List.cons.inj heq
    simp [Activation.frame?] at hlen
    omega

/-- A call at the end of the stream ends the run, with its frame on top. -/
theorem Under.runs_out {r : Run σ} {g : Frame} {ip : Nat} {as : List Activation}
    (h : Under env r (.stream g ip :: as)) (hdone : env.program.code[ip]? = none) :
    ∃ e, Run.step env hooks r = .ended e ∧ e.failure = none ∧ e.machine.stop = some .ranOut ∧
      e.machine.frames = r.machine.frames := by
  obtain ⟨m, s, ts⟩ := r
  obtain ⟨rfl, d, back, ts, rfl⟩ := h.nested.of_stream
  have hfetch : env.program.code[(m.maybeCollect env.settings).ip]? = none := by
    rw [Machine.ip_maybeCollect, hdone]
  obtain ⟨ip, he⟩ := restore_stopped (m := { m.maybeCollect env.settings with
    stop := some .ranOut }) rfl s (.interpret d back) ts
  exact ⟨_, (step_ranOut h.going hfetch).trans he, rfl, rfl, Machine.frames_maybeCollect ..⟩

section Body

variable {i : Nat} {f : Function} {s : σ} {output : Array String} {r u t : Run σ} {e : Ending σ}

/-- From the beginning of a call to its end, control is inside the body. -/
theorem confined_during (hfits : env.program.Fits) (hr : Reach env hooks (boot env s output) r)
    (hb : Begins env hooks i r u) (hentry : ∀ f, env.program.functions[i]? = some f →
      env.program.heightAt? i f.entry = some 0)
    (ht : During env hooks r.machine.frames.length u t)
    (hdeep : r.machine.frames.length < t.machine.frames.length) :
    ∃ rest as, (rest.filterMap Activation.frame?).length = r.machine.frames.length ∧
      Under env t as ∧ Confined env.program i rest as := by
  obtain ⟨as, hunder⟩ := under_of_reach hr
  obtain ⟨f, a, rest, ret, rfl, -, hf, -, -, hu⟩ := hb.called hunder
  have hrest : ((a :: rest).filterMap Activation.frame?).length = r.machine.frames.length := by
    rw [hunder.nested.frames]
  obtain ⟨as', hunder', hc⟩ := ht.keeps
    (I := fun t as => Confined env.program i (a :: rest) as ∨
      t.machine.frames.length ≤ r.machine.frames.length)
    (fun t u m as as' _ hdeep hu hc hact hu' => by
      rcases hc.resolve_right (by omega) |>.step hfits hu hact with hc | ⟨b, rest', hcons, rfl⟩
      · exact Or.inl hc
      · refine Or.inr ?_
        obtain ⟨rfl, rfl⟩ := List.cons.inj hcons
        rw [← hu'.nested.frames, length_frames_next, hrest])
    hu (Or.inl ⟨[], _, 0, rfl, _, _, rfl, hentry f hf⟩)
  exact ⟨a :: rest, as', hrest, hunder', hc.resolve_right (by omega)⟩

/-- **Control stays inside a body that can be compiled**, whatever the settings,
if the body has an instruction. When a call of it is interpreted, then as long as
its frame is the top one every place that is fetched from is in the body, and the
stream does not run out. If the body has none, every such call ends the run at
once: the stream runs out with the frame on top. -/
theorem body_confined {settings : Settings} {art : Artifact} (hfits : env.program.Fits)
    (hf : env.program.functions[i]? = some f) (hc : env.program.compile settings i = .ok art)
    (hr : Reach env hooks (boot env s output) r) (hb : Begins env hooks i r u) :
    (f.entry < env.program.size → ∀ t stop, During env hooks r.machine.frames.length u t →
      t.machine.frames.length = r.machine.frames.length + 1 →
      env.program.functionEnd? i = some stop →
      (∀ d back ts, t.tasks = .interpret d back :: ts →
        f.entry ≤ t.machine.ip ∧ t.machine.ip < stop) ∧
      ∀ e, step env hooks t = .ended e → e.machine.stop ≠ some .ranOut) ∧
    (env.program.size ≤ f.entry → ∃ e, step env hooks u = .ended e ∧ e.failure = none ∧
      e.machine.stop = some .ranOut ∧ e.machine.frames = u.machine.frames) := by
  obtain ⟨f', code, heights, peak, hv⟩ := Program.compile_verified hc
  obtain rfl : f' = f := Option.some.inj (hv.func.symm.trans hf)
  refine ⟨fun hlt t stop ht htop hstop => ?_, fun hle => ?_⟩
  · have hentry : ∀ g, env.program.functions[i]? = some g →
        env.program.heightAt? i g.entry = some 0 := by
      intro g hg
      obtain rfl : f' = g := Option.some.inj (hf.symm.trans hg)
      exact hv.heightAt?_entry hlt
    obtain ⟨rest, as, hrest, hunder, hconf⟩ := confined_during hfits hr hb hentry ht (by omega)
    have hlen : (as.filterMap Activation.frame?).length =
        (rest.filterMap Activation.frame?).length + 1 := by
      rw [hunder.nested.frames, htop, hrest]
    constructor
    · intro d back ts htasks
      have hnested := hunder.nested
      rw [htasks] at hnested
      obtain ⟨g, -, as, -, rfl, -⟩ := hnested.stream
      obtain ⟨h, hh⟩ := hconf.top hlen
      have hend : stop = env.program.bodyEnd f'.entry := by
        simpa [Program.functionEnd?, hf] using hstop.symm
      rw [hend]
      exact hv.heightAt?_inside hh
    · intro e he hran
      obtain ⟨m, hout⟩ := hunder.ended he
      cases hout with
      | fault _ _ hgoing | lost _ _ hgoing => rw [hgoing] at hran; cases hran
      | halted hstopped => rw [hstopped] at hran; cases hran
      | ranOut hdone =>
        obtain ⟨h, hh⟩ := hconf.top hlen
        obtain ⟨f, code, heights, peak, pc, x, -, -, hfetch, -⟩ := Program.heightAt?_checked hh
        rw [hdone] at hfetch
        cases hfetch
  · obtain ⟨as, hunder⟩ := under_of_reach hr
    obtain ⟨f, a, rest, ret, -, -, hf', -, -, hu⟩ := hb.called hunder
    obtain rfl : f' = f := Option.some.inj (hf.symm.trans hf')
    exact hu.runs_out (List.getElem?_eq_none hle)

end Body

/-- A loop that calls another function, in a body before the callee's. -/
def countingDown : Env where
  program :=
    { code :=
        [⟨.pushInt, some 1⟩, ⟨.call, some 0⟩, ⟨.halt, none⟩,
         ⟨.loadLocal, some 0⟩, ⟨.jump (.on false), some 8⟩, ⟨.loadLocal, some 0⟩, ⟨.call, some 1⟩,
         ⟨.jump .always, some 3⟩, ⟨.retVoid, none⟩,
         ⟨.retVoid, none⟩]
      functions := [⟨"outer", 3, 1, 1, false⟩, ⟨"inner", 9, 1, 1, false⟩] }

/-- The callee has come back to the loop, and the loop goes round. -/
theorem body_confined_loop : ∃ r u t : Run Unit,
    Reach countingDown Hooks.none (boot countingDown () #[]) r ∧
      Begins countingDown Hooks.none 0 r u ∧
      During countingDown Hooks.none r.machine.frames.length u t ∧
      t.machine.frames.length = r.machine.frames.length + 1 ∧
      t.machine.ip = 7 ∧ 3 ≤ t.machine.ip ∧ t.machine.ip < 9 ∧
      ∀ e, step countingDown Hooks.none t = .ended e → e.machine.stop ≠ some .ranOut := by
  have hstates : ∃ r u t : Run Unit, Reach countingDown Hooks.none (boot countingDown () #[]) r ∧
      Begins countingDown Hooks.none 0 r u ∧
      During countingDown Hooks.none r.machine.frames.length u t ∧
      t.machine.frames.length = r.machine.frames.length + 1 ∧ t.machine.ip = 7 ∧
      t.tasks = [.interpret 0 none] :=
    ⟨_, _, _, .step .here rfl, ⟨⟨1, ⟨.call, some 0⟩, rfl, rfl, rfl⟩, rfl, rfl⟩,
      .step (.step (.step (.step (.step .here (by decide) rfl) (by decide) rfl) (by decide) rfl)
        (by decide) rfl) (by decide) rfl, rfl, rfl, rfl⟩
  obtain ⟨r, u, t, hr, hb, ht, htop, hip, htasks⟩ := hstates
  have hok : (countingDown.program.compile {} 0).isOk = true := by decide +kernel
  cases ha : countingDown.program.compile {} 0 with
  | error e => rw [ha] at hok; cases hok
  | ok a =>
    have hconfined := (body_confined (by decide) rfl ha hr hb).1 (by decide) t 9 ht htop (by decide)
    obtain ⟨hlow, hhigh⟩ := hconfined.1 0 none [] htasks
    exact ⟨r, u, t, hr, hb, ht, htop, hip, hlow, hhigh, hconfined.2⟩

/-- A function that starts where the stream ends. -/
def emptyBody : Env where
  program := { code := [⟨.call, some 0⟩, ⟨.halt, none⟩], functions := [⟨"f", 2, 0, 0, false⟩] }

/-- It can be compiled in either form, simplified or not; interpreted, a call of
it fetches from behind the body, which ends the run with the frame on top. -/
theorem empty_body_runs_out :
    (∀ form simplify, (emptyBody.program.compile { form, simplify } 0).isOk = true) ∧
    emptyBody.program.functionEnd? 0 = some 2 ∧
    ∃ (u : Run Unit) (e : Ending Unit),
      Begins emptyBody Hooks.none 0 (boot emptyBody () #[]) u ∧ u.machine.ip = 2 ∧
      u.machine.frames.length = 2 ∧ step emptyBody Hooks.none u = .ended e ∧
      e.failure = none ∧ e.machine.stop = some .ranOut ∧ e.machine.frames = u.machine.frames := by
  refine ⟨fun form simplify => ?_, rfl, _, _, ⟨⟨0, ⟨.call, some 0⟩, rfl, rfl, rfl⟩, rfl, rfl⟩,
    rfl, rfl, rfl, rfl, rfl, rfl⟩
  cases form <;> cases simplify <;> rfl

end Run
end StackMachine
