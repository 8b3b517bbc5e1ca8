/-
# Checked programs run as checked

In a program whose functions all pass the check of heights and return as they
declare, the check tells the truth about every run: wherever the run is, it is
in the body of the innermost call's function, and the operand stack is as high
as the check found for that place, on top of what the callers have left there.

* `Program.heightAt?`: the height that the check finds at a place of the stream;
* `Program.WellFormed`: what is asked of a program;
* `Soundness.Waiting`: what the callers of a frame wait for. It says for every
  call under way that its caller is in place again once it returns, and so
  carries the invariant through calls of any depth;
* `Soundness.step_moves`: what one step may do to the calls and the operands;
* `checked_program_sound`: what follows for whole runs. No run ends for a reason
  that the check is there to rule out, or by running out of the stream.
-/
import Mathlib
import StackMachine.Proofs.Bodies
import StackMachine.Proofs.Control
import StackMachine.Proofs.Runs
import StackMachine.Proofs.Visible

namespace StackMachine

/-! ### Programs that pass the check -/

/-- A return that leaves a value if and only if one is declared. -/
def Instr.returnsAs (declared : Bool) (x : Instr) : Bool :=
  match x.op with
  | .ret => declared
  | .retVoid => !declared
  | _ => true

namespace Program

/-- The height that the check finds before the instruction at `ip`, in the body
of function `i`; none if the check does not get there. -/
def heightAt? (p : Program) (i ip : Nat) : Option Nat :=
  match p.functions[i]?, p.localBody i with
  | some f, .ok code =>
    match Heights.survey code p.functions with
    | .ok (heights, _) => if f.entry ≤ ip then heights[ip - f.entry]?.join else none
    | .error _ => none
  | _, _ => none

/-- The stream starts with a function, all functions start inside it and pass
the check, and what returns the check gets to are as declared. The check itself
does not look at the last. -/
structure WellFormed (p : Program) : Prop where
  starts : ∃ f ∈ p.functions, f.entry = 0
  inside : ∀ f ∈ p.functions, f.entry < p.size
  checked : ∀ i < p.functions.length, (p.signature i).isOk = true
  returns : ∀ (i : Fin p.functions.length) (ip : Fin p.code.length),
    (p.heightAt? i ip).isSome = true → p.code[ip].returnsAs p.functions[i].returns = true

instance (p : Program) : Decidable p.WellFormed :=
  decidable_of_iff
    ((∃ f ∈ p.functions, f.entry = 0) ∧ (∀ f ∈ p.functions, f.entry < p.size) ∧
      (∀ i < p.functions.length, (p.signature i).isOk = true) ∧
      ∀ (i : Fin p.functions.length) (ip : Fin p.code.length),
        (p.heightAt? i ip).isSome = true → p.code[ip].returnsAs p.functions[i].returns = true)
    ⟨fun ⟨hstarts, hinside, hchecked, hreturns⟩ => ⟨hstarts, hinside, hchecked, hreturns⟩,
      fun h => ⟨h.starts, h.inside, h.checked, h.returns⟩⟩

variable {p : Program} {i ip pc h : Nat} {f : Function} {code : Code} {heights : List (Option Nat)}
  {peak : Nat}

theorem Verified.heightAt? (hv : p.Verified i f code heights peak)
    (hh : heights[pc]? = some (some h)) : p.heightAt? i (f.entry + pc) = some h := by
  simp [Program.heightAt?, hv.func, hv.body, hv.survey, hh]

theorem Verified.signature (hv : p.Verified i f code heights peak) :
    ∃ g, p.signature i = .ok g ∧ g.stackLimit = peak := by
  simp [Program.signature, hv.func, hv.body, Heights.analyze, hv.survey, Except.map, bind,
    Except.bind, pure, Except.pure]

/-- A place with a height is on record. -/
theorem heightAt?_eq_some (hh : p.heightAt? i ip = some h) :
    ∃ f code heights peak pc, p.Verified i f code heights peak ∧ ip = f.entry + pc ∧
      heights[pc]? = some (some h) := by
  unfold heightAt? at hh
  split at hh
  · rename_i f code hf hb
    split at hh
    · rename_i heights peak hs
      split_ifs at hh with hle
      exact ⟨f, code, heights, peak, ip - f.entry, ⟨hf, hb, hs⟩, by omega,
        Option.join_eq_some_iff.mp hh⟩
    · cases hh
  · cases hh

/-- The instruction at a place on record, in the stream and in its body. -/
theorem heightAt?_checked (hh : p.heightAt? i ip = some h) :
    ∃ f code heights peak pc x, p.Verified i f code heights peak ∧ ip = f.entry + pc ∧
      p.code[ip]? = some (x.based f.entry) ∧ Heights.Checked p.functions heights pc h x := by
  obtain ⟨f, code, heights, peak, pc, hv, rfl, hrec⟩ := heightAt?_eq_some hh
  obtain ⟨x, hx, hc⟩ := (hv.accepted.settled pc h hrec).checked
  exact ⟨f, code, heights, peak, pc, x, hv, rfl, hv.fetch hx, hc⟩

/-- What is on record is inside the body. -/
theorem Verified.heightAt?_inside (hv : p.Verified i f code heights peak)
    (hh : p.heightAt? i ip = some h) : f.entry ≤ ip ∧ ip < p.bodyEnd f.entry := by
  obtain ⟨f', code', heights', peak', pc, hv', rfl, hrec⟩ := heightAt?_eq_some hh
  obtain rfl : f = f' := Option.some.inj (hv.func.symm.trans hv'.func)
  have hlt := hv'.lt_length hrec
  have hend := hv'.end_eq
  omega

/-- The first place of a body that has one is on record. -/
theorem Verified.heightAt?_entry (hv : p.Verified i f code heights peak) (hlt : f.entry < p.size) :
    p.heightAt? i f.entry = some 0 := by
  have hend := hv.end_eq
  have hlast := lt_bodyEnd hlt
  have hbody : code ≠ [] := by
    rintro rfl
    rw [List.length_nil] at hend
    omega
  exact hv.heightAt? (hv.accepted.entry hbody)

theorem verified_of_signature (hok : (p.signature i).isOk = true) (hf : p.functions[i]? = some f) :
    ∃ code heights peak, p.Verified i f code heights peak := by
  cases hg : p.signature i with
  | error e => rw [hg] at hok; cases hok
  | ok g =>
    obtain ⟨f', code, heights, hv, -, -, -⟩ := signature_ok hg
    obtain rfl : f' = f := Option.some.inj (hv.func.symm.trans hf)
    exact ⟨code, heights, _, hv⟩

namespace WellFormed

/-- A call starts with nothing of its own on the stack. -/
theorem heightAt?_entry (hp : p.WellFormed) (hf : p.functions[i]? = some f) :
    p.heightAt? i f.entry = some 0 := by
  obtain ⟨hlt, -⟩ := List.getElem?_eq_some_iff.mp hf
  obtain ⟨code, heights, peak, hv⟩ := verified_of_signature (hp.checked i hlt) hf
  exact hv.heightAt?_entry (hp.inside f (List.mem_of_getElem? hf))

theorem returnsAs {x : Instr} (hp : p.WellFormed) (hf : p.functions[i]? = some f)
    (hh : p.heightAt? i ip = some h) (hx : p.code[ip]? = some x) :
    x.returnsAs f.returns = true := by
  obtain ⟨hi, rfl⟩ := List.getElem?_eq_some_iff.mp hf
  obtain ⟨hip, rfl⟩ := List.getElem?_eq_some_iff.mp hx
  exact hp.returns ⟨i, hi⟩ ⟨ip, hip⟩ (by rw [hh]; rfl)

/-- The outermost frame is of the function that starts the stream. -/
theorem entryFunction? (hp : p.WellFormed) :
    ∃ i f, p.entryFunction? = some i ∧ p.functions[i]? = some f ∧ f.entry = 0 := by
  obtain ⟨f, hf, hstart⟩ := hp.starts
  have hsome : p.entryFunction?.isSome = true := by
    unfold Program.entryFunction?
    rw [List.findIdx?_isSome, List.any_eq_true]
    exact ⟨f, hf, by simpa using hstart⟩
  obtain ⟨i, hi⟩ := Option.isSome_iff_exists.mp hsome
  obtain ⟨hlt, hentry, -⟩ := List.findIdx?_eq_some_iff_getElem.mp hi
  exact ⟨i, p.functions[i], hi, List.getElem?_eq_getElem hlt, by simpa using hentry⟩

end WellFormed

end Program

/-! ### The calls under way -/

/-- The lowest `n` operands. -/
def Machine.below (m : Machine) (n : Nat) : List Value := m.stack.drop (m.stack.length - n)

theorem Machine.length_below (m : Machine) (n : Nat) :
    (m.below n).length = min n m.stack.length := by
  unfold below
  rw [List.length_drop]
  omega

theorem Machine.below_tail {m : Machine} {v : Value} {vs : List Value} {k : Nat}
    (h : m.stack = v :: vs) (hk : k ≤ vs.length) : { m with stack := vs }.below k = m.below k := by
  unfold below
  rw [h, List.length_cons, Nat.sub_add_comm hk, List.drop_succ_cons]

/-- What is under the operands taken is under those put in their place. -/
theorem Machine.below_suffix {m n : Machine} {k : Nat} (pops pushes : Nat)
    (h : n.stack.drop pushes = m.stack.drop pops) (hk : pops + k ≤ m.stack.length) :
    m.below k <:+ n.stack := by
  have hbelow : m.below k = (n.stack.drop pushes).drop (m.stack.length - k - pops) := by
    unfold below
    rw [h, List.drop_drop]
    congr 1
    omega
  rw [hbelow]
  exact (List.drop_suffix _ _).trans (List.drop_suffix _ _)

namespace Soundness

open Machine (below)
open Run (plain)

/-- The callers of a frame wait for it to return: the outermost frame has none,
and the caller of any other goes on at a place where the check found what is
then on the stack. -/
inductive Waiting (p : Program) : Frame → List Frame → Prop
  | outermost {frame : Frame} (back : frame.returnIp = none) (base : frame.base = 0) :
      Waiting p frame []
  | call {frame caller : Frame} {callers : List Frame} {i j ret h : Nat} {f : Function}
      (func : frame.func = some i) (callee : p.functions[i]? = some f)
      (back : frame.returnIp = some ret) (base : caller.base ≤ frame.base)
      (outer : caller.func = some j) (there : p.heightAt? j ret = some h)
      (height : frame.base + (if f.returns then 1 else 0) = caller.base + h)
      (rest : Waiting p caller callers) : Waiting p frame (caller :: callers)

/-- The locals of a frame do not matter to its callers. -/
theorem Waiting.of_outline {p : Program} {frame frame' : Frame} {callers : List Frame}
    (h : Waiting p frame callers) (ho : frame'.outline = frame.outline) :
    Waiting p frame' callers := by
  obtain ⟨func', ret', base', ls'⟩ := frame'
  obtain ⟨func, ret, base, ls⟩ := frame
  simp only [Frame.outline, Frame.mk.injEq, and_true] at ho
  obtain ⟨rfl, rfl, rfl⟩ := ho
  cases h with
  | outermost back base => exact .outermost back base
  | call func callee back base outer there height rest =>
    exact .call func callee back base outer there height rest

/-- Callers are lower on the stack. -/
theorem Waiting.base_le {p : Program} {frame : Frame} {callers : List Frame}
    (h : Waiting p frame callers) : ∀ g ∈ callers, g.base ≤ frame.base := by
  induction h with
  | outermost => simp
  | call _ _ _ base _ _ _ _ ih =>
    intro g hg
    rcases List.mem_cons.mp hg with rfl | hg
    · exact base
    · exact (ih g hg).trans base

/-- The innermost call, of function `i`, is at a place where the check found `h`
operands, and so many are there. -/
structure Standing (p : Program) (m : Machine) (frame : Frame) (callers : List Frame) (i h : Nat) :
    Prop where
  running : m.stop = none
  frames : m.frames = frame :: callers
  func : frame.func = some i
  here : p.heightAt? i m.ip = some h
  height : m.stack.length = frame.base + h
  waiting : Waiting p frame callers

/-- The calls under way after a step from `frame` and its callers. -/
inductive Shift (frame : Frame) (callers : List Frame) : List Frame → Prop
  | stay {g : Frame} (base : g.base = frame.base) : Shift frame callers (g :: callers)
  | call {g : Frame} : Shift frame callers (g :: frame :: callers)
  | ret : Shift frame callers callers

/-- An ending that the check allows: no fault that it rules out, and no stream
that ran out. -/
def Proper (e : Ending Unit) : Prop :=
  match e.result with
  | .error x => x.root.structural = false
  | .ok x => x.code = 0

/-- What a step may do: the run goes on, with everything under the innermost call
left as it was, or comes to a proper end. -/
inductive Moves (p : Program) (m : Machine) (frame : Frame) (callers : List Frame) :
    Progress Unit → Prop
  | on {n : Machine} {frame' : Frame} {callers' : List Frame} {i h : Nat}
      (standing : Standing p n frame' callers' i h)
      (shift : Shift frame callers (frame' :: callers'))
      (kept : m.below frame.base <:+ n.stack) : Moves p m frame callers (.running (plain n))
  | off {e : Ending Unit} (proper : Proper e) : Moves p m frame callers (.ended e)

theorem Moves.of_below {p : Program} {m n : Machine} {frame : Frame} {callers : List Frame}
    {q : Progress Unit} (h : Moves p m frame callers q)
    (hb : m.below frame.base = n.below frame.base) : Moves p n frame callers q := by
  cases h with
  | on standing shift kept => exact .on standing shift (hb ▸ kept)
  | off proper => exact .off proper

/-! ### One step -/

section Steps

variable {env : Env} {m : Machine} {frame : Frame} {callers : List Frame} {i pc h : Nat}
  {f : Function} {code : Code} {heights : List (Option Nat)} {peak : Nat} {x : Instr}

/-- A collection moves nothing. -/
theorem Standing.collect (hs : Standing env.program m frame callers i h) :
    Standing env.program (m.maybeCollect env.settings) frame callers i h := by
  unfold Machine.maybeCollect
  split_ifs
  · exact ⟨hs.running, hs.frames, hs.func, hs.here, hs.height, hs.waiting⟩
  · exact hs

theorem below_maybeCollect (s : Settings) (m : Machine) (k : Nat) :
    (m.maybeCollect s).below k = m.below k := by
  unfold Machine.maybeCollect
  split_ifs <;> rfl

/-- The call goes on at another place of the same body. -/
theorem Standing.goOn (hs : Standing env.program m frame callers i h)
    (hv : env.program.Verified i f code heights peak) {n : Machine} {frame' : Frame} {k h' : Nat}
    (hn : n.frames = frame' :: callers) (ho : frame'.outline = frame.outline)
    (hstop : n.stop = none) (hip : n.ip = f.entry + k) (hk : heights[k]? = some (some h'))
    (hlen : n.stack.length = frame.base + h') (kept : m.below frame.base <:+ n.stack) :
    Moves env.program m frame callers (.running (plain n)) := by
  have hfunc := congrArg Frame.func ho
  have hbase := congrArg Frame.base ho
  simp only [Frame.outline] at hfunc hbase
  have here : env.program.heightAt? i n.ip = some h' := by
    rw [hip]
    exact hv.heightAt? hk
  exact .on ⟨hstop, hn, hfunc.trans hs.func, here, hbase ▸ hlen, hs.waiting.of_outline ho⟩
    (.stay hbase) kept

/-- A fault that the check does not rule out. -/
theorem fail_moves {n : Machine} {e : Fault} (he : e.structural = false) :
    Moves env.program m frame callers (Run.fail env (plain n) e) := by
  apply Moves.off
  simp only [Proper, Ending.result, Run.root_carry]
  exact he

/-- An instruction that moves data. -/
theorem data_moves (hs : Standing env.program m frame callers i h)
    (hv : env.program.Verified i f code heights peak) (hip : m.ip = f.entry + pc)
    {pops pushes : Nat} (hd : x.op.movesData = true)
    (ho : x.op.needsOperand = true → x.operand.isSome = true)
    (he : Instr.fixedEffect x.op = some (pops, pushes)) (hle : pops ≤ h)
    (hnext : heights[pc + 1]? = some (some (h - pops + pushes))) :
    Moves env.program m frame callers (Run.afterInterpret env Hooks.none () 0 none []
      (Machine.interpret env x m)) := by
  have hheight := hs.height
  have heffect := Machine.exec_effect (s := env.settings) hd ho he m (by omega)
  have houtline := Machine.exec_outline env.settings x m
  rw [Machine.interpret_data hd]
  unfold Gives at heffect houtline
  cases hr : Machine.exec env.settings x m with
  | error e n =>
    rw [hr] at heffect
    rw [bind_of_error hr]
    exact fail_moves heffect
  | ok u n =>
    rw [hr] at heffect houtline
    rw [bind_of_ok hr]
    obtain ⟨hpushes, hdrop⟩ := heffect
    obtain ⟨frame', hframes, hframe⟩ := Machine.frames_of_outline houtline hs.frames
    have hn : n.ip = m.ip := Machine.ip_of_outline houtline
    have hlen : n.stack.length = frame.base + (h - pops + pushes) := by
      have hlength := congrArg List.length hdrop
      rw [List.length_drop, List.length_drop] at hlength
      omega
    refine hs.goOn hv (n := { n with ip := n.ip + 1 }) hframes hframe
      ((Machine.stop_of_outline houtline).trans hs.running) ?_ hnext hlen
      (Machine.below_suffix pops pushes hdrop (by omega))
    show n.ip + 1 = f.entry + (pc + 1)
    omega

/-- A jump, or a branch, lands on a place of the body. -/
theorem jump_moves (hfits : env.program.Fits) (hs : Standing env.program m frame callers i h)
    (hv : env.program.Verified i f code heights peak) {n : Int64} {t : Nat}
    (hop : x.op = .jump .always) (hn : x.operand = some n) (ht : Instr.place? n = some t)
    (hland : heights[t]? = some (some h)) :
    Moves env.program m frame callers (Run.afterInterpret env Hooks.none () 0 none []
      (Machine.interpret env (x.based f.entry) m)) := by
  rw [Machine.interpret_based hfits hv hop hn ht hland]
  exact hs.goOn hv (n := { m with ip := f.entry + t }) hs.frames rfl hs.running rfl hland hs.height
    (List.drop_suffix _ _)

theorem branch_moves (hfits : env.program.Fits) (hs : Standing env.program m frame callers i h)
    (hv : env.program.Verified i f code heights peak) (hip : m.ip = f.entry + pc) {b : Bool}
    {n : Int64} {t : Nat} (hop : x.op = .jump (.on b)) (hn : x.operand = some n)
    (ht : Instr.place? n = some t) (hle : 1 ≤ h) (hnext : heights[pc + 1]? = some (some (h - 1)))
    (hland : heights[t]? = some (some (h - 1))) :
    Moves env.program m frame callers (Run.afterInterpret env Hooks.none () 0 none []
      (Machine.interpret env (x.based f.entry) m)) := by
  have hheight := hs.height
  obtain ⟨v, vs, hstack⟩ := List.exists_cons_of_length_pos (l := m.stack) (by omega)
  have hlen : vs.length = frame.base + (h - 1) := by
    rw [hstack, List.length_cons] at hheight
    omega
  have kept : m.below frame.base <:+ vs :=
    Machine.below_suffix (n := { m with stack := vs }) 1 0 (by simp [hstack]) (by omega)
  rw [Machine.interpret_based hfits hv hop hn ht hland, Machine.branch_on,
    bind_of_ok (Machine.pop_cons hstack _)]
  by_cases hb : v.truth = b
  · rw [if_pos hb]
    exact hs.goOn hv (n := { m with stack := vs, ip := f.entry + t }) hs.frames rfl hs.running rfl
      hland hlen kept
  · rw [if_neg hb]
    refine hs.goOn hv (n := { m with stack := vs, ip := m.ip + 1 }) hs.frames rfl hs.running ?_
      hnext hlen kept
    show m.ip + 1 = f.entry + (pc + 1)
    omega

/-- A call leaves its caller waiting for the place after it. -/
theorem call_moves (hp : env.program.WellFormed) (hs : Standing env.program m frame callers i h)
    (hv : env.program.Verified i f code heights peak) (hip : m.ip = f.entry + pc) {n : Int64}
    {k : Nat} {g : Function} (hop : x.op = .call) (hn : x.operand = some n)
    (hk : Instr.place? n = some k) (hg : env.program.functions[k]? = some g) (hle : g.arity ≤ h)
    (hnext : heights[pc + 1]? = some (some (h - g.arity + if g.returns then 1 else 0))) :
    Moves env.program m frame callers (Run.afterInterpret env Hooks.none () 0 none []
      (Machine.interpret env x m)) := by
  have hheight := hs.height
  rw [Machine.interpret_call hop (Machine.callee_ok hn hk hg)]
  show Moves env.program m frame callers (Run.callFromStream env Hooks.none (plain m) k)
  rw [Run.callFromStream_none, Machine.enter_eq hg, if_neg (by omega)]
  have hbase : (m.stack.drop g.arity).length = frame.base + (h - g.arity) := by
    rw [List.length_drop]
    omega
  -- the next instruction is on record with the callee's value, if it leaves one
  have there : env.program.heightAt? i (m.ip + 1) =
      some (h - g.arity + if g.returns then 1 else 0) := by
    rw [hip]
    exact hv.heightAt? hnext
  have hlower : frame.base ≤ (m.stack.drop g.arity).length := by omega
  have hheight' : (m.stack.drop g.arity).length + (if g.returns then 1 else 0) =
      frame.base + (h - g.arity + if g.returns then 1 else 0) := by rw [hbase, Nat.add_assoc]
  refine .on (h := 0) ⟨hs.running, rfl, rfl, hp.heightAt?_entry hg, rfl, ?_⟩ (hs.frames ▸ .call)
    (Machine.below_suffix g.arity 0 rfl (by omega))
  rw [hs.frames]
  exact .call rfl hg rfl hlower hs.func there hheight' hs.waiting

/-- A return, once its value is taken off the stack: the outermost one ends the
run, and any other lets the caller go on with what it waits for. -/
theorem return_moves (hs : Standing env.program m frame callers i h)
    (hf : env.program.functions[i]? = some f) {n : Machine} {op : Opcode} {v : Option Value}
    (hn : n.frames = frame :: callers) (hstop : n.stop = none)
    (hbelow : n.below frame.base = m.below frame.base)
    (hvalue : v.toList.length = if f.returns then 1 else 0) :
    Moves env.program m frame callers (Run.afterInterpret env Hooks.none () 0 none []
      (Machine.returnWith op v n)) := by
  have hheight := hs.height
  cases hs.waiting with
  | outermost back base =>
    rw [Machine.returnWith_none hn back]
    exact .off rfl
  | call func callee back base outer there height rest =>
    rw [Run.return_plain hn back (List.cons_ne_nil _ _)]
    obtain rfl := Option.some.inj (func.symm.trans hs.func)
    obtain rfl := Option.some.inj (callee.symm.trans hf)
    have hstack : v.toList ++ n.stack.drop (n.stack.length - frame.base) =
        v.toList ++ m.below frame.base := congrArg (v.toList ++ ·) hbelow
    refine .on ⟨hstop, rfl, outer, there, ?_, rest⟩ .ret ?_
    · show (v.toList ++ n.stack.drop (n.stack.length - frame.base)).length = _
      rw [hstack, List.length_append, hvalue, Machine.length_below]
      omega
    · show m.below frame.base <:+ v.toList ++ n.stack.drop (n.stack.length - frame.base)
      rw [hstack]
      exact List.suffix_append _ _

/-- The instruction that the innermost call is at, by the way it transfers control. -/
theorem interpret_moves (hfits : env.program.Fits) (hp : env.program.WellFormed)
    (hs : Standing env.program m frame callers i h) :
    ∃ y, env.program.code[m.ip]? = some y ∧
      Moves env.program m frame callers (Run.afterInterpret env Hooks.none () 0 none []
        (Machine.interpret env y m)) := by
  obtain ⟨f, code, heights, peak, pc, hv, hip, hh⟩ := Program.heightAt?_eq_some hs.here
  obtain ⟨x, hx, hc⟩ := (hv.accepted.settled pc h hh).checked
  have hfetch : env.program.code[m.ip]? = some (x.based f.entry) := hip ▸ hv.fetch hx
  refine ⟨x.based f.entry, hfetch, ?_⟩
  have hdeclared : (x.based f.entry).returnsAs f.returns = true :=
    hp.returnsAs hv.func hs.here hfetch
  have hheight := hs.height
  cases hc with
  | data pops pushes op operand effect enough next =>
    rw [Instr.based_of_data op]
    exact data_moves hs hv hip op operand effect enough next
  | jump n t op operand place next => exact jump_moves hfits hs hv op operand place next
  | branch b n t op operand place enough next landing =>
    exact branch_moves hfits hs hv hip op operand place enough next landing
  | call n k g op operand place callee enough next =>
    rw [Instr.based_of_not_jump (by rw [op]; rfl)]
    exact call_moves hp hs hv hip op operand place callee enough next
  | ret op enough =>
    have hreturns : f.returns = true := by simpa [Instr.returnsAs, op] using hdeclared
    obtain ⟨v, vs, hstack⟩ := List.exists_cons_of_length_pos (l := m.stack) (by omega)
    rw [Machine.interpret_ret (by rw [Instr.op_based, op]),
      bind_of_ok (Machine.pop_cons hstack _)]
    refine return_moves (n := { m with stack := vs }) hs hv.func hs.frames hs.running ?_
      (by simp [hreturns])
    rw [hstack, List.length_cons] at hheight
    exact Machine.below_tail hstack (by omega)
  | retVoid op =>
    have hreturns : f.returns = false := by simpa [Instr.returnsAs, op] using hdeclared
    rw [Machine.interpret_retVoid (by rw [Instr.op_based, op])]
    exact return_moves hs hv.func hs.frames hs.running rfl (by simp [hreturns])
  | halt op =>
    rw [Machine.interpret_halt (by rw [Instr.op_based, op])]
    exact .off rfl

/-- **One step.** The run goes on as checked, or comes to a proper end. -/
theorem step_moves (hfits : env.program.Fits) (hp : env.program.WellFormed)
    (hs : Standing env.program m frame callers i h) :
    Moves env.program m frame callers (Run.step env Hooks.none (plain m)) := by
  obtain ⟨y, hy, hmoves⟩ := interpret_moves hfits hp hs.collect
  rw [Run.step_interpret hs.running hy]
  exact hmoves.of_below (below_maybeCollect _ _ _)

end Steps


/-! ### Whole runs -/

/-- A run that only interprets, on a machine in place. -/
def InPlace (env : Env) (r : Run Unit) : Prop :=
  ∃ m frame callers i h, r = plain m ∧ Standing env.program m frame callers i h

theorem inPlace_boot {env : Env} (hp : env.program.WellFormed) (output : Array String) :
    InPlace env (Run.boot env () output) := by
  obtain ⟨i, f, hi, hf, hentry⟩ := hp.entryFunction?
  refine ⟨_, ⟨some i, none, 0, Value.zeros f.frameSize⟩, [], i, 0, rfl, rfl, ?_, rfl, ?_, rfl,
    .outermost rfl rfl⟩
  · simp [Machine.boot, hi, hf]
  · have hstart := hp.heightAt?_entry hf
    rwa [hentry] at hstart

theorem InPlace.step {env : Env} {r t : Run Unit} (hfits : env.program.Fits)
    (hp : env.program.WellFormed) (hr : InPlace env r)
    (hstep : Run.step env Hooks.none r = .running t) : InPlace env t := by
  obtain ⟨m, frame, callers, i, h, rfl, hs⟩ := hr
  have hmoves := step_moves hfits hp hs
  rw [hstep] at hmoves
  cases hmoves with
  | on standing => exact ⟨_, _, _, _, _, rfl, standing⟩

theorem InPlace.proper {env : Env} {r : Run Unit} {e : Ending Unit} (hfits : env.program.Fits)
    (hp : env.program.WellFormed) (hr : InPlace env r)
    (hstep : Run.step env Hooks.none r = .ended e) : Proper e := by
  obtain ⟨m, frame, callers, i, h, rfl, hs⟩ := hr
  have hmoves := step_moves hfits hp hs
  rw [hstep] at hmoves
  cases hmoves with
  | off proper => exact proper

/-- **Every state on the way is in place.** -/
theorem inPlace_of_reach {env : Env} {output : Array String} {r : Run Unit}
    (hfits : env.program.Fits) (hp : env.program.WellFormed)
    (hr : Run.Reach env Hooks.none (Run.boot env () output) r) : InPlace env r :=
  hr.keeps (fun _ _ ht hstep => ht.step hfits hp hstep) (inPlace_boot hp output)

/-- The states that a run passes through from `r` on, for as long as more than
`depth` calls are under way, and the first one after that. -/
inductive Inside (env : Env) (depth : Nat) (r : Run Unit) : Run Unit → Prop
  | here : Inside env depth r r
  | step {t u : Run Unit} (before : Inside env depth r t) (deep : depth < t.machine.frames.length)
      (next : Run.step env Hooks.none t = .running u) : Inside env depth r u

/-- A call at height `base` is under way, with `outer` for its callers. -/
def Over (outer : List Frame) (base : Nat) (frames : List Frame) : Prop :=
  ∃ inner g, frames = inner ++ g :: outer ∧ g.base = base

/-- Until it returns, a call stays under way. -/
theorem Over.shift {outer callers frames : List Frame} {base : Nat} {frame : Frame}
    (h : Over outer base (frame :: callers)) (hs : Shift frame callers frames) :
    Over outer base frames ∨ frames = outer := by
  obtain ⟨inner, g, heq, hg⟩ := h
  cases inner with
  | nil =>
    obtain ⟨rfl, rfl⟩ := List.cons.inj heq
    cases hs with
    | @stay new hnew => exact Or.inl ⟨[], new, rfl, hnew.trans hg⟩
    | @call new => exact Or.inl ⟨[new], frame, rfl, hg⟩
    | ret => exact Or.inr rfl
  | cons first inner =>
    obtain ⟨rfl, rfl⟩ := List.cons.inj heq
    cases hs with
    | @stay new _ => exact Or.inl ⟨new :: inner, g, rfl, hg⟩
    | @call new => exact Or.inl ⟨new :: frame :: inner, g, rfl, hg⟩
    | ret => exact Or.inl ⟨inner, g, rfl, hg⟩

/-- The innermost call is at the top. -/
theorem Over.base_le {p : Program} {outer callers : List Frame} {base : Nat} {frame : Frame}
    (h : Over outer base (frame :: callers)) (hw : Waiting p frame callers) : base ≤ frame.base := by
  obtain ⟨inner, g, heq, rfl⟩ := h
  have hg : g ∈ frame :: callers := by simp [heq]
  rcases List.mem_cons.mp hg with rfl | hg
  · exact Nat.le_refl _
  · exact hw.base_le g hg

theorem InPlace.length_below {env : Env} {r : Run Unit} {outer : List Frame} {base : Nat}
    (hr : InPlace env r) (ho : Over outer base r.machine.frames) :
    (r.machine.below base).length = base := by
  obtain ⟨m, frame, callers, i, h, rfl, hs⟩ := hr
  have hover : Over outer base (frame :: callers) := hs.frames ▸ ho
  have hbase := hover.base_le hs.waiting
  have hheight := hs.height
  show (m.below base).length = base
  rw [Machine.length_below]
  omega

/-- What a call has under it stays there until it returns, and then is what its
callers find. -/
theorem Inside.kept {env : Env} {r t : Run Unit} {outer : List Frame} {base : Nat}
    (hfits : env.program.Fits) (hp : env.program.WellFormed) (hr : InPlace env r)
    (ho : Over outer base r.machine.frames) (h : Inside env outer.length r t) :
    InPlace env t ∧ (Over outer base t.machine.frames ∨ t.machine.frames = outer) ∧
      r.machine.below base <:+ t.machine.stack := by
  induction h with
  | here => exact ⟨hr, Or.inl ho, List.drop_suffix _ _⟩
  | @step t u before deep next ih =>
    obtain ⟨⟨m, frame, callers, i, h, rfl, hs⟩, hover, hkept⟩ := ih
    have hover : Over outer base (frame :: callers) := by
      rcases hover with hover | hreturned
      · exact hs.frames ▸ hover
      · rw [hreturned] at deep
        exact absurd deep (Nat.lt_irrefl _)
    have hmoves := step_moves hfits hp hs
    rw [next] at hmoves
    cases hmoves with
    | on standing shift kept =>
      refine ⟨⟨_, _, _, _, _, rfl, standing⟩, standing.frames ▸ hover.shift shift, ?_⟩
      have hbase := hover.base_le hs.waiting
      have hheight := hs.height
      -- both are at the bottom of the stack before the step, the former no longer than the latter
      have hbottom : m.below frame.base <:+ m.stack := List.drop_suffix _ _
      have hshort : r.machine.below base <:+ m.below frame.base := by
        apply List.suffix_of_suffix_length_le hkept hbottom
        rw [Machine.length_below, Machine.length_below]
        omega
      exact hshort.trans kept

end Soundness

open Soundness in
/-- **The check of heights is sound.** However a well-formed program is
interpreted, the innermost call is always inside its function's body and has as
many operands as the check found for that place, which is at most the greatest
height of all; what a call has under it stays there until it returns, and so do
the frames of its callers; and the run does not end for want of an operand, a
function or a place to go, or by running out of the stream. -/
theorem checked_program_sound {env : Env} (hfits : env.program.Fits) (hp : env.program.WellFormed)
    (output : Array String) :
    (∀ r, Run.Reach env Hooks.none (Run.boot env () output) r →
      ∃ frame callers i f g h, r.machine.frames = frame :: callers ∧ frame.func = some i ∧
        env.program.functions[i]? = some f ∧ env.program.signature i = .ok g ∧
        f.entry ≤ r.machine.ip ∧ r.machine.ip < env.program.bodyEnd f.entry ∧
        env.program.heightAt? i r.machine.ip = some h ∧
        r.machine.stack.length = frame.base + h ∧ h ≤ g.stackLimit) ∧
    (∀ r inner frame outer, Run.Reach env Hooks.none (Run.boot env () output) r →
      r.machine.frames = inner ++ frame :: outer →
      (r.machine.below frame.base).length = frame.base ∧
      ∀ t, Inside env outer.length r t →
        r.machine.below frame.base <:+ t.machine.stack ∧ outer <:+ t.machine.frames) ∧
    ∀ fuel e, env.run Hooks.none () output fuel = some e →
      (∀ x, e.result = .error x → x.root.structural = false) ∧
      ∀ x, e.result = .ok x → x.code = 0 := by
  refine ⟨fun r hr => ?_, fun r inner frame outer hr hframes => ?_, fun fuel e he => ?_⟩
  · obtain ⟨m, frame, callers, i, h, rfl, hs⟩ := inPlace_of_reach hfits hp hr
    obtain ⟨f, code, heights, peak, pc, hv, hip, hh⟩ := Program.heightAt?_eq_some hs.here
    obtain ⟨g, hg, hlimit⟩ := hv.signature
    obtain ⟨-, -, -, -, -, -, -, -, -, hpeak, -⟩ := hv.accepted.settled pc h hh
    have hlast := hv.end_eq
    have hpc := hv.lt_length hh
    exact ⟨frame, callers, i, f, g, h, hs.frames, hs.func, hv.func, hg, by simp [hip],
      by simp only [hip]; omega, hs.here, hs.height, by omega⟩
  · have hplace := inPlace_of_reach hfits hp hr
    have hover : Over outer frame.base r.machine.frames := ⟨inner, frame, hframes, rfl⟩
    refine ⟨hplace.length_below hover, fun t ht => ?_⟩
    obtain ⟨-, hframes', hkept⟩ := ht.kept hfits hp hplace hover
    refine ⟨hkept, ?_⟩
    rcases hframes' with ⟨inner', g, hinner, -⟩ | hreturned
    · rw [hinner]
      exact (List.suffix_cons g outer).trans (List.suffix_append inner' _)
    · rw [hreturned]
  · obtain ⟨t, ht, hlast⟩ := Run.Ends.last ⟨fuel, he⟩
    have hproper := (inPlace_of_reach hfits hp ht).proper hfits hp hlast
    unfold Proper at hproper
    refine ⟨fun x hx => ?_, fun x hx => ?_⟩
    · rwa [hx] at hproper
    · rwa [hx] at hproper

namespace Soundness

/-- Factorials, by recursion. -/
def factorial : Program where
  code :=
    [⟨.pushInt, some 3⟩, ⟨.call, some 1⟩, ⟨.printInt, none⟩, ⟨.retVoid, none⟩,
     ⟨.loadLocal, some 0⟩, ⟨.jump (.on false), some 13⟩, ⟨.loadLocal, some 0⟩,
     ⟨.loadLocal, some 0⟩, ⟨.pushInt, some 1⟩, ⟨.binary .sub, none⟩, ⟨.call, some 1⟩,
     ⟨.binary .mul, none⟩, ⟨.ret, none⟩, ⟨.pushInt, some 1⟩, ⟨.ret, none⟩]
  functions := [⟨"main", 0, 0, 0, false⟩, ⟨"factorial", 4, 1, 1, true⟩]

end Soundness

open Soundness in
theorem checked_program_sound_factorial :
    factorial.Fits ∧ factorial.WellFormed ∧
    ∃ e, Env.run ⟨factorial, {}⟩ Hooks.none () #[] 60 = some e ∧ e.machine.output = #["6"] ∧
      ∃ x, e.result = .ok x ∧ x.code = 0 := by
  have hwell : factorial.WellFormed := by decide +kernel
  obtain ⟨-, -, hends⟩ := @checked_program_sound ⟨factorial, {}⟩ (by decide) hwell #[]
  refine ⟨by decide, hwell, _, rfl, by decide, _, rfl, ?_⟩
  exact (hends 60 _ rfl).2 _ rfl

end StackMachine
