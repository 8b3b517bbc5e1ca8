/-
# Which instruction a fault names

A fault names an instruction and its place in the stream. For compiled code the
place is that of the origin: each instruction is the one of the stream at its
place but for where it jumps to (`Instr.Like`), also where the body was
simplified, or else a push that folding has made and that never fails
(`Program.compile_traced`). What fails is the instruction that the innermost
call is at, or, where a call cannot be left, the one its caller is at
(`Run.Outcome`). So every failure of a run names an instruction of the program
(`Run.failure_names_instruction`).
-/
import Mathlib
import StackMachine.Proofs.Activations
import StackMachine.Proofs.Renumbering

namespace StackMachine

/-! ### Simplified code -/

namespace Peephole

variable {body : Code}

/-- An instruction of the output is like the one it came from, or pushes a known
value. -/
def Stems (body : Code) (t : Traced) : Prop :=
  (∃ x, body[t.origin]? = some x ∧ t.instr.Like x) ∨ (constant? t.instr).isSome = true

theorem stems_simplify {t : Traced} (ht : t ∈ simplify body) : Stems body t := by
  obtain ⟨x, hx, hmoved | ⟨⟨v, hv⟩, -⟩⟩ := (selects_simplify body).stems t ht
  · exact Or.inl ⟨x, hx, hmoved ▸ like_retarget ..⟩
  · exact Or.inr (by rw [constant?_of_pushOf? hv]; rfl)

end Peephole

/-! ### Compiled code -/

/-- Wherever the code may fail it has an instruction of the program, at the place
it says. -/
def CompiledBody.Traced (p : Program) (b : CompiledBody) : Prop :=
  ∀ pc ip x, b.site? pc = some (ip, x) → Peephole.constant? x = none →
    ∃ y, p.code[ip]? = some y ∧ x.Like y

def Artifact.body : Artifact → CompiledBody
  | isolated b _ _ => b
  | integrated b => b

theorem Draft.getD_ips (d : Draft) {pc : Nat} (h : pc < d.code.length) :
    d.compiledBody.ips.getD pc 0 = d.signature.start + d.origin pc := by
  simp [Draft.compiledBody, Draft.ips, h]

namespace Program

variable {p : Program}

/-- Code that stems from a body that passed the check is traced to the program. -/
theorem Verified.traced {i : Nat} {f : Function} {body : Code} {heights : List (Option Nat)}
    {peak : Nat} (hv : p.Verified i f body heights peak) {d : Draft}
    (hstart : d.signature.start = f.entry)
    (hstems : ∀ pc x, d.code[pc]? = some x → Peephole.Stems body ⟨x, d.origin pc⟩) :
    d.compiledBody.Traced p := by
  intro pc ip x hsite hx
  obtain ⟨y, hy, hpair⟩ := Option.map_eq_some_iff.mp hsite
  obtain ⟨rfl, rfl⟩ := Prod.mk.inj hpair
  have hpc : pc < d.code.length := (List.getElem?_eq_some_iff.mp hy).1
  rw [d.getD_ips hpc, hstart]
  rcases hstems pc y hy with ⟨z, hz, hlike⟩ | hconst
  · exact ⟨_, hv.fetch hz, hlike.trans (.based ..)⟩
  · rw [hx] at hconst
    cases hconst

/-- **Compiled code is traced to the program**, whatever the settings it was
compiled under. -/
theorem compile_traced {s : Settings} {i : Nat} {a : Artifact} (h : p.compile s i = .ok a) :
    a.body.Traced p := by
  obtain ⟨d, hd, he⟩ := compile_ok h
  have hbody : a.body = d.compiledBody := by
    rcases emit_ok he with ⟨-, rfl⟩ | ⟨-, -, rfl⟩ <;> rfl
  rw [hbody]
  obtain ⟨d₀, hd₀, rfl⟩ := draft_ok hd
  obtain ⟨f, heights, peak, -, hstart, -, -, hplain⟩ := plain_ok hd₀
  split_ifs
  · refine hplain.verified.traced hstart fun pc x hx => ?_
    obtain ⟨t, ht, rfl⟩ : ∃ t, (Peephole.simplify d₀.code)[pc]? = some t ∧ t.instr = x := by
      rwa [Peephole.code, List.getElem?_map, Option.map_eq_some_iff] at hx
    have horigin : ((Peephole.simplify d₀.code).map Traced.origin).getD pc pc = t.origin := by
      simp [ht]
    rw [Draft.origin, horigin]
    exact Peephole.stems_simplify (List.mem_of_getElem? ht)
  · refine hplain.verified.traced hstart fun pc x hx => Or.inl ⟨x, ?_, .refl x⟩
    have hpc : pc < d₀.code.length := (List.getElem?_eq_some_iff.mp hx).1
    have hip : d₀.signature.start + d₀.origin pc = f.entry + pc :=
      (d₀.getD_ips hpc).symm.trans (hplain.ips pc hpc)
    have horigin : d₀.origin pc = pc := by omega
    rw [horigin]
    exact hx

end Program

/-! ### Runs -/

namespace Activation

/-- The code of a compiled call. -/
def body? : Activation → Option CompiledBody
  | stream _ _ => none
  | code _ b _ => some b
  | apart b _ _ => some b

end Activation

namespace Run

variable {σ : Type} {env : Env} {hooks : Hooks σ}

/-- All compiled code under way is traced to the program. -/
def Traced (p : Program) (as : List Activation) : Prop :=
  ∀ a ∈ as, ∀ b, a.body? = some b → b.Traced p

theorem traced_boot (p : Program) (f : Frame) : Traced p [.stream f 0] := by
  intro a ha b hb
  rw [List.mem_singleton.mp ha] at hb
  cases hb

theorem Act.traced {m n : Machine} {s s' : σ} {as as' : List Activation}
    (h : Act env hooks m s as n s' as')
    (hs : hooks.Serves (fun _ a => a.body.Traced env.program) s) (ht : Traced env.program as) :
    Traced env.program as' := by
  have hcons : ∀ {a : Activation} {as : List Activation}, Traced env.program (a :: as) ↔
      (∀ b, a.body? = some b → b.Traced env.program) ∧ Traced env.program as :=
    List.forall_mem_cons
  cases h with
  | @data a =>
    rw [hcons] at ht ⊢
    refine ⟨fun b hb => ht.1 b ?_, ht.2⟩
    cases a <;> exact hb
  | @jump a | @pass a =>
    rw [hcons] at ht ⊢
    refine ⟨fun b hb => ht.1 b ?_, ht.2⟩
    cases a <;> exact hb
  | call =>
    rw [hcons]
    exact ⟨fun b hb => (by cases hb), ht⟩
  | enter _ _ _ ha =>
    rw [hcons]
    refine ⟨fun b hb => ?_, ht⟩
    obtain rfl := Option.some.inj hb
    exact hs.answer ha
  | isolate _ _ _ ha =>
    rw [hcons]
    refine ⟨fun b hb => ?_, ht⟩
    obtain rfl := Option.some.inj hb
    exact hs.answer ha
  | @ret _ b | @retVoid _ b | @off b | @ended b =>
    rw [hcons, hcons] at ht
    rw [hcons]
    refine ⟨fun c hc => ht.2.1 c ?_, ht.2.2⟩
    cases b <;> exact hc
  | on =>
    rw [hcons] at ht ⊢
    exact ht

/-- A call that fails is at an instruction of the program. -/
theorem Traced.site {a : Activation} {as : List Activation} {ip : Nat} {x : Instr}
    (h : Traced env.program as) (ha : a ∈ as) (hsite : a.site? env = some (ip, x))
    (hx : Peephole.constant? x = none) : ∃ y, env.program.code[ip]? = some y ∧ x.Like y := by
  cases a with
  | stream g k =>
    obtain ⟨y, hy, hpair⟩ := Option.map_eq_some_iff.mp hsite
    obtain ⟨rfl, rfl⟩ := Prod.mk.inj hpair
    exact ⟨y, hy, .refl y⟩
  | code g b pc => exact h _ ha b rfl pc ip x hsite hx
  | apart b pc c => exact h _ ha b rfl pc ip x hsite hx

/-- **Every failure names an instruction of the program.** Whatever mix of
interpreted and compiled calls a run is made of, each compiled under any settings:
if the run fails, the failure gives a place inside the program, the opcode of the
instruction there, and its operand unless it is a jump. What is behind it is a bare
fault: none of the calls that the failure passes through on its way out names a
further place. -/
theorem failure_names_instruction {s : σ} {output : Array String} {fuel : Nat} {e : Ending σ}
    {failure : Failure}
    (hs : hooks.Serves (fun i a => ∃ t : Settings, env.program.compile t i = .ok a) s)
    (hrun : env.run hooks s output fuel = some e) (hfail : e.result = .error failure) :
    ∃ ip x cause y, failure = .trap ip x (.fault cause) ∧ env.program.code[ip]? = some y ∧ x.op = y.op ∧
      (y.op.isJump = false → x.operand = y.operand) := by
  have hserves : hooks.Serves (fun _ a => a.body.Traced env.program) s :=
    hs.mono fun i a ⟨t, ha⟩ => Program.compile_traced ha
  obtain ⟨r, hreach, hstep⟩ := Ends.last ⟨fuel, hrun⟩
  obtain ⟨f, hboot⟩ := under_boot env s output
  obtain ⟨as, hunder, htraced, -⟩ := hboot.keeps
    (I := fun t as => Traced env.program as ∧
      hooks.Serves (fun _ a => a.body.Traced env.program) t.hooks)
    (fun t u m as as' _ _ hi hact _ => ⟨hact.traced hi.2 hi.1, hact.serves hi.2⟩)
    ⟨traced_boot env.program f, hserves⟩ hreach
  obtain ⟨m, ho⟩ := hunder.ended hstep
  have hsome : e.failure = some failure := by
    unfold Ending.result at hfail
    cases hf : e.failure with
    | none => rw [hf] at hfail; cases hfail
    | some g => rw [hf] at hfail; cases hfail; rfl
  cases ho with
  | @fault a as ip x cause n s' hsite hx =>
    obtain ⟨y, hy, hlike⟩ := htraced.site (List.mem_cons_self ..) hsite hx
    exact ⟨ip, x, cause, y, (Option.some.inj hsome).symm, hy, hlike.op, hlike.operand⟩
  | @lost a b as ip x cause n s' hsite hop =>
    obtain ⟨y, hy, hlike⟩ := htraced.site (a := b) (by simp) hsite (constant?_of_call hop)
    exact ⟨ip, x, cause, y, (Option.some.inj hsome).symm, hy, hlike.op, hlike.operand⟩
  | halted | ranOut => cases hsome

/-- One function calls another, which divides by zero; both have sums to fold. -/
def nestedDivision : Env where
  program :=
    { code :=
        [⟨.call, some 0⟩, ⟨.halt, none⟩,
         ⟨.pushInt, some 2⟩, ⟨.pushInt, some 3⟩, ⟨.binary .add, none⟩, ⟨.call, some 1⟩, ⟨.ret, none⟩,
         ⟨.loadLocal, some 0⟩, ⟨.pushInt, some 1⟩, ⟨.pushInt, some 1⟩, ⟨.binary .sub, none⟩,
         ⟨.binary .div, none⟩, ⟨.ret, none⟩]
      functions := [⟨"outer", 2, 0, 0, true⟩, ⟨"inner", 7, 1, 1, true⟩] }

/-- The first function is served by integrated code, the others by isolated. -/
def bothForms : Hooks Unit where
  compiled s f :=
    ((nestedDivision.program.compile
      { form := if f = 0 then .integrated else .isolated, simplify := true } f).toOption, s)
  notify s _ := s

theorem serves_bothForms :
    bothForms.Serves (fun i a => ∃ t : Settings, nestedDivision.program.compile t i = .ok a) () := by
  refine ⟨fun _ => True, trivial, fun t _ f => ⟨fun a ha => ?_, trivial, trivial⟩⟩
  simp only [bothForms] at ha
  cases hc : nestedDivision.program.compile
      { form := if f = 0 then .integrated else .isolated, simplify := true } f with
  | error e => rw [hc] at ha; cases ha
  | ok b =>
    rw [hc] at ha
    cases ha
    exact ⟨_, hc⟩

/-- Both calls are compiled, and folding has moved the division forward in its
body; the failure still names it where it stands in the stream. -/
theorem failure_names_instruction_nested :
    (nestedDivision.run bothForms () #[] 20).map
        (fun e => (e.result, e.machine.compiledCalls)) =
      some (.error (.trap 11 ⟨.binary .div, none⟩ (.fault .divisionByZero)), 2) ∧
    ∃ ip x cause y,
      Failure.trap 11 ⟨.binary .div, none⟩ (.fault .divisionByZero) = .trap ip x (.fault cause) ∧
      nestedDivision.program.code[ip]? = some y ∧ x.op = y.op ∧
      (y.op.isJump = false → x.operand = y.operand) := by
  have hrun : (nestedDivision.run bothForms () #[] 20).map
        (fun e => (e.result, e.machine.compiledCalls)) =
      some (.error (.trap 11 ⟨.binary .div, none⟩ (.fault .divisionByZero)), 2) := by decide +kernel
  obtain ⟨e, he, hpair⟩ := Option.map_eq_some_iff.mp hrun
  exact ⟨hrun, failure_names_instruction serves_bothForms he (Prod.mk.inj hpair).1⟩

end Run
end StackMachine
