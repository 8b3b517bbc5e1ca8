/-
# Runs of isolated code

How a run of isolated code ends (`Context.Ends`), and where it gets on its way
(`Context.Reach`). An instruction changes the height of the operand stack as the
table of effects says (`Context.exec_ok`), so that in a body that passes the
check every state that is reached has the height on record
(`Context.Upright.step`).
-/
import Mathlib
import StackMachine.Compiled.Isolated
import StackMachine.Proofs.Operations

namespace StackMachine
namespace Context

variable {code : Code} {pc : Nat} {c : Context}

/-! ### Runs -/

/-- Run from `pc`, the code ends like this after some number of steps. -/
def Ends (code : Code) (pc : Nat) (c : Context) (r : EStateM.Result Fault Context Unit) : Prop :=
  ∃ fuel, run code fuel pc c = some r

/-- How a run ends is decided by its first step. -/
theorem ends_iff {r : EStateM.Result Fault Context Unit} :
    Ends code pc c r ↔
      match step code pc c with
      | .on pc' c' => Ends code pc' c' r
      | .ended c' => r = .ok () c'
      | .failed e c' => r = .error e c' := by
  constructor
  · rintro ⟨fuel, h⟩
    cases fuel with
    | zero => cases h
    | succ fuel =>
      unfold run at h
      cases hs : step code pc c with
      | on pc' c' => rw [hs] at h; exact ⟨fuel, h⟩
      | ended c' => rw [hs] at h; exact (Option.some.inj h).symm
      | failed e c' => rw [hs] at h; exact (Option.some.inj h).symm
  · intro h
    cases hs : step code pc c with
    | on pc' c' =>
      rw [hs] at h
      obtain ⟨fuel, h⟩ := h
      exact ⟨fuel + 1, by rw [run, hs]; exact h⟩
    | ended c' => rw [hs] at h; exact ⟨1, by rw [run, hs, h]⟩
    | failed e c' => rw [hs] at h; exact ⟨1, by rw [run, hs, h]⟩

theorem run_step {pc' fuel : Nat} {c' : Context} {r : EStateM.Result Fault Context Unit}
    (hs : step code pc c = .on pc' c') (hr : run code fuel pc c = some r) :
    ∃ fuel' < fuel, run code fuel' pc' c' = some r := by
  cases fuel with
  | zero => cases hr
  | succ fuel =>
    rw [run, hs] at hr
    exact ⟨fuel, Nat.lt_succ_self fuel, hr⟩

/-- At `pc` a jump is taken, and lands on `t`. -/
def Lands (code : Code) (pc : Nat) (c : Context) (t : Nat) (c' : Context) : Prop :=
  ∃ x, code[pc]? = some x ∧ exec x c = .ok (.jump t) c'

/-- A run from `pc` gets here, and the jumps it takes land on such places only. -/
inductive Reach (code : Code) (ok : Nat → Prop) (pc : Nat) (c : Context) : Nat → Context → Prop
  | here : Reach code ok pc c pc c
  | step {pc₁ pc₂ : Nat} {c₁ c₂ : Context} : Reach code ok pc c pc₁ c₁ →
      step code pc₁ c₁ = .on pc₂ c₂ → (Lands code pc₁ c₁ pc₂ c₂ → ok pc₂) → Reach code ok pc c pc₂ c₂

/-- Where control goes on after a step. -/
theorem step_on {pc' : Nat} {c' : Context} (h : step code pc c = .on pc' c') :
    ∃ x, code[pc]? = some x ∧ (exec x c = .ok .next c' ∧ pc' = pc + 1 ∨
      exec x c = .ok (.jump pc') c') := by
  unfold step at h
  cases hx : code[pc]? with
  | none => rw [hx] at h; cases h
  | some x =>
    rw [hx] at h
    simp only at h
    rcases hr : exec x c with ⟨fl, c₁⟩ | ⟨e, c₁⟩
    · rw [hr] at h
      cases fl with
      | next => cases h; exact ⟨x, rfl, Or.inl ⟨hr, rfl⟩⟩
      | jump t => cases h; exact ⟨x, rfl, Or.inr hr⟩
      | call | returned | stop => cases h
    · rw [hr] at h; cases h

theorem step_ended {c' : Context} (h : step code pc c = .ended c') :
    code[pc]? = none ∨ ∃ x fl, code[pc]? = some x ∧ exec x c = .ok fl c' := by
  unfold step at h
  cases hx : code[pc]? with
  | none => exact Or.inl rfl
  | some x =>
    rw [hx] at h
    simp only at h
    rcases hr : exec x c with ⟨fl, c₁⟩ | ⟨e, c₁⟩
    · rw [hr] at h
      cases fl with
      | next | jump => cases h
      | call | returned | stop => cases h; exact Or.inr ⟨x, _, rfl, hr⟩
    · rw [hr] at h; cases h

theorem step_failed {e : Fault} {c' : Context} (h : step code pc c = .failed e c') :
    ∃ x, code[pc]? = some x ∧ exec x c = .error e c' := by
  unfold step at h
  cases hx : code[pc]? with
  | none => rw [hx] at h; cases h
  | some x =>
    rw [hx] at h
    simp only at h
    rcases hr : exec x c with ⟨fl, c₁⟩ | ⟨e', c₁⟩
    · rw [hr] at h
      cases fl <;> cases h
    · rw [hr] at h
      cases h
      exact ⟨x, rfl, hr⟩

/-- Isolated code does not call. -/
theorem step_call {x : Instr} (hx : code[pc]? = some x) (hop : x.op = .call) :
    step code pc c = .failed (.unsupported .call) c := by
  obtain ⟨op, operand⟩ := x
  obtain rfl : op = .call := hop
  simp only [step, hx]
  rfl

theorem Lands.step {t : Nat} {c' : Context} (h : Lands code pc c t c') :
    step code pc c = .on t c' := by
  obtain ⟨x, hx, hr⟩ := h
  simp only [Context.step, hx, hr]

section Reach

variable {ok : Nat → Prop} {pc' : Nat} {c' : Context}

theorem Reach.head {pc₁ : Nat} {c₁ : Context} (hs : Context.step code pc c = .on pc₁ c₁)
    (hok : Lands code pc c pc₁ c₁ → ok pc₁) (h : Reach code ok pc₁ c₁ pc' c') :
    Reach code ok pc c pc' c' := by
  induction h with
  | here => exact .step .here hs hok
  | step _ hs' hok' ih => exact .step ih hs' hok'

theorem Reach.trans {pc₁ : Nat} {c₁ : Context} (h : Reach code ok pc c pc₁ c₁)
    (h' : Reach code ok pc₁ c₁ pc' c') : Reach code ok pc c pc' c' := by
  induction h' with
  | here => exact h
  | step _ hs hok ih => exact .step ih hs hok

theorem Reach.mono {ok' : Nat → Prop} (hle : ∀ t, ok t → ok' t) (h : Reach code ok pc c pc' c') :
    Reach code ok' pc c pc' c' := by
  induction h with
  | here => exact .here
  | step _ hs hok ih => exact .step ih hs fun hl => hle _ (hok hl)

/-- A run ends as it does from any place it gets to. -/
theorem Reach.ends_iff (h : Reach code ok pc c pc' c') (r : EStateM.Result Fault Context Unit) :
    Ends code pc c r ↔ Ends code pc' c' r := by
  induction h with
  | here => rfl
  | step _ hs _ ih => rw [ih, Context.ends_iff, hs]

theorem Reach.run_le {fuel : Nat} {r : EStateM.Result Fault Context Unit}
    (h : Reach code ok pc c pc' c') (hr : run code fuel pc c = some r) :
    ∃ fuel' ≤ fuel, run code fuel' pc' c' = some r := by
  induction h with
  | here => exact ⟨fuel, le_rfl, hr⟩
  | step _ hs _ ih =>
    obtain ⟨fuel₁, hle, hr₁⟩ := ih
    obtain ⟨fuel₂, hlt, hr₂⟩ := run_step hs hr₁
    exact ⟨fuel₂, by omega, hr₂⟩

/-- A run that has got somewhere else takes fewer steps from there. -/
theorem Reach.run_lt {fuel : Nat} {r : EStateM.Result Fault Context Unit}
    (h : Reach code ok pc c pc' c') (hne : pc ≠ pc') (hr : run code fuel pc c = some r) :
    ∃ fuel' < fuel, run code fuel' pc' c' = some r := by
  cases h with
  | here => exact absurd rfl hne
  | step h hs _ =>
    obtain ⟨fuel₁, hle, hr₁⟩ := h.run_le hr
    obtain ⟨fuel₂, hlt, hr₂⟩ := run_step hs hr₁
    exact ⟨fuel₂, by omega, hr₂⟩

end Reach

/-! ### The height of the stack -/

section Gives

variable {F : Fault → Context → Prop}

@[simp] theorem gives_push (v : Value) {P : Unit → Context → Prop} :
    Gives (push v) c P F ↔ P () { c with stack := v :: c.stack } := Iff.rfl

@[simp] theorem gives_pop (op : Opcode) {P : Value → Context → Prop} :
    Gives (pop op) c P F ↔ (c.stack = [] → F (.stackUnderflow op) c) ∧
      ∀ v vs, c.stack = v :: vs → P v { c with stack := vs } := by
  unfold Gives pop
  cases h : c.stack <;> simp

@[simp] theorem gives_peek (op : Opcode) {P : Value → Context → Prop} :
    Gives (peek op) c P F ↔ (c.stack = [] → F (.stackUnderflow op) c) ∧
      ∀ v vs, c.stack = v :: vs → P v c := by
  unfold Gives peek
  cases h : c.stack <;> simp

@[simp] theorem gives_print (line : String) {P : Unit → Context → Prop} :
    Gives (print line) c P F ↔ P () { c with output := c.output.push line } := Iff.rfl

end Gives

/-- Where an instruction may say that control goes. -/
def FlowOf (x : Instr) : Flow → Prop
  | .next => x.op.movesData = true ∨ ∃ b, x.op = .jump (.on b)
  | .jump t => x.op.isJump = true ∧ ∃ n, x.operand = some n ∧ Instr.place? n = some t
  | .returned => x.op = .ret ∨ x.op = .retVoid
  | .call _ | .stop => False

theorem FlowOf.next_of_data {x : Instr} {fl : Flow} (h : FlowOf x fl)
    (hd : x.op.movesData = true) : fl = .next := by
  cases fl with
  | next => rfl
  | jump t =>
    obtain ⟨hj, -⟩ := h
    rw [Opcode.isJump_of_movesData hd] at hj
    cases hj
  | returned => rcases h with h | h <;> rw [h] at hd <;> cases hd
  | call | stop => cases h

/-- An instruction that goes through takes and puts as many values as the table
of effects says, and control goes where its opcode lets it. -/
theorem exec_ok (x : Instr) (c : Context) :
    Gives (exec x) c
      (fun fl t => FlowOf x fl ∧ ∃ pops pushes, Instr.fixedEffect x.op = some (pops, pushes) ∧
        c.stack.length + pushes = t.stack.length + pops)
      (fun _ _ => True) := by
  unfold exec
  cases hop : x.op with
  | jump w =>
    have htarget : ∀ t, x.target = .ok t → ∃ n, x.operand = some n ∧ Instr.place? n = some t := by
      intro t ht
      unfold Instr.target Instr.arg at ht
      cases hn : x.operand with
      | none => rw [hn] at ht; cases ht
      | some n =>
        rw [hn] at ht
        cases hp : Instr.place? n with
        | none => simp [bind, Except.bind, hp] at ht
        | some t' =>
          simp only [bind, Except.bind, hp] at ht
          cases ht
          exact ⟨n, rfl, hp⟩
    cases w with
    | always =>
      simp only [gives_bind, gives_lift, gives_pure, FlowOf, hop, Instr.fixedEffect]
      exact ⟨fun t ht => ⟨⟨rfl, htarget t ht⟩, 0, 0, rfl, rfl⟩, fun _ _ => trivial⟩
    | on b =>
      simp only [gives_bind, gives_lift, gives_pop, gives_pure, Instr.fixedEffect]
      refine ⟨fun t ht => ⟨fun _ => trivial, fun v vs hst => ⟨?_, 1, 0, rfl, by simp [hst]⟩⟩,
        fun _ _ => trivial⟩
      split_ifs
      · exact ⟨by rw [hop]; rfl, htarget t ht⟩
      · exact Or.inr ⟨b, hop⟩
  | binary b =>
    rcases hst : c.stack with _ | ⟨r, _ | ⟨l, st⟩⟩ <;>
      simp [FlowOf, hop, Instr.fixedEffect, Opcode.movesData, hst]
  | pop | unary | storeLocal | storeGlobal | printInt | printBool | ret =>
    rcases hst : c.stack with _ | ⟨v, st⟩ <;>
      simp [FlowOf, hop, Instr.fixedEffect, Opcode.movesData, hst]
  | _ => simp [FlowOf, hop, Instr.fixedEffect, Opcode.movesData]

theorem pop_nil (h : c.stack = []) (op : Opcode) : pop op c = .error (.stackUnderflow op) c := by
  simp only [pop, h]

theorem pop_cons {v : Value} {vs : List Value} (h : c.stack = v :: vs) (op : Opcode) :
    pop op c = .ok v { c with stack := vs } := by
  simp only [pop, h]

/-- What a jump to `t` comes down to. -/
def branch (op : Opcode) (w : Branch) (t : Nat) (c : Context) : EStateM.Result Fault Context Flow :=
  match w, c.stack with
  | .always, _ => .ok (.jump t) c
  | .on _, [] => .error (.stackUnderflow op) c
  | .on b, v :: vs => .ok (if v.truth = b then .jump t else .next) { c with stack := vs }

theorem exec_jump {x : Instr} {w : Branch} {n : Int64} {t : Nat} (hop : x.op = .jump w)
    (hn : x.operand = some n) (ht : Instr.place? n = some t) : exec x c = branch x.op w t c := by
  have htarget : x.target = .ok t := by
    simp [Instr.target, Instr.arg, hn, ht, bind, Except.bind, pure, Except.pure]
  obtain ⟨op, operand⟩ := x
  obtain rfl : op = .jump w := hop
  cases w with
  | always => simp only [exec, htarget]; rfl
  | on b =>
    have hexec : exec ⟨.jump (.on b), operand⟩ c =
        (pop (.jump (.on b)) >>= fun v =>
          pure (if v.truth = b then .jump t else .next) : Exec Flow) c := by
      simp only [exec, htarget]
      rfl
    rw [hexec]
    cases hst : c.stack with
    | nil =>
      rw [bind_of_error (pop_nil hst _)]
      simp only [branch, hst]
    | cons v vs =>
      rw [bind_of_ok (pop_cons hst _)]
      simp only [branch, hst]
      rfl

theorem exec_ret {x : Instr} {v : Value} {vs : List Value} (hop : x.op = .ret)
    (hst : c.stack = v :: vs) :
    exec x c = .ok .returned { c with stack := vs, result := some v } := by
  obtain ⟨op, operand⟩ := x
  obtain rfl : op = .ret := hop
  exact bind_of_ok (pop_cons hst .ret)

theorem exec_retVoid {x : Instr} (hop : x.op = .retVoid) : exec x c = .ok .returned c := by
  obtain ⟨op, operand⟩ := x
  obtain rfl : op = .retVoid := hop
  rfl

/-! ### Bodies that pass the check -/

section Checked

variable {fs : List Function} {heights : List (Option Nat)} {peak : Nat}

/-- At a place on record, with the height on record. -/
def Upright (heights : List (Option Nat)) (pc : Nat) (c : Context) : Prop :=
  heights[pc]? = some (some c.stack.length)

/-- The instruction at such a place, and what the check says of it. -/
theorem Upright.checked (ha : Heights.Accepted fs code heights peak) (h : Upright heights pc c) :
    ∃ x, code[pc]? = some x ∧ Heights.Checked fs heights pc c.stack.length x :=
  (ha.settled _ _ h).checked

/-- What ends by itself returns. -/
theorem step_ended_op {c' : Context} {x : Instr} (hx : code[pc]? = some x)
    (h : step code pc c = .ended c') :
    exec x c = .ok .returned c' ∧ (x.op = .ret ∨ x.op = .retVoid) := by
  have hok := exec_ok x c
  unfold Gives at hok
  simp only [step, hx] at h
  rcases hr : exec x c with ⟨fl, c₁⟩ | ⟨e, c₁⟩ <;> rw [hr] at h hok
  · cases fl with
    | returned => cases h; exact ⟨rfl, hok.1⟩
    | call | stop => exact hok.1.elim
    | next | jump => cases h
  · cases h

/-- A step from where there are enough operands goes to where `E` allows. -/
theorem step_enough {E : Nat → Nat → Prop} {x : Instr} {pc' : Nat} {c' : Context}
    (hx : code[pc]? = some x) (hen : Heights.Enough fs E pc c.stack.length x)
    (hs : Context.step code pc c = .on pc' c') : E pc' c'.stack.length := by
  obtain ⟨y, hy, hstep⟩ := step_on hs
  obtain rfl : x = y := Option.some.inj (hx.symm.trans hy)
  have hok := exec_ok x c
  unfold Gives at hok
  rcases hstep with ⟨hr, rfl⟩ | hr <;> rw [hr] at hok <;>
    obtain ⟨hfl, pops, pushes, he, hlen⟩ := hok
  · -- control goes on to the next instruction
    cases hen with
    | data pops' pushes' _ _ he' hle hnext =>
      obtain ⟨rfl, rfl⟩ := Prod.mk.inj (Option.some.inj (he.symm.trans he'))
      rwa [show c'.stack.length = c.stack.length - pops + pushes by omega]
    | branch b n t hop _ _ hle hnext _ =>
      rw [hop] at he
      cases he
      rwa [show c'.stack.length = c.stack.length - 1 by omega]
    | jump _ _ hop | call _ _ _ hop | ret hop | retVoid hop | halt hop =>
      simp [FlowOf, hop, Opcode.movesData] at hfl
  · -- control goes where the jump says
    obtain ⟨hj, n, hn, ht⟩ := hfl
    cases hen with
    | jump n' t hop hn' ht' hnext =>
      obtain rfl : n' = n := Option.some.inj (hn'.symm.trans hn)
      obtain rfl : t = pc' := Option.some.inj (ht'.symm.trans ht)
      rw [hop] at he
      cases he
      rwa [show c'.stack.length = c.stack.length from hlen.symm]
    | branch b n' t hop hn' ht' hle _ hland =>
      obtain rfl : n' = n := Option.some.inj (hn'.symm.trans hn)
      obtain rfl : t = pc' := Option.some.inj (ht'.symm.trans ht)
      rw [hop] at he
      cases he
      rwa [show c'.stack.length = c.stack.length - 1 by omega]
    | data _ _ hd => rw [Opcode.isJump_of_movesData hd] at hj; cases hj
    | call _ _ _ hop | ret hop | retVoid hop | halt hop => rw [hop] at hj; cases hj

/-- **The height on record is the height there is.** -/
theorem Upright.step (ha : Heights.Accepted fs code heights peak) (h : Upright heights pc c)
    {pc' : Nat} {c' : Context} (hs : Context.step code pc c = .on pc' c') : Upright heights pc' c' := by
  obtain ⟨x, hx, hc⟩ := h.checked ha
  exact step_enough hx hc hs

theorem Upright.reach (ha : Heights.Accepted fs code heights peak) (h : Upright heights pc c)
    {ok : Nat → Prop} {pc' : Nat} {c' : Context} (hr : Reach code ok pc c pc' c') :
    Upright heights pc' c' := by
  induction hr with
  | here => exact h
  | step _ hs _ ih => exact ih.step ha hs

end Checked

end Context
end StackMachine
