/-
# What the passes have in common

A pass keeps some instructions of a body, in their order, and moves the jumps
along: a jump goes to where the first instruction that came from its landing or
from later has gone. So an instruction that is kept does what it did, at its new
place (`Peephole.step_retarget`), whatever else the pass does.
-/
import Mathlib
import StackMachine.Peephole
import StackMachine.Proofs.Bodies
import StackMachine.Proofs.Contexts

namespace StackMachine
namespace Peephole

variable {body : Code} {k : Nat} {x : Instr}

/-! ### Origins -/

theorem getElem?_trace (body : Code) (k : Nat) :
    (trace body)[k]? = body[k]?.map fun x => ⟨x, k⟩ := by
  simp [trace, List.getElem?_zipIdx, Function.comp_def]

theorem getElem?_trace_of_fetch {body : Code} {k : Nat} {x : Instr} (hx : body[k]? = some x) :
    (trace body)[k]? = some ⟨x, k⟩ := by
  rw [getElem?_trace, hx]
  rfl

theorem length_trace (body : Code) : (trace body).length = body.length := by simp [trace]

theorem countP_lt_succ (l : List Nat) (k : Nat) :
    l.countP (· < k + 1) = l.countP (· < k) + l.count k := by
  induction l with
  | nil => rfl
  | cons a l ih =>
    rw [List.countP_cons, List.countP_cons, List.count_cons, ih]
    by_cases h : a = k
    · simp [h]
      omega
    · have : (a < k + 1) ↔ a < k := by omega
      simp [h, this]
      omega

/-- Of different places, no more than `k` come before `k`. -/
theorem countP_lt_le {l : List Nat} (hl : l.Nodup) (k : Nat) : l.countP (· < k) ≤ k := by
  induction k with
  | zero => simp
  | succ k ih =>
    have hone : l.count k ≤ 1 := List.nodup_iff_count_le_one.mp hl k
    rw [countP_lt_succ]
    omega

theorem getElem?_countP {l : List Nat} (hl : l.Pairwise (· < ·)) (h : k ∈ l) :
    l[l.countP (· < k)]? = some k := by
  induction l with
  | nil => cases h
  | cons a l ih =>
    obtain ⟨ha, hl⟩ := List.pairwise_cons.mp hl
    rcases List.mem_cons.mp h with rfl | h
    · have hnone : l.countP (· < k) = 0 := by
        rw [List.countP_eq_zero]
        intro b hb
        have := ha b hb
        simpa using this.le
      rw [List.countP_cons, hnone]
      simp
    · have hak := ha k h
      rw [List.countP_cons]
      simpa [hak] using ih hl h

/-! ### Pushes of known values -/

theorem isJump_of_constant {v : Value} (hv : constant? x = some v) :
    x.op.isJump = false := by
  obtain ⟨op, operand⟩ := x
  cases op with
  | jump w => cases hv
  | _ => rfl

theorem exec_constant {v : Value} (hv : constant? x = some v) (c : Context) :
    Context.exec x c = .ok .next { c with stack := v :: c.stack } := by
  obtain ⟨op, operand⟩ := x
  cases op with
  | pushInt =>
    obtain ⟨n, rfl, rfl⟩ := Option.map_eq_some_iff.mp hv
    rfl
  | pushBool b => cases hv; rfl
  | _ => cases hv

theorem constant?_of_error {c c' : Context} {e : Fault} (h : Context.exec x c = .error e c') :
    constant? x = none := by
  cases hv : constant? x with
  | none => rfl
  | some v => rw [exec_constant hv] at h; cases h

/-! ### Jumps that move along -/

theorem landing?_eq_some_iff {t : Nat} :
    landing? x = some t ↔
      x.op.isJump = true ∧ ∃ n, x.operand = some n ∧ Instr.place? n = some t := by
  unfold landing?
  split_ifs with hj
  · simp [hj, Option.bind_eq_some_iff]
  · simp [hj]

/-- A jump that is taken lands where it says. -/
theorem landing?_of_exec {t : Nat} {c c' : Context} (h : Context.exec x c = .ok (.jump t) c') :
    landing? x = some t := by
  have hok := Context.exec_ok x c
  unfold Gives at hok
  rw [h] at hok
  exact landing?_eq_some_iff.mpr hok.1

theorem mem_landings_of_fetch {t : Nat} (hx : body[k]? = some x) (ht : landing? x = some t) :
    t ∈ landings body :=
  List.mem_filterMap.mpr ⟨x, List.mem_of_getElem? hx, ht⟩

theorem retarget_of_not_jump {size : Nat} {origins : List Nat} (h : x.op.isJump = false) :
    retarget size origins x = x := by
  simp [retarget, landing?, h]

theorem retarget_of_jump {size : Nat} {origins : List Nat} {t : Nat} (hl : origins.Nodup)
    (ht : landing? x = some t) (hle : t ≤ size) :
    ∃ n, retarget size origins x = ⟨x.op, some n⟩ ∧
      Instr.place? n = some (origins.countP (· < t)) := by
  refine ⟨_, by simp only [retarget, ht, hle, ↓reduceIte]; rfl, ?_⟩
  have hlt : t < 2 ^ 63 := by
    obtain ⟨-, n, -, hn⟩ := landing?_eq_some_iff.mp ht
    have h1 := Instr.place?_eq_some_iff.mp hn
    have h2 := n.toInt_lt
    omega
  have hcount := countP_lt_le hl t
  have hword : origins.countP (· < t) < 2 ^ 63 := by omega
  exact Instr.place?_eq_some_iff.mpr (Int64.toInt_ofNat_of_lt hword)

/-! ### Steps -/

/-- A step that goes on, with places moved. -/
def moved (f : Nat → Nat) : Context.Step → Context.Step
  | .on pc c => .on (f pc) c
  | s => s

/-- A jump with another target does the same, and lands there. -/
theorem step_jump_moved {f : Nat → Nat} {t j : Nat} {n : Int64} (ht : landing? x = some t)
    (hn : Instr.place? n = some (f t)) (hnext : f (k + 1) = j + 1) {out : Code}
    (hx : body[k]? = some x) (hy : out[j]? = some ⟨x.op, some n⟩) (c : Context) :
    Context.step out j c = moved f (Context.step body k c) := by
  obtain ⟨hj, m, hm, hplace⟩ := landing?_eq_some_iff.mp ht
  unfold Context.step
  rw [hx, hy]
  cases hop : x.op with
  | jump w =>
    simp only
    rw [Context.exec_jump hop hm hplace, Context.exec_jump (x := ⟨.jump w, some n⟩) rfl rfl hn, hop]
    unfold Context.branch
    cases w with
    | always => rfl
    | on b =>
      cases c.stack with
      | nil => rfl
      | cons v vs =>
        by_cases hv : v.truth = b
        · simp only [if_pos hv, moved]
        · simp only [if_neg hv, moved, hnext]
  | _ => rw [hop] at hj; cases hj

/-- **An instruction that is kept does what it did**, and goes on where what
comes next has gone to; a jump that leaves the body still leaves it. -/
theorem step_retarget {out : Code} {origins : List Nat} {f : Nat → Nat} {j : Nat}
    (hl : origins.Nodup) (hx : body[k]? = some x)
    (hy : out[j]? = some (retarget body.length origins x)) (hnext : f (k + 1) = j + 1)
    (hjump : ∀ t, landing? x = some t →
      f t = if t ≤ body.length then origins.countP (· < t) else t) (c : Context) :
    Context.step out j c = moved f (Context.step body k c) := by
  -- what is left as it is goes where it went, if the target has stayed in place
  have hsame : retarget body.length origins x = x → (∀ t, landing? x = some t → f t = t) →
      Context.step out j c = moved f (Context.step body k c) := by
    intro hr hf
    unfold Context.step
    rw [hy, hx, hr]
    simp only
    rcases he : Context.exec x c with ⟨fl, c'⟩ | ⟨e, c'⟩
    · cases fl with
      | next => rw [moved, hnext]
      | jump t => rw [moved, hf t (landing?_of_exec he)]
      | call | returned | stop => rfl
    · rfl
  cases ht : landing? x with
  | none => exact hsame (by simp only [retarget, ht]) (fun t h => by rw [ht] at h; cases h)
  | some t =>
    have hf := hjump t ht
    by_cases hle : t ≤ body.length
    · obtain ⟨n, hr, hn⟩ := retarget_of_jump hl ht hle
      rw [if_pos hle] at hf
      rw [hr] at hy
      rw [← hf] at hn
      exact step_jump_moved ht hn hnext hx hy c
    · rw [if_neg hle] at hf
      refine hsame (by simp only [retarget, ht, hle, ↓reduceIte]) fun u hu => ?_
      obtain rfl : t = u := Option.some.inj (ht.symm.trans hu)
      exact hf

end Peephole
end StackMachine
