/-
# Writing globals back

Isolated code works on a copy of the globals and keeps a list of those it has
written. What it leaves behind are the globals of the machine with those on the
list written again, each with its last value: the same list as the copy,
in values and in length (`Context.Written.writeBack`). That every slot on the
list may be written is kept by every instruction (`Context.exec_written`), so
that writing back never fails.
-/
import Mathlib
import StackMachine.Compiled.Artifact
import StackMachine.Proofs.Bodies
import StackMachine.Proofs.Contexts

namespace StackMachine

/-! ### Lists that grow -/

theorem length_setGrowing (g : List Value) (k : Nat) (v : Value) :
    (setGrowing g k v).length = max g.length (k + 1) := by
  simp only [setGrowing, List.length_set, List.length_append, Value.length_zeros]
  omega

/-- A value at a place, and zero past the end, is all there is to a list but its
length. -/
theorem getD_setGrowing (g : List Value) (k : Nat) (v : Value) (j : Nat) :
    (setGrowing g k v).getD j .zero = if j = k then v else g.getD j .zero := by
  have hgrown : (g ++ Value.zeros (k + 1 - g.length)).getD j .zero = g.getD j .zero := by
    by_cases hj : j < g.length
    · rw [List.getD_append _ _ _ _ hj]
    · rw [List.getD_append_right _ _ _ _ (by omega), List.getD_eq_default g _ (by omega),
        Value.zeros, List.getD_eq_getElem?_getD, List.getElem?_replicate]
      split_ifs <;> rfl
  have hk : k < (g ++ Value.zeros (k + 1 - g.length)).length := by
    simp only [List.length_append, Value.length_zeros]
    omega
  rw [setGrowing, List.getD_eq_getElem?_getD, List.getElem?_set]
  by_cases h : j = k
  · rw [if_pos h.symm, if_pos hk, if_pos h]
    rfl
  · rw [if_neg (Ne.symm h), if_neg h, ← List.getD_eq_getElem?_getD, hgrown]

theorem ext_getD {g h : List Value} (hlen : g.length = h.length)
    (heq : ∀ j, g.getD j .zero = h.getD j .zero) : g = h := by
  refine List.ext_getElem hlen fun j hg hh => ?_
  have := heq j
  rwa [List.getD_eq_getElem _ _ hg, List.getD_eq_getElem _ _ hh] at this

/-- A list with the values of another at these places. -/
def overwrite (values : List Value) (g : List Value) (ks : List Nat) : List Value :=
  ks.foldl (fun g k => setGrowing g k (values.getD k .zero)) g

/-- How long a list is that has been written at these places. -/
def grownLength (n : Nat) (ks : List Nat) : Nat := ks.foldl (fun n k => max n (k + 1)) n

theorem length_overwrite (values g : List Value) (ks : List Nat) :
    (overwrite values g ks).length = grownLength g.length ks := by
  unfold overwrite grownLength
  induction ks generalizing g with
  | nil => rfl
  | cons k ks ih => rw [List.foldl_cons, List.foldl_cons, ih, length_setGrowing]

theorem getD_overwrite (values g : List Value) (ks : List Nat) (j : Nat) :
    (overwrite values g ks).getD j .zero =
      if j ∈ ks then values.getD j .zero else g.getD j .zero := by
  unfold overwrite
  induction ks generalizing g with
  | nil => rfl
  | cons k ks ih =>
    rw [List.foldl_cons, ih, getD_setGrowing]
    by_cases hj : j ∈ ks
    · simp [hj]
    · by_cases hk : j = k
      · simp [hk]
      · simp [hj, hk]

/-! ### The globals that were written -/

namespace Machine

theorem storeGlobal_ok {s : Settings} {m : Machine} {k : Nat} (hk : k < s.maxGlobals)
    (hword : k < 2 ^ 63) (v : Value) :
    storeGlobal s (Int64.ofNat k) v m =
      .ok () { m with globals := setGrowing m.globals k v } := by
  have hplace : Instr.place? (Int64.ofNat k) = some k :=
    Instr.place?_eq_some_iff.mpr (Int64.toInt_ofNat_of_lt hword)
  have hslot : slot .global (Int64.ofNat k) s.maxGlobals = .ok k := by
    simp [slot, slot?, hplace, Option.filter, hk]
  unfold storeGlobal
  rw [hslot]
  rfl

theorem writeBack_ok {s : Settings} {ks : List Nat}
    (h : ∀ k ∈ ks, k < s.maxGlobals ∧ k < 2 ^ 63) (globals : List Value) (m : Machine) :
    writeBack s globals ks m = .ok () { m with globals := overwrite globals m.globals ks } := by
  induction ks generalizing m with
  | nil => rfl
  | cons k ks ih =>
    have hk := h k (List.mem_cons_self ..)
    unfold writeBack
    rw [bind_of_ok (storeGlobal_ok hk.1 hk.2 _), ih fun j hj => h j (List.mem_cons_of_mem _ hj)]
    rfl

end Machine

namespace Context

/-- The globals of the context are those it started from but for the slots on
its list, each of which may be written. -/
structure Written (g : List Value) (c : Context) : Prop where
  bound : ∀ k ∈ c.dirty, k < c.maxGlobals ∧ k < 2 ^ 63
  length : c.globals.length = grownLength g.length c.dirty
  clean : ∀ k, k ∉ c.dirty → c.globals.getD k .zero = g.getD k .zero

variable {g : List Value} {c : Context}

/-- One more global is written. -/
theorem Written.set (h : Written g c) {k : Nat} (hk : k < c.maxGlobals) (hword : k < 2 ^ 63)
    (v : Value) (st : List Value) :
    Written g { c with stack := st, globals := setGrowing c.globals k v, dirty := c.dirty ++ [k] } where
  bound j hj := by
    rcases List.mem_append.mp hj with hj | hj
    · exact h.bound j hj
    · rw [List.mem_singleton.mp hj]
      exact ⟨hk, hword⟩
  length := by
    rw [length_setGrowing, h.length, grownLength, grownLength, List.foldl_append]
    rfl
  clean j hj := by
    rw [List.mem_append, List.mem_singleton, not_or] at hj
    rw [getD_setGrowing, if_neg hj.2, h.clean j hj.1]

/-- **Writing back gives the globals of the context**, and does not fail. -/
theorem Written.writeBack (h : Written g c) {s : Settings} (hs : c.maxGlobals = s.maxGlobals)
    {m : Machine} (hm : m.globals = g) :
    Machine.writeBack s c.globals c.dirty m = .ok () { m with globals := c.globals } := by
  rw [Machine.writeBack_ok (hs ▸ h.bound), hm]
  have hglobals : overwrite c.globals g c.dirty = c.globals := by
    refine ext_getD ?_ fun j => ?_
    · rw [length_overwrite, h.length]
    · rw [getD_overwrite]
      by_cases hj : j ∈ c.dirty
      · rw [if_pos hj]
      · rw [if_neg hj, h.clean j hj]
  rw [hglobals]

theorem slot_ok {kind : SlotKind} {n : Int64} {size k : Nat} (h : slot kind n size = .ok k) :
    k < size ∧ k < 2 ^ 63 := by
  unfold slot at h
  cases hs : slot? n size with
  | none => rw [hs] at h; cases h
  | some j =>
    rw [hs] at h
    cases h
    have hplace := Instr.place?_eq_some_iff.mp (Option.filter_eq_some_iff.mp hs).1
    have hword := n.toInt_lt
    exact ⟨lt_of_slot? hs, by omega⟩

/-- Every instruction keeps account of what is written. -/
theorem exec_written (h : Written g c) (x : Instr) :
    Gives (exec x) c
      (fun fl d => Written g d ∧ d.maxGlobals = c.maxGlobals ∧ (fl ≠ .returned → d.result = c.result))
      (fun _ _ => True) := by
  have hsame : ∀ {d : Context}, d.dirty = c.dirty → d.globals = c.globals →
      d.maxGlobals = c.maxGlobals → Written g d := by
    intro d h1 h2 h3
    exact ⟨h1 ▸ h3 ▸ h.bound, h1 ▸ h2 ▸ h.length, h1 ▸ h2 ▸ h.clean⟩
  unfold exec
  cases hop : x.op with
  | storeGlobal =>
    simp only [gives_bind, gives_lift, gives_pop, gives_get, gives_modify, gives_pure]
    refine ⟨fun n _ => ⟨fun _ => trivial, fun v vs _ => ⟨fun k hk => ?_, fun _ _ => trivial⟩⟩,
      fun _ _ => trivial⟩
    obtain ⟨hlt, hword⟩ := slot_ok hk
    exact ⟨h.set hlt hword v vs, trivial, fun _ => trivial⟩
  | jump w => cases w <;> simp [h, hsame]
  | _ => simp [h, hsame]

end Context
end StackMachine
