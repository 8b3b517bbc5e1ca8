/-
# What a collection keeps

Objects refer to objects, so that what a program can still get at is more than
what it can name.

* `Heap.Reaches`: what can be reached from some values;
* `Collector.mem_follow`: following references marks the objects that can be
  reached and no others. The invariant of the search is that every object an
  object on the list of marks refers to is marked or still to be looked at;
* `Collector.get?_collect`: what is in the heap after a collection.
-/
import Mathlib
import StackMachine.Collector

namespace StackMachine

@[simp] theorem Value.addr?_eq_some_iff {v : Value} {a : Addr} : v.addr? = some a ↔ v = .ref a := by
  cases v <;> simp [Value.addr?]

theorem Value.mem_addrs {vs : List Value} {a : Addr} :
    a ∈ vs.filterMap Value.addr? ↔ .ref a ∈ vs := by
  simp

theorem Obj.mem_refs {o : Obj} {a : Addr} : a ∈ o.refs ↔ .ref a ∈ o.slots := Value.mem_addrs

namespace Heap

theorem contains_iff {h : Heap} {a : Addr} : h.contains a = true ↔ ∃ o, h.get? a = some o :=
  Option.isSome_iff_exists

theorem contains_alloc {h : Heap} {o : Obj} {a : Addr} (ha : h.contains a = true) :
    (h.alloc o).contains a = true := by
  unfold contains at ha ⊢
  rw [get?_alloc]
  split_ifs
  · rfl
  · exact ha

theorem contains_put {h : Heap} {a b : Addr} {o : Obj} : (h.put a o).contains b = h.contains b := by
  unfold contains
  rw [get?_put]
  split_ifs
  · rw [Option.isSome_map]
  · rfl

/-- An object is kept or counted as unmarked. -/
theorem size_keep_add_unmarked (h : Heap) (marks : List Addr) :
    (h.keep marks).size + h.unmarked marks = h.size := by
  have hlen := h.objects.length_eq_countP_add_countP (fun e => marks.contains e.1)
  simp only [size, keep, unmarked, ← List.countP_eq_length_filter]
  simpa using hlen.symm

/-- What can be reached from some values, through objects. -/
inductive Reaches (h : Heap) (vs : List Value) : Addr → Prop
  | root {a : Addr} : .ref a ∈ vs → Reaches h vs a
  | slot {a b : Addr} {o : Obj} : Reaches h vs a → h.get? a = some o → .ref b ∈ o.slots →
      Reaches h vs b

/-- What is closed under references and holds of the roots holds of all that can
be reached. -/
theorem Reaches.closed {h : Heap} {vs : List Value} {S : Set Addr} (hroot : ∀ a, .ref a ∈ vs → a ∈ S)
    (hslot : ∀ a ∈ S, ∀ o, h.get? a = some o → ∀ b, .ref b ∈ o.slots → b ∈ S) {a : Addr}
    (ha : h.Reaches vs a) : a ∈ S := by
  induction ha with
  | root hr => exact hroot _ hr
  | slot _ ho hb ih => exact hslot _ ih _ ho _ hb

end Heap

namespace Collector

variable {h : Heap}

/-- Addresses that lead nowhere else: every object they refer to is among them,
or in `work`. -/
def Closed (h : Heap) (marks work : List Addr) : Prop :=
  ∀ a ∈ marks, ∀ o, h.get? a = some o → ∀ b ∈ o.refs, h.contains b = true → b ∈ marks ∨ b ∈ work

theorem Closed.marked {marks work : List Addr} {a : Addr} (hc : Closed h marks (a :: work))
    (ha : a ∈ marks) : Closed h marks work := by
  intro x hx o ho b hb hlive
  rcases hc x hx o ho b hb hlive with hm | hw
  · exact Or.inl hm
  · rcases List.mem_cons.mp hw with rfl | hw
    · exact Or.inl ha
    · exact Or.inr hw

theorem Closed.missing {marks work : List Addr} {a : Addr} (hc : Closed h marks (a :: work))
    (ha : h.get? a = none) : Closed h marks work := by
  intro x hx o ho b hb hlive
  rcases hc x hx o ho b hb hlive with hm | hw
  · exact Or.inl hm
  · rcases List.mem_cons.mp hw with rfl | hw
    · simp [Heap.contains, ha] at hlive
    · exact Or.inr hw

/-- An object is marked, and what it refers to is still to be looked at. -/
theorem Closed.mark {marks work : List Addr} {a : Addr} {o : Obj} (hc : Closed h marks (a :: work))
    (ha : h.get? a = some o) :
    Closed h (a :: marks) ((o.refs.filter fun b => !(a :: marks).contains b) ++ work) := by
  intro x hx o' ho' b hb hlive
  by_cases hm : b ∈ a :: marks
  · exact Or.inl hm
  refine Or.inr (List.mem_append.mpr ?_)
  rcases List.mem_cons.mp hx with rfl | hx
  · obtain rfl : o = o' := Option.some.inj (ha.symm.trans ho')
    exact Or.inl (List.mem_filter.mpr ⟨hb, by simpa using hm⟩)
  · rcases hc x hx o' ho' b hb hlive with hb | hb
    · exact absurd (List.mem_cons_of_mem _ hb) hm
    · rcases List.mem_cons.mp hb with rfl | hb
      · exact absurd (List.mem_cons_self ..) hm
      · exact Or.inr hb

/-- **Following references is complete**: marks stay, what was to be looked at is
marked, and in the end nothing is left to be looked at. -/
theorem follow_complete {marks work : List Addr} (hc : Closed h marks work) :
    Closed h (follow h marks work) [] ∧ (∀ a ∈ marks, a ∈ follow h marks work) ∧
      ∀ a ∈ work, h.contains a = true → a ∈ follow h marks work := by
  fun_induction follow h marks work with
  | case1 marks => exact ⟨hc, fun _ ha => ha, fun _ ha => absurd ha List.not_mem_nil⟩
  | case2 marks a work hg ih =>
    obtain ⟨hclosed, hmarks, hwork⟩ := ih (hc.missing hg)
    refine ⟨hclosed, hmarks, fun b hb hlive => ?_⟩
    rcases List.mem_cons.mp hb with rfl | hb
    · simp [Heap.contains, hg] at hlive
    · exact hwork b hb hlive
  | case3 marks a work o hg hm ih =>
    obtain ⟨hclosed, hmarks, hwork⟩ := ih (hc.marked hm)
    refine ⟨hclosed, hmarks, fun b hb hlive => ?_⟩
    rcases List.mem_cons.mp hb with rfl | hb
    · exact hmarks b hm
    · exact hwork b hb hlive
  | case4 marks a work o hg hm ih =>
    obtain ⟨hclosed, hmarks, hwork⟩ := ih (hc.mark hg)
    refine ⟨hclosed, fun b hb => hmarks b (List.mem_cons_of_mem _ hb), fun b hb hlive => ?_⟩
    rcases List.mem_cons.mp hb with rfl | hb
    · exact hmarks b (List.mem_cons_self ..)
    · exact hwork b (List.mem_append_right _ hb) hlive

/-- **Following references is sound**: only objects that can be reached are
added to the marks. -/
theorem follow_sound {vs : List Value} {marks work : List Addr}
    (hwork : ∀ a ∈ work, h.Reaches vs a) {a : Addr} (ha : a ∈ follow h marks work) :
    a ∈ marks ∨ h.contains a = true ∧ h.Reaches vs a := by
  fun_induction follow h marks work with
  | case1 marks => exact Or.inl ha
  | case2 marks b work hg ih => exact ih (fun x hx => hwork x (List.mem_cons_of_mem _ hx)) ha
  | case3 marks b work o hg hm ih => exact ih (fun x hx => hwork x (List.mem_cons_of_mem _ hx)) ha
  | case4 marks b work o hg hm ih =>
    have hb : h.Reaches vs b := hwork b (List.mem_cons_self ..)
    have hnext : ∀ x ∈ (o.refs.filter fun c => !(b :: marks).contains c) ++ work, h.Reaches vs x := by
      intro x hx
      rcases List.mem_append.mp hx with hx | hx
      · exact hb.slot hg (Obj.mem_refs.mp (List.mem_filter.mp hx).1)
      · exact hwork x (List.mem_cons_of_mem _ hx)
    rcases ih hnext ha with ha | ha
    · rcases List.mem_cons.mp ha with rfl | ha
      · exact Or.inr ⟨Heap.contains_iff.mpr ⟨o, hg⟩, hb⟩
      · exact Or.inl ha
    · exact Or.inr ha

/-- From no marks, exactly the objects that can be reached are marked. -/
theorem mem_follow {vs : List Value} {a : Addr} :
    a ∈ follow h [] (vs.filterMap Value.addr?) ↔ h.contains a = true ∧ h.Reaches vs a := by
  constructor
  · intro ha
    have hwork : ∀ b ∈ vs.filterMap Value.addr?, h.Reaches vs b :=
      fun b hb => .root (Value.mem_addrs.mp hb)
    exact (follow_sound hwork ha).resolve_left List.not_mem_nil
  · rintro ⟨hlive, ha⟩
    have hnil : Closed h [] (vs.filterMap Value.addr?) := fun b hb => absurd hb List.not_mem_nil
    obtain ⟨hclosed, -, hwork⟩ := follow_complete hnil
    induction ha with
    | root hr => exact hwork _ (Value.mem_addrs.mpr hr) hlive
    | slot _ ho hb ih =>
      have hx := ih (Heap.contains_iff.mpr ⟨_, ho⟩)
      exact (hclosed _ hx _ ho _ (Obj.mem_refs.mpr hb) hlive).resolve_right List.not_mem_nil

/-- **A collection keeps what can be reached**, as it is, and nothing else. -/
theorem get?_collect (c : Collector) (h : Heap) (vs : List Value) (a : Addr) (o : Obj) :
    (c.collect h vs).1.get? a = some o ↔ h.get? a = some o ∧ h.Reaches vs a := by
  have hget : (c.collect h vs).1.get? a = (h.keep (follow h [] (vs.filterMap Value.addr?))).get? a := rfl
  rw [hget, Heap.get?_keep]
  by_cases ha : a ∈ follow h [] (vs.filterMap Value.addr?)
  · rw [if_pos ha]
    exact ⟨fun ho => ⟨ho, (mem_follow.mp ha).2⟩, fun ho => ho.1⟩
  · rw [if_neg ha]
    constructor
    · intro ho
      cases ho
    · rintro ⟨ho, hr⟩
      exact absurd (mem_follow.mpr ⟨Heap.contains_iff.mpr ⟨o, ho⟩, hr⟩) ha

end Collector

end StackMachine
