/-
# What a collection frees and reports

A collection keeps what can be reached as it is (`Collector.get?_collect`). Here
is the rest of what it does. The loop that follows references comes to its end,
however the objects refer to each other: a turn takes one address off the work
and adds addresses only when it marks an object, which happens to each object
once. So no object is marked twice, and where no address has two objects the
marks count those that stay.

* `Collector.Turns`: the loop, turn by turn;
* `Collector.follow_turns`: it ends, after at most as many turns as there are
  addresses to look at and references in objects not yet marked;
* `Collector.collect_frees_unreachable`: what is left, what is marked, what is
  reported and what stays as it was.
-/
import Mathlib
import StackMachine.Proofs.Reachability

namespace StackMachine

namespace Heap

variable {h : Heap} {a : Addr}

/-- No address has two objects. -/
def Keyed (h : Heap) : Prop := (h.objects.map Prod.fst).Nodup

instance (h : Heap) : Decidable h.Keyed :=
  inferInstanceAs (Decidable (h.objects.map Prod.fst).Nodup)

theorem contains_iff_mem : h.contains a = true ↔ a ∈ h.objects.map Prod.fst := by
  simp only [contains, get?, List.lookup_isSome_iff, List.mem_map, beq_iff_eq]
  constructor
  · rintro ⟨e, he, rfl⟩
    exact ⟨e, he, rfl⟩
  · rintro ⟨e, he, rfl⟩
    exact ⟨e, he, rfl⟩

theorem keyed_keep (hk : h.Keyed) (live : List Addr) : (h.keep live).Keyed :=
  hk.sublist (List.filter_sublist.map Prod.fst)

/-- If the addresses to keep are those of objects, each given once, there are as
many as objects kept. -/
theorem size_keep {live : List Addr} (hk : h.Keyed) (hnd : live.Nodup)
    (hlive : ∀ a ∈ live, h.contains a = true) : (h.keep live).size = live.length := by
  have hsame : ∀ a, a ∈ (h.keep live).objects.map Prod.fst ↔ a ∈ live := by
    intro a
    rw [← contains_iff_mem, contains, get?_keep]
    by_cases ha : a ∈ live
    · have hsome : (h.get? a).isSome = true := hlive a ha
      simp [ha, hsome]
    · simp [ha]
  have hperm := (List.perm_ext_iff_of_nodup (keyed_keep hk live) hnd).mpr hsame
  rw [size, ← hperm.length_eq, List.length_map]

/-- How many references there are in objects that are not among `marks`. -/
def refsLeft (h : Heap) (marks : List Addr) : Nat :=
  (h.objects.map fun e => if e.1 ∈ marks then 0 else e.2.refs.length).sum

/-- Marking an object uses up its references. -/
theorem refsLeft_cons {marks : List Addr} {o : Obj} (hg : h.get? a = some o) (hm : a ∉ marks) :
    o.refs.length + h.refsLeft (a :: marks) ≤ h.refsLeft marks := by
  obtain ⟨before, after, hobjects⟩ := List.append_of_mem (mem_of_get? hg)
  have hle : ∀ es : List (Addr × Obj),
      (es.map fun e => if e.1 ∈ a :: marks then 0 else e.2.refs.length).sum ≤
        (es.map fun e => if e.1 ∈ marks then 0 else e.2.refs.length).sum := by
    intro es
    apply List.sum_le_sum
    intro e _
    by_cases he : e.1 ∈ marks
    · simp [he]
    · by_cases hea : e.1 = a
      · simp [hea]
      · simp [he, hea]
  have hbefore := hle before
  have hafter := hle after
  simp only [refsLeft, hobjects, List.map_append, List.map_cons, List.sum_append, List.sum_cons,
    List.mem_cons_self, hm, ↓reduceIte]
  omega

end Heap

namespace Collector

variable {h : Heap} {marks work : List Addr}

/-- The loop that follows references, by turns. A turn takes an address off the
work; if there is an object that is not marked, it is marked, and the addresses
it refers to are added unless they are marked themselves. -/
inductive Turns (h : Heap) : (n : Nat) → (marks work found : List Addr) → Prop
  | done {marks : List Addr} : Turns h 0 marks [] marks
  | missing {n : Nat} {marks work found : List Addr} {a : Addr} (get : h.get? a = none)
      (rest : Turns h n marks work found) : Turns h (n + 1) marks (a :: work) found
  | marked {n : Nat} {marks work found : List Addr} {a : Addr} (mem : a ∈ marks)
      (rest : Turns h n marks work found) : Turns h (n + 1) marks (a :: work) found
  | mark {n : Nat} {marks work found : List Addr} {a : Addr} {o : Obj} (get : h.get? a = some o)
      (new : a ∉ marks)
      (rest : Turns h n (a :: marks) (o.refs.filter (fun b => !(a :: marks).contains b) ++ work) found) :
      Turns h (n + 1) marks (a :: work) found

/-- **Following references ends**, after at most as many turns as there are
addresses to look at now or later. -/
theorem follow_turns (h : Heap) (marks work : List Addr) :
    ∃ n ≤ work.length + h.refsLeft marks, Turns h n marks work (follow h marks work) := by
  fun_induction follow h marks work with
  | case1 marks => exact ⟨0, Nat.zero_le _, .done⟩
  | case2 marks a work hg ih =>
    obtain ⟨n, hn, ht⟩ := ih
    exact ⟨n + 1, by simp only [List.length_cons]; omega, .missing hg ht⟩
  | case3 marks a work o hg hm ih =>
    obtain ⟨n, hn, ht⟩ := ih
    exact ⟨n + 1, by simp only [List.length_cons]; omega, .marked hm ht⟩
  | case4 marks a work o hg hm ih =>
    obtain ⟨n, hn, ht⟩ := ih
    have hrefs := Heap.refsLeft_cons hg hm
    have hfilter : (o.refs.filter fun b => !(a :: marks).contains b).length ≤ o.refs.length :=
      List.length_filter_le ..
    refine ⟨n + 1, ?_, .mark hg hm ht⟩
    simp only [List.length_append, List.length_cons] at hn ⊢
    omega

/-- No object is marked twice. -/
theorem nodup_follow (hnd : marks.Nodup) : (follow h marks work).Nodup := by
  fun_induction follow h marks work with
  | case1 marks => exact hnd
  | case2 marks a work hg ih => exact ih hnd
  | case3 marks a work o hg hm ih => exact ih hnd
  | case4 marks a work o hg hm ih => exact ih (List.nodup_cons.mpr ⟨hm, hnd⟩)

theorem contains_collect (c : Collector) (h : Heap) (roots : List Value) (a : Addr) :
    (c.collect h roots).1.contains a = true ↔ h.contains a = true ∧ h.Reaches roots a := by
  simp only [Heap.contains_iff, get?_collect]
  constructor
  · rintro ⟨o, ho, hr⟩
    exact ⟨⟨o, ho⟩, hr⟩
  · rintro ⟨⟨o, ho⟩, hr⟩
    exact ⟨o, ho, hr⟩

/-- **A collection frees exactly what cannot be reached.** Whatever the objects
refer to, whatever was marked before and whatever the roots are, the search ends, and
afterwards the objects in the heap are those that were there and can be reached from
a root through objects, unchanged. They are what is marked. The report counts those
that stay and those that went, the count of objects handed out since the last
collection starts again, and nothing else changes. Only that there are as many marks
as objects needs that no address had two. -/
theorem collect_frees_unreachable (c : Collector) (h : Heap) (roots : List Value) :
    ∃ h' c' r, c.collect h roots = (h', c', r) ∧
      (∃ n ≤ roots.length + h.refsLeft [], Turns h n [] (roots.filterMap Value.addr?) c'.marks) ∧
      (∀ a, h'.contains a = true ↔ h.contains a = true ∧ h.Reaches roots a) ∧
      (∀ a o, h'.get? a = some o → h.get? a = some o) ∧
      (∀ a, a ∈ c'.marks ↔ h'.contains a = true) ∧
      (h.Keyed → h'.Keyed ∧ r.marked = h'.size) ∧ r.freed + h'.size = h.size ∧
      h'.sinceCollection = 0 ∧ h'.total = h.total ∧ h'.next = h.next := by
  refine ⟨_, _, _, rfl, ?_, ?_, ?_, ?_, ?_, ?_, rfl, rfl, rfl⟩
  · obtain ⟨n, hn, ht⟩ := follow_turns h [] (roots.filterMap Value.addr?)
    have hlen : (roots.filterMap Value.addr?).length ≤ roots.length := List.length_filterMap_le ..
    exact ⟨n, by omega, ht⟩
  · exact contains_collect c h roots
  · intro a o ho
    exact ((get?_collect c h roots a o).mp ho).1
  · intro a
    exact mem_follow.trans (contains_collect c h roots a).symm
  · intro hk
    have hlive : ∀ a ∈ follow h [] (roots.filterMap Value.addr?), h.contains a = true :=
      fun a ha => (mem_follow.mp ha).1
    exact ⟨Heap.keyed_keep hk _, (Heap.size_keep hk (nodup_follow List.nodup_nil) hlive).symm⟩
  · have hsplit := h.size_keep_add_unmarked (follow h [] (roots.filterMap Value.addr?))
    exact (Nat.add_comm ..).trans hsplit

/-- A cycle with a reference to itself and one that leads nowhere, a second cycle,
and an object that refers to both. -/
def tangled : Heap where
  objects :=
    [(4, ⟨.array, [.ref 0, .ref 2]⟩), (3, ⟨.array, [.ref 2]⟩), (2, ⟨.struct 7, [.ref 3, .int 1]⟩),
     (1, ⟨.array, [.ref 0, .ref 1, .ref 9]⟩), (0, ⟨.array, [.ref 1, .bool true]⟩)]
  next := 6
  sinceCollection := 5
  total := 6

/-- Something that is no reference, an object that is gone, and the first cycle,
twice. -/
def tangledRoots : List Value := [.ref 5, .int 2, .ref 0, .ref 0]

/-- The first cycle stays, all else goes, and what was marked before does not
matter. -/
theorem collect_frees_unreachable_tangled :
    tangled.Keyed ∧
    ∃ h' c' r, Collector.collect ⟨[3, 5], 2, 1⟩ tangled tangledRoots = (h', c', r) ∧
      r = ⟨2, 3⟩ ∧ r.marked = h'.size ∧ (∀ a, h'.contains a = true ↔ a = 0 ∨ a = 1) ∧
      h'.get? 1 = some ⟨.array, [.ref 0, .ref 1, .ref 9]⟩ ∧
      tangled.Reaches tangledRoots 1 ∧ ¬ tangled.Reaches tangledRoots 2 := by
  have hkeyed : tangled.Keyed := by decide
  obtain ⟨h', c', r, hc, -, hcontains, -, hmarks, hcount, -⟩ :=
    collect_frees_unreachable ⟨[3, 5], 2, 1⟩ tangled tangledRoots
  have hresult : Collector.collect ⟨[3, 5], 2, 1⟩ tangled tangledRoots =
      ({ tangled.keep [1, 0] with sinceCollection := 0 }, ⟨[1, 0], 3, 4⟩, ⟨2, 3⟩) := by cbv
  obtain ⟨rfl, rfl, rfl⟩ : _ ∧ _ ∧ _ := by simpa only [hresult, Prod.mk.injEq] using hc
  have hstays : ∀ a, _ = true ↔ a = 0 ∨ a = 1 :=
    fun a => (hmarks a).symm.trans (by simp [or_comm])
  have h1 := ((hcontains 1).mp ((hstays 1).mpr (by simp))).2
  have h2 : ¬ tangled.Reaches tangledRoots 2 := fun hr =>
    absurd ((hstays 2).mp ((hcontains 2).mpr ⟨rfl, hr⟩)) (by simp)
  exact ⟨hkeyed, _, _, _, hresult, rfl, (hcount hkeyed).2, hstays, rfl, h1, h2⟩

end Collector
end StackMachine
