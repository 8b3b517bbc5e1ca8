/-
# Collecting the heap

A collection marks what can be reached from some roots and frees the rest. The
marks belong to the collector and not to the objects, and stay until the next
collection. Marking and sweeping may also be asked for alone: marking then adds
to the marks there are, and sweeping changes no count.

* `Collector.mark`: add what can be reached; it ends because every object is
  marked once;
* `Collector.sweep`: keep what is marked;
* `Collector.collect`: both, from no marks.
-/
import StackMachine.Heap

namespace StackMachine

namespace Heap

/-- How many objects are not among `marks`. -/
def unmarked (h : Heap) (marks : List Addr) : Nat :=
  h.objects.countP fun e => !marks.contains e.1

theorem mem_of_get? {h : Heap} {a : Addr} {o : Obj} (hg : h.get? a = some o) :
    (a, o) ∈ h.objects := by
  have key : ∀ es : List (Addr × Obj), es.lookup a = some o → (a, o) ∈ es := by
    intro es
    induction es with
    | nil => simp
    | cons e es ih =>
      obtain ⟨k, x⟩ := e
      by_cases hk : a = k
      · subst hk; simp +contextual
      · have : (a == k) = false := by simpa using hk
        simp only [List.lookup_cons, this, List.mem_cons]
        intro h
        exact Or.inr (ih h)
  exact key _ hg

/-- Marking an object that was not marked leaves fewer to mark. -/
theorem unmarked_cons_lt {h : Heap} {marks : List Addr} {a : Addr} {o : Obj}
    (hg : h.get? a = some o) (hm : a ∉ marks) : h.unmarked (a :: marks) < h.unmarked marks := by
  have hmem := mem_of_get? hg
  unfold unmarked
  generalize h.objects = es at hmem
  have hle : ∀ es : List (Addr × Obj),
      es.countP (fun e => !(a :: marks).contains e.1) ≤ es.countP fun e => !marks.contains e.1 :=
    fun es => List.countP_mono_left fun e _ he => by
      simp only [List.contains_cons, Bool.not_or, Bool.and_eq_true] at he
      exact he.2
  induction es with
  | nil => simp at hmem
  | cons e es ih =>
    rw [List.countP_cons, List.countP_cons]
    rcases List.mem_cons.mp hmem with rfl | hin
    · have := hle es
      simp [hm]
      simpa using Nat.lt_succ_of_le this
    · have h1 := ih hin
      have h2 : (if (!(a :: marks).contains e.1) = true then 1 else 0) ≤
          if (!marks.contains e.1) = true then 1 else 0 := by
        by_cases hc : e.1 ∈ marks <;> by_cases ha : e.1 = a <;> simp [hc, ha]
      omega

end Heap

/-- The marks, and the statistics over all collections. -/
structure Collector where
  marks : List Addr := []
  cycles : Nat := 0
  freed : Nat := 0
  deriving DecidableEq, Repr

namespace Collector

/-- The marks after following references from `work`. An address with no object
is passed over. -/
def follow (h : Heap) (marks work : List Addr) : List Addr :=
  match work with
  | [] => marks
  | a :: work =>
    match _hg : h.get? a with
    | none => follow h marks work
    | some o =>
      if _hm : a ∈ marks then follow h marks work
      else follow h (a :: marks) ((o.refs.filter fun b => !(a :: marks).contains b) ++ work)
termination_by (h.unmarked marks, work.length)
decreasing_by
  · exact Prod.Lex.right _ (by simp)
  · exact Prod.Lex.right _ (by simp)
  · exact Prod.Lex.left _ _ (Heap.unmarked_cons_lt _hg _hm)

/-- Add what can be reached from `roots` to the marks. -/
def mark (c : Collector) (h : Heap) (roots : List Value) : Collector :=
  { c with marks := follow h c.marks (roots.filterMap Value.addr?) }

/-- The heap with only what is marked. -/
def sweep (c : Collector) (h : Heap) : Heap := h.keep c.marks

/-- How many objects a sweep frees. -/
def unreached (c : Collector) (h : Heap) : Nat := h.unmarked c.marks

/-- What a collection did. -/
structure Report where
  marked : Nat
  freed : Nat
  deriving DecidableEq, Repr

/-- Free everything that cannot be reached from `roots`. -/
def collect (c : Collector) (h : Heap) (roots : List Value) : Heap × Collector × Report :=
  let c := mark { c with marks := [] } h roots
  let freed := c.unreached h
  ({ c.sweep h with sinceCollection := 0 },
   { c with cycles := c.cycles + 1, freed := c.freed + freed },
   ⟨c.marks.length, freed⟩)

end Collector

end StackMachine
