/-
# Memory

A heap with its collector, and what can be done to the two one action after the
other: objects are made, their slots are written, objects are freed one by one, or
the collector marks and sweeps.
-/
import StackMachine.Collector

namespace StackMachine

/-- A heap and the collector that works on it. -/
structure Memory where
  heap : Heap
  collector : Collector

namespace Memory

/-- What can be done to a heap and its collector. -/
inductive Action where
  | newArray (size : Nat)
  | newStruct (type : Int64) (size : Nat)
  | setElem (a : Addr) (i : Int64) (v : Value)
  | setField (a : Addr) (i : Int64) (v : Value)
  | free (a : Addr)
  | mark (roots : List Value)
  | sweep
  | collect (roots : List Value)

/-- Take over the heap as a write in place leaves it. -/
def write (m : Memory) (x : EStateM Fault Heap Unit) : Except Fault (Option Addr) × Memory :=
  match x m.heap with
  | .ok _ heap => (.ok none, { m with heap })
  | .error e heap => (.error e, { m with heap })

/-- Do what an action says. The answer is the address of a new object, if one was
asked for. -/
def perform (m : Memory) : Action → Except Fault (Option Addr) × Memory
  | .newArray size => (.ok (some m.heap.next), { m with heap := m.heap.alloc (.newArray size) })
  | .newStruct type size =>
    (.ok (some m.heap.next), { m with heap := m.heap.alloc (.newStruct type size) })
  | .setElem a i v => m.write (Heap.setElem a i v)
  | .setField a i v => m.write (Heap.setField a i v)
  | .free a => (.ok none, { m with heap := m.heap.free a })
  | .mark roots => (.ok none, { m with collector := m.collector.mark m.heap roots })
  | .sweep => (.ok none, { m with heap := m.collector.sweep m.heap })
  | .collect roots =>
    let done := m.collector.collect m.heap roots
    (.ok none, ⟨done.1, done.2.1⟩)

/-- An empty heap, with a collector that may have served another. -/
def fresh (c : Collector) : Memory := ⟨{}, c⟩

/-- The memory after some actions, the first one first. -/
def after (m : Memory) (acts : List Action) : Memory :=
  acts.foldl (fun m act => (m.perform act).2) m

end Memory

end StackMachine
