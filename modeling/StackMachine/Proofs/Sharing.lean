/-
# Two heaps for one machine

A machine whose heap is taken away and replaced by another goes on as before if
the two heaps hold the same objects wherever the machine can get to. Where that
is, is said by a set of addresses out of which no reference leads.

* `Heap.Matches`: two heaps that hold the same objects at the addresses of such
  a set, kept by allocations, by writes and by a collection of one of the two;
* `Machine.Shares`: a machine that knows of no address outside the set;
* `Machine.Blind`: an operation that does the same on both heaps, and does not
  find an object missing. All operations of the machine are; the set grows only
  where one allocates.
-/
import Mathlib
import StackMachine.Compiled.Artifact
import StackMachine.Proofs.Control
import StackMachine.Proofs.Operations
import StackMachine.Proofs.Reachability

namespace StackMachine

/-- A value that refers to nothing outside `S`. -/
def Value.Within (S : Set Addr) (v : Value) : Prop := ∀ a, v = .ref a → a ∈ S

theorem Value.within_int (S : Set Addr) (n : Int64) : (Value.int n).Within S := fun a h => by cases h

theorem Value.within_bool (S : Set Addr) (b : Bool) : (Value.bool b).Within S := fun a h => by cases h

theorem Value.within_zero (S : Set Addr) : Value.zero.Within S := within_int S 0

theorem Value.within_of_mem_zeros {S : Set Addr} {n : Nat} {v : Value} (h : v ∈ Value.zeros n) :
    v.Within S := by
  rw [List.eq_of_mem_replicate h]
  exact within_zero S

theorem Value.within_getD {S : Set Addr} {vs : List Value} (h : ∀ v ∈ vs, v.Within S) (k : Nat) :
    (vs.getD k .zero).Within S := by
  rcases lt_or_ge k vs.length with hk | hk
  · rw [List.getD_eq_getElem _ _ hk]
    exact h _ (List.getElem_mem hk)
  · rw [List.getD_eq_default _ _ hk]
    exact within_zero S

theorem Value.within_setGrowing {S : Set Addr} {vs : List Value} {k : Nat} {v x : Value}
    (h : ∀ w ∈ vs, w.Within S) (hv : v.Within S) (hx : x ∈ setGrowing vs k v) : x.Within S := by
  rcases List.mem_or_eq_of_mem_set hx with hx | rfl
  · rcases List.mem_append.mp hx with hx | hx
    · exact h x hx
    · exact within_of_mem_zeros hx
  · exact hv

/-- Operators give no references. -/
theorem Binary.within_eval {S : Set Addr} {b : Binary} {l r v : Value} (h : b.eval l r = .ok v) :
    v.Within S := by
  rintro a rfl
  cases b <;> simp [Binary.eval, Except.map] at h
  all_goals (split at h <;> cases h)

theorem Unary.within_eval {S : Set Addr} {u : Unary} {x v : Value} (h : u.eval x = .ok v) :
    v.Within S := by
  rintro a rfl
  cases u <;> simp [Unary.eval, Except.map] at h
  split at h <;> cases h

/-- An object that refers to nothing outside `S`. -/
def Obj.Within (S : Set Addr) (o : Obj) : Prop := ∀ v ∈ o.slots, v.Within S

theorem Obj.within_newArray (n : Nat) : (Obj.newArray n).Within ∅ :=
  fun _ hv => Value.within_of_mem_zeros hv

theorem Obj.within_newStruct (type : Int64) (n : Nat) : (Obj.newStruct type n).Within ∅ :=
  fun _ hv => Value.within_of_mem_zeros hv

/-- What is read from an object is in it, or is zero. -/
theorem Obj.Within.slot {S : Set Addr} {o : Obj} (h : o.Within S) {x : Except Fault Nat} {v : Value}
    (hv : x.map o.slot = .ok v) : v.Within S := by
  cases x with
  | error e => cases hv
  | ok k =>
    cases hv
    exact Value.within_getD h k

theorem Obj.Within.setSlot {S : Set Addr} {o : Obj} (h : o.Within S) {v : Value} (hv : v.Within S)
    (k : Nat) : (o.setSlot k v).Within S := by
  intro w hw
  rcases List.mem_or_eq_of_mem_set hw with hw | rfl
  · exact h w hw
  · exact hv

/-! ### Heaps -/

namespace Heap

variable {S : Set Addr} {h k : Heap}

/-- All that objects refer to is there. -/
def Sound (h : Heap) : Prop := ∀ a o, h.get? a = some o → o.Within {b | h.contains b = true}

theorem Sound.alloc (hs : h.Sound) {o : Obj} (ho : o.Within ∅) : (h.alloc o).Sound := by
  intro a p hp v hv b hb
  rw [get?_alloc] at hp
  split_ifs at hp with ha
  · cases hp
    exact absurd (ho v hv b hb) (Set.notMem_empty b)
  · exact contains_alloc (hs a p hp v hv b hb)

theorem Sound.put (hs : h.Sound) {a : Addr} {o : Obj} (ho : o.Within {b | h.contains b = true}) :
    (h.put a o).Sound := by
  intro x p hp v hv b hb
  rw [Set.mem_ofPred_eq, contains_put]
  rw [get?_put] at hp
  split_ifs at hp
  · obtain ⟨-, -, rfl⟩ := Option.map_eq_some_iff.mp hp
    exact ho v hv b hb
  · exact hs x p hp v hv b hb

/-- What survives refers to what survives. -/
theorem Sound.collect (hs : h.Sound) (c : Collector) (vs : List Value) :
    (c.collect h vs).1.Sound := by
  intro a o ho v hv b hb
  obtain ⟨ho, hr⟩ := (Collector.get?_collect c h vs a o).mp ho
  obtain ⟨p, hp⟩ := contains_iff.mp (hs a o ho v hv b hb)
  exact contains_iff.mpr ⟨p, (Collector.get?_collect c h vs b p).mpr ⟨hp, hr.slot ho (hb ▸ hv)⟩⟩

/-- Two heaps that hold the same objects at the addresses in `S`, out of which no
reference leads. Elsewhere they may differ. -/
structure Matches (S : Set Addr) (h k : Heap) : Prop where
  next : h.next = k.next
  total : h.total = k.total
  object : ∀ a ∈ S, ∃ o, h.get? a = some o ∧ k.get? a = some o ∧ o.Within S
  left : h.Sound
  right : k.Sound

namespace Matches

theorem symm (hm : Matches S h k) : Matches S k h where
  next := hm.next.symm
  total := hm.total.symm
  object a ha := by
    obtain ⟨o, hh, hk, ho⟩ := hm.object a ha
    exact ⟨o, hk, hh, ho⟩
  left := hm.right
  right := hm.left

theorem subset_left (hm : Matches S h k) : S ⊆ {a | h.contains a = true} := by
  intro a ha
  obtain ⟨o, hh, -, -⟩ := hm.object a ha
  exact contains_iff.mpr ⟨o, hh⟩

/-- Both heaps get the same new object, at the same address. -/
theorem alloc (hm : Matches S h k) {o : Obj} (ho : o.Within ∅) :
    Matches (insert h.next S) (h.alloc o) (k.alloc o) where
  next := congrArg (· + 1) hm.next
  total := congrArg (· + 1) hm.total
  object a ha := by
    rw [get?_alloc, get?_alloc, ← hm.next]
    by_cases hnew : a = h.next
    · exact ⟨o, by rw [if_pos hnew], by rw [if_pos hnew],
        fun v hv b hb => absurd (ho v hv b hb) (Set.notMem_empty b)⟩
    · obtain ⟨p, hh, hk, hp⟩ := hm.object a (ha.resolve_left hnew)
      exact ⟨p, by rw [if_neg hnew, hh], by rw [if_neg hnew, hk],
        fun v hv b hb => Or.inr (hp v hv b hb)⟩
  left := hm.left.alloc ho
  right := hm.right.alloc ho

/-- The same object is changed in both heaps, and refers to nothing new. -/
theorem put (hm : Matches S h k) {a : Addr} {o : Obj} (ho : o.Within S) :
    Matches S (h.put a o) (k.put a o) where
  next := hm.next
  total := hm.total
  object b hb := by
    obtain ⟨p, hh, hk, hp⟩ := hm.object b hb
    rw [get?_put, get?_put, hh, hk]
    by_cases hab : b = a
    · exact ⟨o, by rw [if_pos hab]; rfl, by rw [if_pos hab]; rfl, ho⟩
    · exact ⟨p, by rw [if_neg hab], by rw [if_neg hab], hp⟩
  left := hm.left.put fun v hv b hb => hm.subset_left (ho v hv b hb)
  right := hm.right.put fun v hv b hb => hm.symm.subset_left (ho v hv b hb)

/-- One of the heaps is collected. The heaps still match where the roots lead. -/
theorem collect (hm : Matches S h k) (c : Collector) (vs : List Value) :
    Matches {a | a ∈ S ∧ h.Reaches vs a} (c.collect h vs).1 k where
  next := hm.next
  total := hm.total
  object a ha := by
    obtain ⟨o, hh, hk, ho⟩ := hm.object a ha.1
    refine ⟨o, (Collector.get?_collect c h vs a o).mpr ⟨hh, ha.2⟩, hk, fun v hv b hb => ?_⟩
    exact ⟨ho v hv b hb, ha.2.slot hh (hb ▸ hv)⟩
  left := hm.left.collect c vs
  right := hm.right

/-- The heaps match wherever some values lead that refer to nothing outside
`S`. -/
theorem reaches (hm : Matches S h k) {vs : List Value} (hvs : ∀ v ∈ vs, v.Within S) {a : Addr}
    (ha : h.Reaches vs a) : a ∈ S := by
  refine ha.closed (fun b hb => hvs _ hb b rfl) fun b hb o ho x hx => ?_
  obtain ⟨p, hh, -, hp⟩ := hm.object b hb
  obtain rfl : p = o := Option.some.inj (hh.symm.trans ho)
  exact hp _ hx x rfl

theorem reaches_right (hm : Matches S h k) {vs : List Value} (hvs : ∀ v ∈ vs, v.Within S) {a : Addr}
    (ha : h.Reaches vs a) : k.Reaches vs a := by
  induction ha with
  | root hr => exact .root hr
  | slot hx ho hb ih =>
    obtain ⟨p, hh, hk, -⟩ := hm.object _ (hm.reaches hvs hx)
    obtain rfl := Option.some.inj (hh.symm.trans ho)
    exact ih.slot hk hb

end Matches

end Heap

/-! ### Machines -/

/-- A fault that names an object which is not there. -/
def Fault.dangling : Fault → Bool
  | noSuchObject _ => true
  | _ => false

theorem Raises.present {α : Type} {x : Except Fault α} (h : Raises (·.ofValues = true) x) :
    Raises (·.dangling = false) x := by
  refine h.mono fun e he => ?_
  cases e <;> simp_all [Fault.ofValues, Fault.dangling]

namespace Machine

/-- The machine on another heap. -/
def onHeap (m : Machine) (k : Heap) (c : Collector) : Machine := { m with heap := k, collector := c }

theorem ip_onHeap (m : Machine) (k : Heap) (c : Collector) : (m.onHeap k c).ip = m.ip := rfl

theorem stack_onHeap (m : Machine) (k : Heap) (c : Collector) : (m.onHeap k c).stack = m.stack := rfl

theorem frames_onHeap (m : Machine) (k : Heap) (c : Collector) : (m.onHeap k c).frames = m.frames := rfl

theorem locals_onHeap (m : Machine) (k : Heap) (c : Collector) : (m.onHeap k c).locals = m.locals := rfl

theorem globals_onHeap (m : Machine) (k : Heap) (c : Collector) : (m.onHeap k c).globals = m.globals := rfl

theorem mem_roots {m : Machine} {v : Value} :
    v ∈ m.roots ↔ v ∈ m.stack ∨ (∃ f ∈ m.frames, v ∈ f.locals) ∨ v ∈ m.globals := by
  simp [roots]

/-- Every reference leads to an object: on the operand stack, in the locals of
any frame, in the globals and in any object. -/
def Intact (m : Machine) : Prop :=
  ∀ a, .ref a ∈ m.stack ∨ (∃ f ∈ m.frames, .ref a ∈ f.locals) ∨ .ref a ∈ m.globals ∨
    (∃ b o, m.heap.get? b = some o ∧ .ref a ∈ o.slots) → m.heap.contains a = true

/-- The machine knows of no address outside `S`, where its heap matches another. -/
structure Shares (S : Set Addr) (m : Machine) (k : Heap) : Prop where
  heaps : m.heap.Matches S k
  roots : ∀ v ∈ m.roots, v.Within S

variable {S : Set Addr} {m : Machine} {k : Heap}

namespace Shares

/-- A machine with the same heap that knows of nothing else. -/
theorem of_roots (h : Shares S m k) {t : Machine} (ht : t.heap = m.heap)
    (hr : ∀ v ∈ t.roots, v ∈ m.roots ∨ v.Within S) : Shares S t k where
  heaps := ht ▸ h.heaps
  roots v hv := (hr v hv).elim (h.roots v) id

theorem stack (h : Shares S m k) : ∀ v ∈ m.stack, v.Within S :=
  fun v hv => h.roots v (mem_roots.mpr (Or.inl hv))

theorem locals (h : Shares S m k) : ∀ v ∈ m.locals, v.Within S := by
  intro v hv
  unfold Machine.locals at hv
  split at hv
  · cases hv
  · rename_i f fs hf
    exact h.roots v (mem_roots.mpr (Or.inr (Or.inl ⟨f, by simp [hf], hv⟩)))

theorem globals (h : Shares S m k) : ∀ v ∈ m.globals, v.Within S :=
  fun v hv => h.roots v (mem_roots.mpr (Or.inr (Or.inr hv)))

theorem withStack (h : Shares S m k) {vs : List Value} (hvs : ∀ v ∈ vs, v.Within S) :
    Shares S { m with stack := vs } k := by
  refine h.of_roots rfl fun v hv => ?_
  rcases mem_roots.mp hv with hv | hv
  · exact Or.inr (hvs v hv)
  · exact Or.inl (mem_roots.mpr (Or.inr hv))

theorem withGlobals (h : Shares S m k) {vs : List Value} (hvs : ∀ v ∈ vs, v.Within S) :
    Shares S { m with globals := vs } k := by
  refine h.of_roots rfl fun v hv => ?_
  rcases mem_roots.mp hv with hv | hv | hv
  · exact Or.inl (mem_roots.mpr (Or.inl hv))
  · exact Or.inl (mem_roots.mpr (Or.inr (Or.inl hv)))
  · exact Or.inr (hvs v hv)

theorem withFrames (h : Shares S m k) {fs : List Frame}
    (hfs : ∀ f ∈ fs, f ∈ m.frames ∨ ∀ v ∈ f.locals, v.Within S) :
    Shares S { m with frames := fs } k := by
  refine h.of_roots rfl fun v hv => ?_
  rcases mem_roots.mp hv with hv | ⟨f, hf, hv⟩ | hv
  · exact Or.inl (mem_roots.mpr (Or.inl hv))
  · rcases hfs f hf with hf | hf
    · exact Or.inl (mem_roots.mpr (Or.inr (Or.inl ⟨f, hf, hv⟩)))
    · exact Or.inr (hf v hv)
  · exact Or.inl (mem_roots.mpr (Or.inr (Or.inr hv)))

/-- A machine with the same heap that knows of the same values. -/
theorem congr (h : Shares S m k) {t : Machine} (hheap : t.heap = m.heap) (hroots : t.roots = m.roots) :
    Shares S t k := h.of_roots hheap fun _ hv => Or.inl (hroots ▸ hv)

/-- What the machine knows of is there. -/
theorem intact (h : Shares S m k) : m.Intact := by
  rintro a (ha | ha | ha | ⟨b, o, ho, ha⟩)
  · exact h.heaps.subset_left (h.stack _ ha a rfl)
  · exact h.heaps.subset_left (h.roots _ (mem_roots.mpr (Or.inr (Or.inl ha))) a rfl)
  · exact h.heaps.subset_left (h.globals _ ha a rfl)
  · exact h.heaps.left b o ho _ ha a rfl

/-- Both machines may be collected or not: what they share is what can be
reached. -/
theorem maybeCollect (h : Shares S m k) (s s' : Settings) (c : Collector) :
    ∃ T k' c', Shares T (m.maybeCollect s) k' ∧
      (m.onHeap k c).maybeCollect s' = (m.maybeCollect s).onHeap k' c' := by
  have hleft : ∃ T, Shares T (m.maybeCollect s) k := by
    unfold Machine.maybeCollect
    split_ifs
    · refine ⟨_, h.heaps.collect m.collector m.roots, fun v hv a ha => ⟨h.roots v hv a ha, ?_⟩⟩
      exact .root (ha ▸ hv)
    · exact ⟨S, h⟩
  obtain ⟨T, hT⟩ := hleft
  have hroots : (m.maybeCollect s).roots = (m.onHeap k c).roots := by
    unfold Machine.maybeCollect
    split_ifs <;> rfl
  unfold Machine.maybeCollect at hT hroots ⊢
  by_cases hc : (s'.collecting && decide (s'.collectAfter < (m.onHeap k c).heap.sinceCollection)) = true
  · rw [if_pos hc]
    refine ⟨_, (c.collect k (m.onHeap k c).roots).1, (c.collect k (m.onHeap k c).roots).2.1,
      ⟨(hT.heaps.symm.collect c (m.onHeap k c).roots).symm, fun v hv a ha => ⟨hT.roots v hv a ha, ?_⟩⟩, ?_⟩
    · exact .root (hroots ▸ ha ▸ hv)
    · split_ifs <;> rfl
  · rw [if_neg hc]
    refine ⟨T, k, c, hT, ?_⟩
    split_ifs <;> rfl

end Shares

/-! ### Operations -/

/-- Both went through with the same result, as `post` says, or both failed, not
for want of an object. -/
inductive Joint {α : Type} (S : Set Addr) (post : α → Machine → Heap → Prop) :
    EStateM.Result Fault Machine α → EStateM.Result Fault Machine α → Prop
  | ok {a : α} {t : Machine} {k : Heap} {c : Collector} : post a t k →
      Joint S post (.ok a t) (.ok a (t.onHeap k c))
  | error {e : Fault} {t : Machine} {k : Heap} {c : Collector} : e.dangling = false →
      Shares S t k → Joint S post (.error e t) (.error e (t.onHeap k c))

theorem Joint.cases {α : Type} {post : α → Machine → Heap → Prop}
    {r r' : EStateM.Result Fault Machine α} (h : Joint S post r r') :
    (∃ a t k c, r = .ok a t ∧ r' = .ok a (t.onHeap k c) ∧ post a t k) ∨
      ∃ e t k c, r = .error e t ∧ r' = .error e (t.onHeap k c) ∧ e.dangling = false ∧ Shares S t k := by
  cases h with
  | ok hp => exact Or.inl ⟨_, _, _, _, rfl, rfl, hp⟩
  | error he hs => exact Or.inr ⟨_, _, _, _, rfl, rfl, he, hs⟩

/-- An operation that cannot tell two heaps apart. -/
def Blind {α : Type} (S : Set Addr) (post : α → Machine → Heap → Prop) (x : Exec α) : Prop :=
  ∀ m k c, Shares S m k → Joint S post (x m) (x (m.onHeap k c))

/-- The result is good, and the machine knows of nothing new. -/
def Kept {α : Type} (S : Set Addr) (good : α → Prop) (a : α) (t : Machine) (k : Heap) : Prop :=
  good a ∧ Shares S t k

/-- What the machine knows of may have grown. -/
def Grown {α : Type} (_ : α) (t : Machine) (k : Heap) : Prop := ∃ S, Shares S t k

section Blind

variable {α β : Type} {post : α → Machine → Heap → Prop}

theorem Blind.bind {good : β → Prop} {x : Exec β} {f : β → Exec α} (h : Blind S (Kept S good) x)
    (hf : ∀ b, good b → Blind S post (f b)) : Blind S post (x >>= f) := by
  intro m k c hs
  have hx := h m k c hs
  simp only [Bind.bind, EStateM.bind]
  generalize x m = r, x (m.onHeap k c) = r' at hx
  cases hx with
  | ok hp => exact hf _ hp.1 _ _ _ hp.2
  | error he hp => exact .error he hp

theorem Blind.mono {x : Exec α} {post' : α → Machine → Heap → Prop} (h : Blind S post x)
    (hp : ∀ a t k, post a t k → post' a t k) : Blind S post' x := by
  intro m k c hs
  have hx := h m k c hs
  generalize x m = r, x (m.onHeap k c) = r' at hx
  cases hx with
  | ok h => exact .ok (hp _ _ _ h)
  | error he h => exact .error he h

theorem Blind.grown {good : α → Prop} {x : Exec α} (h : Blind S (Kept S good) x) : Blind S Grown x :=
  h.mono fun _ _ _ h => ⟨S, h.2⟩

theorem blind_pure {good : α → Prop} {a : α} (ha : good a) : Blind S (Kept S good) (pure a) :=
  fun _ _ _ h => .ok ⟨ha, h⟩

theorem blind_done (a : α) : Blind S (Kept S fun _ => True) (pure a) := blind_pure trivial

/-- What is told in the end does not matter. -/
theorem Blind.tell {x : Exec β} (h : Blind S Grown x) (a : α) : Blind S Grown (x >>= fun _ => pure a) := by
  intro m k c hs
  have hx := h m k c hs
  simp only [Bind.bind, EStateM.bind]
  generalize x m = r, x (m.onHeap k c) = r' at hx
  cases hx with
  | ok hp => exact .ok hp
  | error he hp => exact .error he hp

theorem blind_throw {e : Fault} (he : e.dangling = false) : Blind S post (throw e : Exec α) :=
  fun _ _ _ h => .error he h

theorem blind_lift {x : Except Fault α} (hx : Raises (·.dangling = false) x) :
    Blind S (Kept S fun a => x = .ok a) (liftM x : Exec α) := by
  intro m k c h
  cases x with
  | ok a => exact .ok ⟨rfl, h⟩
  | error e => exact .error (hx e rfl) h

theorem blind_arg (x : Instr) : Blind S (Kept S fun n => x.arg = .ok n) (liftM x.arg : Exec Int64) :=
  blind_lift ((raises_arg x).mono fun e he => by rw [he]; rfl)

theorem blind_push {v : Value} (hv : v.Within S) : Blind S (Kept S fun _ => True) (push v) := by
  refine fun m k c h => .ok ⟨trivial, h.withStack fun w hw => ?_⟩
  rcases List.mem_cons.mp hw with rfl | hw
  · exact hv
  · exact h.stack w hw

theorem blind_pop (op : Opcode) : Blind S (Kept S (Value.Within S)) (pop op) := by
  intro m k c h
  have hall := h.stack
  unfold pop
  rw [stack_onHeap]
  cases hst : m.stack with
  | nil => exact .error rfl h
  | cons v vs =>
    rw [hst] at hall
    refine .ok (t := { m with stack := vs }) (k := k) (c := c) ⟨hall v (List.mem_cons_self ..), ?_⟩
    exact h.withStack fun w hw => hall w (List.mem_cons_of_mem _ hw)

theorem blind_peek (op : Opcode) : Blind S (Kept S (Value.Within S)) (peek op) := by
  intro m k c h
  unfold peek
  rw [stack_onHeap]
  cases hst : m.stack with
  | nil => exact .error rfl h
  | cons v vs => exact .ok ⟨h.stack v (by simp [hst]), h⟩

theorem blind_popInt (op : Opcode) : Blind S (Kept S fun _ => True) (popInt op) :=
  (blind_pop op).bind fun v _ => (blind_lift (raises_toInt v).present).mono fun _ _ _ h => ⟨trivial, h.2⟩

theorem blind_popRef (op : Opcode) : Blind S (Kept S (· ∈ S)) (popRef op) := by
  refine (blind_pop op).bind fun v hv => ?_
  cases v with
  | int n => exact blind_throw rfl
  | bool b => exact blind_throw rfl
  | ref a => exact blind_pure (hv a rfl)

theorem blind_print (line : String) : Blind S (Kept S fun _ => True) (print line) :=
  fun _ _ _ h => .ok ⟨trivial, h.congr rfl rfl⟩

/-- An operation that looks at the machine first. -/
theorem blind_get {f : Machine → Exec α}
    (hf : ∀ m k c, Shares S m k → Joint S post (f m m) (f (m.onHeap k c) (m.onHeap k c))) :
    Blind S post (get >>= f) := fun m k c h => hf m k c h

theorem blind_loadLocal (i : Int64) : Blind S (Kept S (Value.Within S)) (loadLocal i) := by
  refine blind_get fun m k c h => ?_
  rw [locals_onHeap]
  refine ((blind_lift (raises_slot _ _ _).present).bind fun j _ => blind_pure ?_) m k c h
  exact Value.within_getD h.locals j

theorem blind_loadGlobal (i : Int64) : Blind S (Kept S (Value.Within S)) (loadGlobal i) := by
  refine blind_get fun m k c h => ?_
  rw [globals_onHeap]
  refine ((blind_lift (raises_slot _ _ _).present).bind fun j _ => blind_pure ?_) m k c h
  exact Value.within_getD h.globals j

/-- A change that does not concern the heap. -/
theorem blind_modify {f : Machine → Machine} (hover : ∀ m k c, f (m.onHeap k c) = (f m).onHeap k c)
    (hf : ∀ m k, Shares S m k → Shares S (f m) k) :
    Blind S (Kept S fun _ => True) (modify f : Exec PUnit) := by
  intro m k c h
  have : (modify f : Exec PUnit) (m.onHeap k c) = .ok () ((f m).onHeap k c) := by rw [← hover]; rfl
  rw [this]
  exact .ok ⟨trivial, hf m k h⟩

theorem blind_storeLocal (i : Int64) {v : Value} (hv : v.Within S) :
    Blind S (Kept S fun _ => True) (storeLocal i v) := by
  refine blind_get fun m k c h => ?_
  rw [locals_onHeap]
  refine ((blind_lift (raises_slot _ _ _).present).bind fun j _ => blind_modify ?_ ?_) m k c h
  · intro m k c
    rw [frames_onHeap]
    cases m.frames <;> rfl
  · intro m k h
    cases hf : m.frames with
    | nil => exact h
    | cons f fs =>
      refine h.withFrames fun g hg => ?_
      rcases List.mem_cons.mp hg with rfl | hg
      · refine Or.inr fun w hw => ?_
        rcases List.mem_or_eq_of_mem_set hw with hw | rfl
        · exact h.locals w (by simpa [Machine.locals, hf] using hw)
        · exact hv
      · exact Or.inl (by simp [hf, hg])

theorem blind_storeGlobal (s : Settings) (i : Int64) {v : Value} (hv : v.Within S) :
    Blind S (Kept S fun _ => True) (storeGlobal s i v) := by
  refine (blind_lift (raises_slot _ _ _).present).bind fun j _ => blind_modify (fun _ _ _ => rfl) ?_
  exact fun m k h => h.withGlobals fun w hw => Value.within_setGrowing h.globals hv hw

/-- A new object, which is then on the stack. -/
theorem blind_alloc {o : Obj} (ho : o.Within ∅) : Blind S Grown (alloc o >>= push) := by
  intro m k c h
  have hleft : (alloc o >>= push) m =
      .ok () { m with heap := m.heap.alloc o, stack := .ref m.heap.next :: m.stack } := rfl
  have hright : (alloc o >>= push) (m.onHeap k c) =
      .ok () (onHeap { m with heap := m.heap.alloc o, stack := .ref m.heap.next :: m.stack }
        (k.alloc o) c) := by
    rw [h.heaps.next]
    rfl
  rw [hleft, hright]
  refine .ok ⟨insert m.heap.next S, h.heaps.alloc ho, fun v hv a ha => ?_⟩
  rcases mem_roots.mp hv with hv | hv
  · rcases List.mem_cons.mp hv with hv | hv
    · exact Or.inl (by rw [hv] at ha; exact (Value.ref.inj ha).symm)
    · exact Or.inr (h.stack v hv a ha)
  · exact Or.inr (h.roots v (mem_roots.mpr (Or.inr hv)) a ha)

/-- An object that the machine knows of is there. -/
theorem blind_object {a : Addr} (ha : a ∈ S) {f : Obj → Exec α}
    (hf : ∀ o, o.Within S → Blind S post (f o)) :
    Blind S post (get >>= fun m => liftM (m.heap.get a) >>= f) := by
  refine blind_get fun m k c h => ?_
  obtain ⟨o, hm, hk, ho⟩ := h.heaps.object a ha
  have hleft : m.heap.get a = .ok o := by simp only [Heap.get, hm]
  have hright : (m.onHeap k c).heap.get a = .ok o := by simp only [Heap.get, onHeap, hk]
  rw [hleft, hright]
  exact hf o ho m k c h

/-- A slot of an object that the machine knows of is written. -/
theorem blind_store {a : Addr} (ha : a ∈ S) {find : Obj → Except Fault Nat}
    (hfind : ∀ o, Raises (·.ofValues = true) (find o)) {v : Value} (hv : v.Within S) :
    Blind S (Kept S fun _ => True) (inHeap (Heap.store a find v)) := by
  intro m k c h
  obtain ⟨o, hm, hk, ho⟩ := h.heaps.object a ha
  have hheap : (m.onHeap k c).heap = k := rfl
  unfold inHeap
  rw [hheap]
  cases hslot : find o with
  | error e =>
    rw [Heap.store_refused hm hslot, Heap.store_refused hk hslot]
    exact .error ((hfind o).present e hslot) h
  | ok i =>
    rw [Heap.store_found hm hslot, Heap.store_found hk hslot]
    refine .ok (t := { m with heap := m.heap.put a (o.setSlot i v) }) (c := c) ⟨trivial, ?_⟩
    exact ⟨h.heaps.put (ho.setSlot hv i), h.roots⟩

end Blind

/-! ### Instructions -/

/-- **No instruction that moves data can tell two heaps apart.** -/
theorem exec_blind (s : Settings) (x : Instr) : Blind S Grown (exec s x) := by
  unfold exec
  cases x.op with
  | pushInt => exact (blind_arg x).bind fun n _ => (blind_push (Value.within_int S n)).grown
  | pushBool b => exact (blind_push (Value.within_bool S b)).grown
  | pop => exact (blind_pop _).bind fun _ _ => (blind_done _).grown
  | dup => exact (blind_peek _).bind fun v hv => (blind_push hv).grown
  | binary b =>
    refine (blind_pop _).bind fun r _ => (blind_pop _).bind fun l _ => ?_
    refine (blind_lift (raises_binary b l r).present).bind fun v hv => ?_
    exact (blind_push (Binary.within_eval hv)).grown
  | unary u =>
    refine (blind_pop _).bind fun v _ => (blind_lift (raises_unary u v).present).bind fun w hw => ?_
    exact (blind_push (Unary.within_eval hw)).grown
  | loadLocal =>
    exact (blind_arg x).bind fun n _ => (blind_loadLocal n).bind fun v hv => (blind_push hv).grown
  | storeLocal =>
    exact (blind_arg x).bind fun n _ => (blind_pop _).bind fun v hv => (blind_storeLocal n hv).grown
  | loadGlobal =>
    exact (blind_arg x).bind fun n _ => (blind_loadGlobal n).bind fun v hv => (blind_push hv).grown
  | storeGlobal =>
    exact (blind_arg x).bind fun n _ => (blind_pop _).bind fun v hv => (blind_storeGlobal s n hv).grown
  | allocArray =>
    simp only [allocArray, bind_assoc]
    refine (blind_popInt _).bind fun n _ => (blind_lift (raises_allocSize _ _ _).present).bind fun k _ => ?_
    exact blind_alloc (Obj.within_newArray k)
  | allocStruct | new =>
    simp only [allocStruct, bind_assoc]
    refine (blind_arg x).bind fun type _ => (blind_popInt _).bind fun n _ => ?_
    refine (blind_lift (raises_allocSize _ _ _).present).bind fun k _ => ?_
    exact blind_alloc (Obj.within_newStruct type k)
  | loadElem =>
    refine (blind_popInt _).bind fun k _ => (blind_popRef _).bind fun a ha => blind_object ha fun o ho => ?_
    refine (blind_lift ((raises_elemSlot _ o k).map _).present).bind fun v hv => ?_
    exact (blind_push (ho.slot hv)).grown
  | storeElem =>
    refine (blind_pop _).bind fun v hv => (blind_popInt _).bind fun k _ => (blind_popRef _).bind fun a ha => ?_
    exact (blind_store ha (fun o => raises_elemSlot _ o k) hv).grown
  | loadField =>
    refine (blind_arg x).bind fun k _ => (blind_popRef _).bind fun a ha => blind_object ha fun o ho => ?_
    refine (blind_lift ((raises_fieldSlot _ o k).map _).present).bind fun v hv => ?_
    exact (blind_push (ho.slot hv)).grown
  | storeField =>
    refine (blind_arg x).bind fun k _ => (blind_pop _).bind fun v hv => (blind_popRef _).bind fun a ha => ?_
    exact (blind_store ha (fun o => raises_fieldSlot _ o k) hv).grown
  | printInt => exact (blind_popInt _).bind fun _ _ => (blind_print _).grown
  | printBool => exact (blind_pop _).bind fun _ _ => (blind_print _).grown
  | jump | call | ret | retVoid | halt => exact blind_throw rfl

/-- A call begins: its arguments are locals now. -/
theorem blind_enter (p : Program) (func ret : Nat) :
    Blind S (Kept S fun _ => True) (enter p func ret) := by
  intro m k c h
  unfold enter
  cases p.functions[func]? with
  | none => exact .error rfl h
  | some f =>
    dsimp only
    rw [stack_onHeap]
    split_ifs
    · exact .error rfl h
    · refine .ok (k := k) (c := c) ⟨trivial, ?_⟩
      refine (h.withStack fun v hv => h.stack v (List.mem_of_mem_drop hv)).withFrames fun g hg => ?_
      rcases List.mem_cons.mp hg with rfl | hg
      · refine Or.inr fun v hv => ?_
        rcases List.mem_append.mp hv with hv | hv
        · exact h.stack v (List.mem_of_mem_take (List.mem_reverse.mp hv))
        · exact Value.within_of_mem_zeros hv
      · exact Or.inl hg

/-- A call ends: what it had on the stack and its locals are gone. -/
theorem Shares.leave (h : Shares S m k) {f : Frame} {fs : List Frame} (hm : m.frames = f :: fs)
    {v : Option Value} (hv : ∀ w ∈ v, w.Within S) :
    Shares S { m with frames := fs, stack := v.toList ++ m.stack.drop (m.stack.length - f.base) } k := by
  have hcallers : Shares S { m with frames := fs } k :=
    h.withFrames fun g hg => Or.inl (hm ▸ List.mem_cons_of_mem _ hg)
  refine hcallers.withStack fun w hw => ?_
  rcases List.mem_append.mp hw with hw | hw
  · exact hv w (Option.mem_toList.mp hw)
  · exact h.stack w (List.mem_of_mem_drop hw)

theorem blind_leave (op : Opcode) {v : Option Value} (hv : ∀ w ∈ v, w.Within S) :
    Blind S (Kept S fun _ => True) (leave op v) := by
  intro m k c h
  unfold leave
  rw [frames_onHeap]
  cases hf : m.frames with
  | nil => exact .error rfl h
  | cons f fs => exact .ok (k := k) (c := c) ⟨trivial, h.leave hf hv⟩

theorem blind_returnWith (op : Opcode) {v : Option Value} (hv : ∀ w ∈ v, w.Within S) :
    Blind S (Kept S fun _ => True) (returnWith op v) := by
  intro m k c h
  cases hf : m.frames with
  | nil =>
    simp only [returnWith, leave, frames_onHeap, hf]
    exact .error rfl h
  | cons f fs =>
    cases hret : f.returnIp with
    | none =>
      rw [returnWith_none hf hret, returnWith_none (m := m.onHeap k c) hf hret]
      have hcallers : Shares S { m with frames := fs } k :=
        h.withFrames fun g hg => Or.inl (hf ▸ List.mem_cons_of_mem _ hg)
      exact .ok (k := k) (c := c) ⟨trivial, hcallers.congr rfl rfl⟩
    | some ret =>
      rw [returnWith_some hf hret, returnWith_some (m := m.onHeap k c) hf hret]
      exact .ok (k := k) (c := c) ⟨trivial, (h.leave hf hv).congr rfl rfl⟩

theorem blind_branch (op : Opcode) (w : Branch) (t : Nat) :
    Blind S (Kept S fun _ => True) (branch op w t) := by
  cases w with
  | always => exact blind_done _
  | on b => exact (blind_pop op).bind fun _ _ => blind_done _

theorem raises_jumpTarget (p : Program) (x : Instr) : Raises (·.structural = true) (jumpTarget p x) := by
  refine Raises.bind (Raises.bind ((raises_arg x).mono fun e he => by rw [he]; rfl) fun n _ => ?_) fun t _ => ?_
  · cases Instr.place? n with
    | some t => exact raises_ok _
    | none => exact raises_error rfl
  · split_ifs
    · exact raises_ok _
    · exact raises_error rfl

theorem raises_callee (p : Program) (x : Instr) : Raises (·.structural = true) (callee p x) := by
  refine Raises.bind ((raises_arg x).mono fun e he => by rw [he]; rfl) fun n _ => ?_
  cases slot? n p.functions.length with
  | some f => exact raises_ok _
  | none => exact raises_error rfl

theorem dangling_of_structural {e : Fault} (h : e.structural = true) : e.dangling = false := by
  cases e <;> simp_all [Fault.structural, Fault.dangling]

/-- **No instruction of the stream can tell two heaps apart.** -/
theorem interpret_blind (env : Env) (x : Instr) : Blind S Grown (interpret env x) := by
  by_cases hd : x.op.movesData = true
  · rw [interpret_data hd]
    exact (exec_blind env.settings x).tell _
  unfold interpret
  cases hop : x.op <;> rw [hop] at hd
  case jump w =>
    refine (blind_lift ((raises_jumpTarget _ x).mono fun _ => dangling_of_structural)).bind fun t _ => ?_
    exact (blind_branch _ w t).grown
  case call =>
    refine (blind_lift ((raises_callee _ x).mono fun _ => dangling_of_structural)).bind fun f _ => ?_
    exact (blind_done _).grown
  case ret => exact (blind_pop _).bind fun v hv => (blind_returnWith _ (by simpa using hv)).grown
  case retVoid => exact (blind_returnWith _ (by simp)).grown
  case halt =>
    refine (blind_modify (fun _ _ _ => rfl) fun m k h => ?_).bind fun _ _ => (blind_done _).grown
    exact h.congr rfl rfl
  all_goals exact absurd rfl hd

/-- No instruction of integrated code can tell two heaps apart. -/
theorem integrated_blind (env : Env) (func : Nat) (x : Instr) :
    Blind S Grown (integrated env func x) := by
  by_cases hd : x.op.movesData = true
  · rw [integrated_data hd]
    exact (exec_blind env.settings x).tell _
  unfold integrated
  cases hop : x.op <;> rw [hop] at hd
  case jump w => exact (blind_branch _ w _).grown
  case call => exact (blind_done _).grown
  case ret =>
    refine (blind_pop _).bind fun v hv => (blind_leave _ (by simpa using hv)).bind fun _ _ => ?_
    exact (blind_done _).grown
  case retVoid => exact (blind_leave _ (by simp)).bind fun _ _ => (blind_done _).grown
  case halt => exact blind_throw rfl
  all_goals exact absurd rfl hd

end Machine

end StackMachine
