/-
# What a run may hold

Objects and globals are what a run uses up. The heap counts every object it hands
out, the collector every object it frees, and the settings limit how large an
object may be, how many globals there are, and how many objects are handed out
before a collection. The counts are kept and the limits enforced in different
places: allocating, writing a global, writing back what isolated code has
written, and the loops that may collect.

* `Holdings`: the heap, its collector and the globals, which control leaves alone;
* `Run.step_spends`: all that one step may do to them (`Holdings.Spends`);
* `Holdings.Balanced`: the counts agree and the limits are kept, which one step
  preserves (`Holdings.Balanced.spend`) and so every run (`accounted_throughout`).
-/
import Mathlib
import StackMachine.Proofs.Activations
import StackMachine.Proofs.Reachability
import StackMachine.Proofs.WriteBack

namespace StackMachine

/-- What a program uses up, and control leaves alone. -/
structure Holdings where
  heap : Heap
  collector : Collector
  globals : List Value

def Machine.holdings (m : Machine) : Holdings := ⟨m.heap, m.collector, m.globals⟩

namespace Holdings

/-- A global is written. -/
def Writes (s : Settings) (a b : Holdings) : Prop :=
  ∃ k v, k < s.maxGlobals ∧ b = { a with globals := setGrowing a.globals k v }

/-- What one instruction may do to the holdings. -/
inductive Changes (s : Settings) (a : Holdings) : Holdings → Prop
  | none : Changes s a a
  | global {b : Holdings} (writes : Writes s a b) : Changes s a b
  | alloc {o : Obj} (size : o.slots.length ≤ s.maxAlloc) :
      Changes s a { a with heap := a.heap.alloc o }
  /-- A slot of an object is written. -/
  | put {k : Addr} {o p : Obj} (found : a.heap.get? k = some o)
      (size : p.slots.length = o.slots.length) : Changes s a { a with heap := a.heap.put k p }

/-- What one step may do to the holdings of a machine: the heap may be collected
and an instruction executed, or globals are written back. -/
inductive Spends (s : Settings) (m : Machine) : Holdings → Prop
  | none : Spends s m m.holdings
  | instruction {a : Holdings} (changes : Changes s (m.maybeCollect s).holdings a) : Spends s m a
  | written {a : Holdings} (writes : Relation.ReflTransGen (Writes s) m.holdings a) : Spends s m a

end Holdings

open Holdings (Writes Changes Spends)

/-! ### Instructions -/

theorem lt_of_slot {kind : SlotKind} {i : Int64} {size k : Nat} (h : slot kind i size = .ok k) :
    k < size := by
  unfold slot at h
  cases hs : slot? i size with
  | none => rw [hs] at h; cases h
  | some j =>
    rw [hs] at h
    cases h
    exact lt_of_slot? hs

namespace Machine

theorem le_of_allocSize {s : Settings} {op : Opcode} {n : Int64} {k : Nat}
    (h : allocSize s op n = .ok k) : k ≤ s.maxAlloc := by
  unfold allocSize at h
  cases hp : Instr.place? n with
  | none => rw [hp] at h; cases h
  | some j =>
    rw [hp] at h
    dsimp only at h
    split_ifs at h with hle
    cases h
    exact hle

/-- An operation that does to the holdings what an instruction may, and nothing
where it fails. -/
def Modest {α : Type} (s : Settings) (x : Exec α) : Prop :=
  ∀ m, Gives x m (fun _ n => Changes s m.holdings n.holdings) (fun _ n => n.holdings = m.holdings)

section Modest

variable {α β : Type} {s : Settings}

theorem modest_pure (a : α) : Modest s (pure a) := fun _ => .none

theorem modest_throw (e : Fault) : Modest s (throw e : Exec α) := fun _ => rfl

theorem modest_push (v : Value) : Modest s (push v) := fun _ => .none

theorem modest_print (line : String) : Modest s (print line) := fun _ => .none

theorem modest_storeLocal (i : Int64) (v : Value) : Modest s (storeLocal i v) := by
  intro m
  simp only [storeLocal, gives_bind, gives_get, gives_lift, gives_modify]
  refine ⟨fun k _ => ?_, fun _ _ => trivial⟩
  cases m.frames <;> exact .none

theorem modest_storeGlobal (i : Int64) (v : Value) : Modest s (storeGlobal s i v) := by
  intro m
  simp only [storeGlobal, gives_bind, gives_lift, gives_modify]
  exact ⟨fun k hk => .global ⟨k, v, lt_of_slot hk, rfl⟩, fun _ _ => trivial⟩

/-- A slot of an object is written, if the object and the slot are there. -/
theorem modest_store (a : Addr) (find : Obj → Except Fault Nat) (v : Value) :
    Modest s (inHeap (Heap.store a find v)) := by
  intro m
  rw [gives_inHeap]
  unfold Gives
  rcases Heap.store_cases m.heap a find v with ⟨e, hs, -⟩ | ⟨o, k, ho, -, hs⟩
  · rw [hs]
  · rw [hs]
    exact .put ho (Obj.length_setSlot ..)

/-! What goes before the rest of an operation. -/

theorem Modest.then {x : Exec β} (h : Modest s x) (a : α) : Modest s (x >>= fun _ => pure a) := by
  intro m
  rw [gives_bind]
  exact h m

theorem Modest.lift {x : Except Fault β} {f : β → Exec α} (h : ∀ b, x = .ok b → Modest s (f b)) :
    Modest s (liftM x >>= f) := by
  intro m
  rw [gives_bind, gives_lift]
  exact ⟨fun b hb => h b hb m, fun _ _ => rfl⟩

theorem Modest.pop {op : Opcode} {f : Value → Exec α} (h : ∀ v, Modest s (f v)) :
    Modest s (pop op >>= f) := by
  intro m
  rw [gives_bind, gives_pop]
  exact ⟨fun _ => rfl, fun v vs _ => h v { m with stack := vs }⟩

theorem Modest.peek {op : Opcode} {f : Value → Exec α} (h : ∀ v, Modest s (f v)) :
    Modest s (peek op >>= f) := by
  intro m
  rw [gives_bind, gives_peek]
  exact ⟨fun _ => rfl, fun v _ _ => h v m⟩

theorem Modest.popInt {op : Opcode} {f : Int64 → Exec α} (h : ∀ n, Modest s (f n)) :
    Modest s (popInt op >>= f) := by
  unfold Machine.popInt
  rw [bind_assoc]
  exact .pop fun v => .lift fun n _ => h n

theorem Modest.popRef {op : Opcode} {f : Addr → Exec α} (h : ∀ a, Modest s (f a)) :
    Modest s (popRef op >>= f) := by
  unfold Machine.popRef
  rw [bind_assoc]
  refine .pop fun v => ?_
  cases v.addr? with
  | none => exact modest_throw _
  | some a => exact h a

theorem Modest.get {f : Machine → Exec α} (h : ∀ m, Modest s (f m)) : Modest s (get >>= f) :=
  fun m => h m m

/-- The new object is no larger than allowed. -/
theorem Modest.alloc {op : Opcode} {n : Int64} {o : Nat → Obj} (ho : ∀ k, (o k).slots.length = k) :
    Modest s (liftM (allocSize s op n) >>= fun k => alloc (o k) >>= push) := by
  refine .lift fun k hk m => .alloc (o := o k) ?_
  rw [ho]
  exact le_of_allocSize hk

end Modest

/-- **An instruction that moves data** allocates one object, writes one global or
one slot, or leaves the holdings alone. -/
theorem exec_modest (s : Settings) (x : Instr) : Modest s (exec s x) := by
  unfold exec
  cases x.op with
  | pushInt => exact .lift fun n _ => modest_push _
  | pushBool b => exact modest_push _
  | pop => exact .pop fun _ => modest_pure _
  | dup => exact .peek fun v => modest_push v
  | binary b => exact .pop fun r => .pop fun l => .lift fun v _ => modest_push v
  | unary u => exact .pop fun x => .lift fun v _ => modest_push v
  | loadLocal | loadGlobal =>
    refine .lift fun n _ => ?_
    simp only [loadLocal, loadGlobal, bind_assoc, pure_bind]
    exact .get fun m => .lift fun k _ => modest_push _
  | storeLocal => exact .lift fun n _ => .pop fun v => modest_storeLocal n v
  | storeGlobal => exact .lift fun n _ => .pop fun v => modest_storeGlobal n v
  | allocArray =>
    simp only [allocArray, bind_assoc]
    exact .popInt fun n => .alloc fun k => Value.length_zeros k
  | allocStruct | new =>
    simp only [allocStruct, bind_assoc]
    exact .lift fun type _ => .popInt fun n => .alloc fun k => Value.length_zeros k
  | loadElem =>
    exact .popInt fun k => .popRef fun a => .get fun m => .lift fun o _ => .lift fun v _ => modest_push v
  | storeElem =>
    exact .pop fun v => .popInt fun k => .popRef fun a => modest_store a _ v
  | loadField =>
    exact .lift fun k _ => .popRef fun a => .get fun m => .lift fun o _ => .lift fun v _ => modest_push v
  | storeField =>
    exact .lift fun k _ => .pop fun v => .popRef fun a => modest_store a _ v
  | printInt => exact .popInt fun n => modest_print _
  | printBool => exact .pop fun v => modest_print _
  | jump | call | ret | retVoid | halt => exact modest_throw _

/-! ### Control -/

theorem modest_branch {s : Settings} (op : Opcode) (w : Branch) (t : Nat) :
    Modest s (branch op w t) := by
  cases w with
  | always => exact modest_pure _
  | on b =>
    rw [branch_on]
    exact .pop fun v => modest_pure _

theorem modest_leave {s : Settings} (op : Opcode) (v : Option Value) : Modest s (leave op v) := by
  intro m
  unfold Gives leave
  cases m.frames with
  | nil => exact rfl
  | cons f fs => exact .none

theorem modest_returnWith {s : Settings} (op : Opcode) (v : Option Value) :
    Modest s (returnWith op v) := by
  intro m
  cases hf : m.frames with
  | nil =>
    have herror : returnWith op v m = .error (.stackUnderflow op) m := by
      simp only [returnWith, hf, leave]
    unfold Gives
    rw [herror]
  | cons f fs =>
    unfold Gives
    cases hret : f.returnIp with
    | none =>
      rw [returnWith_none hf hret]
      exact .none
    | some ret =>
      rw [returnWith_some hf hret]
      exact .none

theorem interpret_modest (env : Env) (x : Instr) : Modest env.settings (interpret env x) := by
  by_cases hd : x.op.movesData = true
  · rw [interpret_data hd]
    exact (exec_modest env.settings x).then _
  · unfold interpret
    cases hop : x.op with
    | jump w => exact .lift fun t _ => modest_branch _ _ _
    | call => exact .lift fun f _ => modest_pure _
    | ret => exact .pop fun v => modest_returnWith _ _
    | retVoid => exact modest_returnWith _ _
    | halt => exact fun m => .none
    | _ => rw [hop] at hd; exact absurd rfl hd

theorem integrated_modest (env : Env) (func : Nat) (x : Instr) :
    Modest env.settings (integrated env func x) := by
  by_cases hd : x.op.movesData = true
  · rw [integrated_data hd]
    exact (exec_modest env.settings x).then _
  · unfold integrated
    cases hop : x.op with
    | jump w => exact modest_branch _ _ _
    | call => exact modest_pure _
    | ret => exact .pop fun v => (modest_leave _ _).then _
    | retVoid => exact (modest_leave _ _).then _
    | halt => exact modest_throw _
    | _ => rw [hop] at hd; exact absurd rfl hd

/-- Writing back writes globals, as far as it goes. -/
theorem writeBack_writes (s : Settings) (values : List Value) (ks : List Nat) (m : Machine) :
    Gives (writeBack s values ks) m
      (fun _ n => Relation.ReflTransGen (Writes s) m.holdings n.holdings)
      (fun _ n => Relation.ReflTransGen (Writes s) m.holdings n.holdings) := by
  induction ks generalizing m with
  | nil => exact .refl
  | cons k ks ih =>
    simp only [writeBack, storeGlobal, gives_bind, gives_lift, gives_modify]
    refine ⟨fun j hj => ?_, fun _ _ => .refl⟩
    have hwrite : Writes s m.holdings
        { m with globals := setGrowing m.globals j (values.getD k .zero) }.holdings :=
      ⟨j, _, lt_of_slot hj, rfl⟩
    have hrest := ih { m with globals := setGrowing m.globals j (values.getD k .zero) }
    unfold Gives at hrest ⊢
    cases hr : writeBack s values ks
        { m with globals := setGrowing m.globals j (values.getD k .zero) } with
    | ok u n => rw [hr] at hrest; exact .head hwrite hrest
    | error e n => rw [hr] at hrest; exact .head hwrite hrest

theorem rejoin_writes (s : Settings) (c : Context) (m : Machine) :
    Gives (rejoin s c) m
      (fun _ n => Relation.ReflTransGen (Writes s) m.holdings n.holdings)
      (fun _ n => Relation.ReflTransGen (Writes s) m.holdings n.holdings) := by
  have h := writeBack_writes s c.globals c.dirty m
  unfold rejoin
  rw [gives_bind]
  unfold Gives at h ⊢
  cases hr : writeBack s c.globals c.dirty m with
  | ok u n =>
    rw [hr] at h
    cases c.result with
    | none => exact h
    | some v => exact h
  | error e n => rw [hr] at h; exact h

end Machine

/-- The machine that some progress leaves. -/
def Progress.machine {σ : Type} : Progress σ → Machine
  | running r => r.machine
  | ended e => e.machine

/-- The state an operation leaves, also where it fails. -/
def leftBy {ε σ α : Type} : EStateM.Result ε σ α → σ
  | .ok _ s => s
  | .error _ s => s

theorem Machine.Modest.leftBy {α : Type} {s : Settings} {x : Exec α} (h : Modest s x) (m : Machine) :
    Changes s m.holdings (StackMachine.leftBy (x m)).holdings := by
  have hx := h m
  unfold Gives at hx
  cases hr : x m with
  | ok a n => rw [hr] at hx; exact hx
  | error e n =>
    rw [hr] at hx
    dsimp only at hx
    simp only [StackMachine.leftBy, hx]
    exact .none

namespace Run

variable {σ : Type} {env : Env} {hooks : Hooks σ}

theorem holdings_restore (t : Task) (m : Machine) : (t.restore m).holdings = m.holdings := by
  rcases t with ⟨d, _ | ip⟩ | ⟨b, pc⟩ | ⟨b, pc, c⟩ <;> rfl

theorem holdings_resume (m : Machine) (s : σ) (ts : List Task) :
    (resume m s ts).machine.holdings = m.holdings := by
  induction ts generalizing m with
  | nil => rfl
  | cons t ts ih =>
    unfold resume
    split_ifs
    · rw [ih, holdings_restore]
    · cases t <;> rfl

theorem holdings_begin (r : Run σ) (art : Artifact) :
    (begin env r art).machine.holdings = r.machine.holdings := by
  cases art with
  | integrated b =>
    unfold begin
    rcases Machine.enter_cases env.program b.func r.machine.ip r.machine with
      ⟨f, -, -, he⟩ | ⟨e, he⟩ <;> simp only [he] <;> rfl
  | isolated b arity locals =>
    have hgives := Machine.isolate_gives env.settings b.func arity locals r.machine
    unfold Gives at hgives
    unfold begin
    cases hr : Machine.isolate env.settings b.func arity locals r.machine with
    | ok c n =>
      rw [hr] at hgives
      obtain ⟨-, rfl, -⟩ := hgives
      simp only [hr]
      rfl
    | error e n =>
      rw [hr] at hgives
      obtain ⟨st, rfl⟩ := hgives
      simp only [hr]
      rfl

theorem holdings_beginCompiled (r : Run σ) (art : Artifact) :
    (beginCompiled env r art).machine.holdings = r.machine.holdings := by
  unfold beginCompiled
  rw [holdings_begin]
  rfl

theorem holdings_callFromStream (r : Run σ) (k : Nat) :
    (callFromStream env hooks r k).machine.holdings = r.machine.holdings := by
  unfold callFromStream
  rcases hooks.compiled r.hooks k with ⟨_ | art, t⟩
  · simp only
    rcases Machine.enter_cases env.program k (r.machine.ip + 1) r.machine with
      ⟨f, -, -, he⟩ | ⟨e, he⟩ <;> simp only [he] <;> rfl
  · exact holdings_beginCompiled ..

theorem holdings_call (r : Run σ) (k : Nat) :
    (call env hooks r k).machine.holdings = r.machine.holdings := by
  unfold call
  split_ifs
  · rfl
  · rcases hooks.compiled r.hooks k with ⟨_ | art, t⟩
    · simp only
      rcases Machine.enter_cases env.program k r.machine.ip r.machine with
        ⟨f, -, -, he⟩ | ⟨e, he⟩ <;> simp only [he] <;> rfl
    · exact holdings_beginCompiled ..

theorem holdings_afterInterpret (s : σ) (d : Nat) (back : Option Nat) (ts : List Task)
    (r : EStateM.Result Fault Machine Flow) :
    (afterInterpret env hooks s d back ts r).machine.holdings = (leftBy r).holdings := by
  rcases r with ⟨fl, n⟩ | ⟨e, n⟩
  · cases fl with
    | next | jump => rfl
    | call k => exact holdings_callFromStream ..
    | returned =>
      unfold afterInterpret
      dsimp only
      split_ifs
      · rw [holdings_resume, holdings_restore]
        rfl
      · rfl
    | stop => exact (holdings_resume ..).trans (holdings_restore ..)
  · rfl

theorem holdings_afterIntegrated (s : σ) (b : CompiledBody) (pc : Nat) (ts : List Task)
    (r : EStateM.Result Fault Machine Flow) :
    (afterIntegrated env hooks s b pc ts r).machine.holdings = (leftBy r).holdings := by
  rcases r with ⟨fl, n⟩ | ⟨e, n⟩
  · cases fl with
    | next | jump => rfl
    | call k => exact holdings_call ..
    | returned | stop => exact holdings_resume ..
  · rfl

/-- **All that one step may do to the holdings.** -/
theorem step_spends (env : Env) (hooks : Hooks σ) (r : Run σ) :
    Spends env.settings r.machine (step env hooks r).machine.holdings := by
  obtain ⟨m, s, ts⟩ := r
  rcases ts with _ | ⟨⟨d, back⟩ | ⟨b, pc⟩ | ⟨b, pc, c⟩, ts⟩
  · exact .none
  · cases hstop : m.stop with
    | some st =>
      have hstopped : m.stopped = true := by simp [Machine.stopped, hstop]
      simp only [step, stepInterpret, hstopped, if_true, holdings_resume, holdings_restore]
      exact .none
    | none =>
      cases hx : env.program.code[(m.maybeCollect env.settings).ip]? with
      | none =>
        rw [step_ranOut hstop hx, holdings_resume, holdings_restore]
        exact .instruction .none
      | some x =>
        rw [step_interpret hstop hx, holdings_afterInterpret]
        exact .instruction ((Machine.interpret_modest env x).leftBy _)
  · cases hx : b.code[pc]? with
    | none =>
      have hkept : (step env hooks ⟨m, s, .integrated b pc :: ts⟩).machine.holdings = m.holdings := by
        simp only [step, stepIntegrated, hx]
        cases hm : m.frames with
        | nil => simp only [Machine.leave, hm]; rfl
        | cons f fs => simp only [Machine.leave_cons hm, holdings_resume]; rfl
      rw [hkept]
      exact .none
    | some x =>
      rw [step_integrated hx, holdings_afterIntegrated]
      exact .instruction ((Machine.integrated_modest env b.func x).leftBy _)
  · simp only [step, stepIsolated]
    cases hc : Context.step b.code pc c with
    | on pc' c' => exact .none
    | failed e c' => exact .none
    | ended c' =>
      have hwrites := Machine.rejoin_writes env.settings c' (m.printAll c'.output)
      unfold Gives at hwrites
      simp only [endIsolated]
      cases hr : Machine.rejoin env.settings c' (m.printAll c'.output) with
      | error e n =>
        rw [hr] at hwrites
        exact .written hwrites
      | ok u n =>
        rw [hr] at hwrites
        simp only [holdings_resume]
        exact .written hwrites

end Run

/-! ### The counts and the limits -/

namespace Holdings

/-- The counts agree and the limits are kept: of the objects handed out, each at
the address that was next, those that are not in the heap were freed; at most
`room` more were handed out since the last collection than are let pass; and no
object is too large, nor are there too many globals. -/
structure Balanced (s : Settings) (room : Nat) (a : Holdings) : Prop where
  next : a.heap.total = a.heap.next
  live : a.heap.total = a.heap.size + a.collector.freed
  recent : s.collecting = true → a.heap.sinceCollection ≤ s.collectAfter + room
  globals : a.globals.length ≤ s.maxGlobals
  sizes : ∀ k o, a.heap.get? k = some o → o.slots.length ≤ s.maxAlloc

variable {s : Settings} {room : Nat} {a b : Holdings} {m : Machine}

theorem Writes.length_globals (h : Writes s a b) :
    a.globals.length ≤ b.globals.length ∧
      (a.globals.length ≤ s.maxGlobals → b.globals.length ≤ s.maxGlobals) := by
  obtain ⟨k, v, hk, rfl⟩ := h
  simp only [length_setGrowing]
  omega

theorem Balanced.write (ha : a.Balanced s room) (h : Writes s a b) : b.Balanced s room := by
  have hlen := h.length_globals.2 ha.globals
  obtain ⟨k, v, -, rfl⟩ := h
  exact ⟨ha.next, ha.live, ha.recent, hlen, ha.sizes⟩

/-- An instruction may take up the room that a collection has made. -/
theorem Balanced.change (ha : a.Balanced s 0) (h : Changes s a b) : b.Balanced s 1 := by
  have hrecent : s.collecting = true → a.heap.sinceCollection ≤ s.collectAfter + 1 :=
    fun hc => (ha.recent hc).trans (Nat.le_succ _)
  have hroom : a.Balanced s 1 := ⟨ha.next, ha.live, hrecent, ha.globals, ha.sizes⟩
  cases h with
  | none => exact hroom
  | global hw => exact hroom.write hw
  | @alloc o ho =>
    refine ⟨?_, ?_, fun hc => ?_, ha.globals, fun k p hp => ?_⟩
    · exact congrArg (· + 1) ha.next
    · have := ha.live
      simp only [Heap.alloc, Heap.size, List.length_cons] at this ⊢
      omega
    · exact Nat.succ_le_succ (ha.recent hc)
    · rw [Heap.get?_alloc] at hp
      split_ifs at hp
      · exact Option.some.inj hp ▸ ho
      · exact ha.sizes k p hp
  | @put k o p ho hp =>
    refine ⟨ha.next, ?_, hrecent, ha.globals, fun j q hq => ?_⟩
    · have := ha.live
      simpa only [Heap.put, Heap.size, List.length_map] using this
    · rw [Heap.get?_put] at hq
      split_ifs at hq with hj
      · obtain ⟨o', ho', rfl⟩ := Option.map_eq_some_iff.mp hq
        exact hp ▸ ha.sizes k o ho
      · exact ha.sizes j q hq

/-- A collection frees what it does not keep. -/
theorem size_collect (c : Collector) (h : Heap) (roots : List Value) :
    (c.collect h roots).1.size + (c.collect h roots).2.1.freed = h.size + c.freed := by
  have := h.size_keep_add_unmarked (Collector.follow h [] (roots.filterMap Value.addr?))
  simp only [Collector.collect, Collector.sweep, Collector.unreached, Collector.mark]
  simp only [Heap.size] at this ⊢
  omega

/-- After a check whether to collect there is room again. -/
theorem Balanced.collect (h : m.holdings.Balanced s room) :
    (m.maybeCollect s).holdings.Balanced s 0 := by
  unfold Machine.maybeCollect
  split_ifs with hc
  · have hsize := size_collect m.collector m.heap m.roots
    refine ⟨h.next, ?_, fun _ => Nat.zero_le _, h.globals, fun k o ho => ?_⟩
    · exact h.live.trans hsize.symm
    · exact h.sizes k o ((Collector.get?_collect m.collector m.heap m.roots k o).mp ho).1
  · refine ⟨h.next, h.live, fun hon => ?_, h.globals, h.sizes⟩
    simp only [hon, Bool.true_and, decide_eq_true_eq, not_lt] at hc
    exact hc

/-- **One step keeps the counts and the limits.** -/
theorem Balanced.spend (h : m.holdings.Balanced s 1) (hs : Spends s m a) : a.Balanced s 1 := by
  cases hs with
  | none => exact h
  | instruction hc => exact h.collect.change hc
  | written hw =>
    induction hw with
    | refl => exact h
    | tail _ hlast ih => exact ih.write hlast

theorem Spends.length_globals (hs : Spends s m a) : m.globals.length ≤ a.globals.length := by
  cases hs with
  | none => exact le_rfl
  | instruction hc =>
    have hsame : (m.maybeCollect s).holdings.globals = m.globals := by
      obtain ⟨h, c, he⟩ := m.maybeCollect_eq s
      rw [he]
      rfl
    rw [← hsame]
    cases hc with
    | none | alloc | put => exact le_rfl
    | global hw => exact hw.length_globals.1
  | written hw =>
    induction hw with
    | refl => exact le_rfl
    | tail _ hlast ih => exact ih.trans hlast.length_globals.1

end Holdings

open Holdings (Balanced)

/-! ### Runs -/

namespace Run

variable {σ : Type} {env : Env} {hooks : Hooks σ}

/-- Nothing is handed out at the start, and the settings allow the globals there
are. -/
theorem balanced_boot (hvalid : env.settings.Valid) (s : σ) (output : Array String) :
    (boot env s output).machine.holdings.Balanced env.settings 1 := by
  have hglobals : env.settings.globals ≤ env.settings.maxGlobals := by
    unfold Settings.Valid Settings.problem? at hvalid
    split_ifs at hvalid
    omega
  refine ⟨rfl, rfl, fun _ => Nat.zero_le _, ?_, fun k o ho => by cases ho⟩
  show (Value.zeros env.settings.globals).length ≤ env.settings.maxGlobals
  rwa [Value.length_zeros]

variable {r t : Run σ}

theorem Reach.balanced (h : Reach env hooks r t) (hr : r.machine.holdings.Balanced env.settings 1) :
    t.machine.holdings.Balanced env.settings 1 := by
  refine h.keeps (I := fun t => t.machine.holdings.Balanced env.settings 1) (fun t u ht hs => ?_) hr
  have hspends := step_spends env hooks t
  rw [hs] at hspends
  exact ht.spend hspends

theorem Reach.length_globals (h : Reach env hooks r t) :
    r.machine.globals.length ≤ t.machine.globals.length := by
  refine h.keeps (I := fun t => r.machine.globals.length ≤ t.machine.globals.length)
    (fun t u ht hs => ?_) le_rfl
  have hspends := step_spends env hooks t
  rw [hs] at hspends
  exact ht.trans hspends.length_globals

/-- A run ends as it would from any state on the way. -/
theorem Reach.ends {e : Ending σ} (h : Reach env hooks r t) (he : Ends env hooks (.running r) e) :
    Ends env hooks (.running t) e := by
  induction h with
  | here => exact he
  | step _ hs ih =>
    obtain ⟨fuel, hfuel⟩ := ih
    cases fuel with
    | zero => cases hfuel
    | succ fuel =>
      rw [go, hs] at hfuel
      exact ⟨fuel, hfuel⟩

end Run

/-- **The books of a run.** Under settings that nothing is wrong with, in every
state of a run and in the one it ends in, whatever compiled code serves its calls:
the objects handed out are as many as the next address says, and each is in the
heap or was freed; where the heap is collected, at most one object more than is
let pass was handed out since the last time; there are no more globals than
allowed, and never fewer than before; and no object is larger than allowed. -/
theorem accounted_throughout {σ : Type} (env : Env) (hooks : Hooks σ) (s : σ) (output : Array String)
    (hvalid : env.settings.Valid) :
    (∀ r, Run.Reach env hooks (Run.boot env s output) r →
      r.machine.holdings.Balanced env.settings 1 ∧
      (∀ t, Run.Reach env hooks r t → r.machine.globals.length ≤ t.machine.globals.length) ∧
      ∀ fuel e, env.run hooks s output fuel = some e →
        r.machine.globals.length ≤ e.machine.globals.length) ∧
    ∀ fuel e, env.run hooks s output fuel = some e → e.machine.holdings.Balanced env.settings 1 := by
  have hboot := Run.balanced_boot (σ := σ) hvalid s output
  refine ⟨fun r hr => ⟨hr.balanced hboot, fun t ht => ht.length_globals, fun fuel e he => ?_⟩,
    fun fuel e he => ?_⟩
  · obtain ⟨t, ht, hs⟩ := (hr.ends ⟨fuel, he⟩).last
    have hspends := Run.step_spends env hooks t
    rw [hs] at hspends
    exact ht.length_globals.trans hspends.length_globals
  · obtain ⟨t, ht, hs⟩ := Run.Ends.last ⟨fuel, he⟩
    have hspends := Run.step_spends env hooks t
    rw [hs] at hspends
    exact (ht.balanced hboot).spend hspends

/-- An array goes into the last global there may be, a function writes another
global, and a second array is as large as allowed. -/
def upToTheLimits : Env where
  program :=
    { code :=
        [⟨.pushInt, some 1⟩, ⟨.allocArray, none⟩, ⟨.storeGlobal, some 3⟩, ⟨.call, some 0⟩,
         ⟨.pushInt, some 2⟩, ⟨.allocArray, none⟩, ⟨.halt, none⟩,
         ⟨.pushInt, some 9⟩, ⟨.storeGlobal, some 1⟩, ⟨.retVoid, none⟩]
      functions := [⟨"f", 7, 0, 0, false⟩] }
  settings := { collectAfter := 1, globals := 1, maxGlobals := 4, maxAlloc := 2, entryLocals := 0 }

def servingWriter : Hooks Unit where
  compiled s _ :=
    (some (.integrated
      ⟨0, [⟨.pushInt, some 9⟩, ⟨.storeGlobal, some 1⟩, ⟨.retVoid, none⟩], [7, 8, 9]⟩), s)
  notify s _ := s

/-- Every limit is reached, and none is passed. -/
theorem accounted_throughout_upToTheLimits :
    upToTheLimits.settings.Valid ∧
    ∃ r : Run Unit, Run.Reach upToTheLimits servingWriter (Run.boot upToTheLimits () #[]) r ∧
      r.machine.compiledCalls = 1 ∧ r.machine.heap.total = 2 ∧ r.machine.heap.sinceCollection = 2 ∧
      r.machine.globals = [.int 0, .int 9, .int 0, .ref 0] ∧
      r.machine.heap.get? 1 = some ⟨.array, [.int 0, .int 0]⟩ ∧
      r.machine.holdings.Balanced upToTheLimits.settings 1 := by
  have hvalid : upToTheLimits.settings.Valid := by rfl
  have hstate : ∃ r : Run Unit,
      Run.Reach upToTheLimits servingWriter (Run.boot upToTheLimits () #[]) r ∧
      r.machine.compiledCalls = 1 ∧ r.machine.heap.total = 2 ∧ r.machine.heap.sinceCollection = 2 ∧
      r.machine.globals = [.int 0, .int 9, .int 0, .ref 0] ∧
      r.machine.heap.get? 1 = some ⟨.array, [.int 0, .int 0]⟩ :=
    ⟨_, .step (.step (.step (.step (.step (.step (.step (.step (.step .here rfl) rfl) rfl) rfl) rfl) rfl)
      rfl) rfl) rfl, rfl, rfl, rfl, rfl, rfl⟩
  obtain ⟨r, hr, hcalls, htotal, hsince, hglobals, hobj⟩ := hstate
  obtain ⟨hstates, -⟩ := accounted_throughout upToTheLimits servingWriter () #[] hvalid
  exact ⟨hvalid, r, hr, hcalls, htotal, hsince, hglobals, hobj, (hstates r hr).1⟩

end StackMachine
