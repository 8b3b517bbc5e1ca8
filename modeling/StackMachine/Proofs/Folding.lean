/-
# Constant folding

Folding keeps the meaning of every body, checked or not. Each push in its output
stands for a stretch of the body that comes down to it: pushes and operators, of
which no jump lands on any but the first (`Peephole.Computes`). All else is kept
as it is. So the output covers the body piece by piece (`Peephole.Tiles`), every
jump lands where a piece starts, and running a piece is running the instruction
that stands for it (`Peephole.fold_agrees`).

* `Peephole.pieces`: the output before its jumps are moved;
* `Peephole.Tile`: what an instruction of the output stands for;
* `Peephole.Starts`, `Peephole.slot`: where pieces start, and where they go.
-/
import Mathlib
import StackMachine.Proofs.Passes

namespace StackMachine
namespace Peephole

variable {body : Code}

/-! ### Stretches that come down to a constant -/

/-- From `j` up to `k` the body only computes the constant `v`, and no jump
lands behind `j` in it. -/
inductive Computes (body : Code) : (j k : Nat) → Value → Prop
  | push {j : Nat} {x : Instr} {v : Value} (fetch : body[j]? = some x)
      (value : constant? x = some v) : Computes body j (j + 1) v
  | binary {j i k : Nat} {x : Instr} {b : Binary} {l r v : Value} (left : Computes body j i l)
      (right : Computes body i k r) (fetch : body[k]? = some x) (op : x.op = .binary b)
      (value : b.eval l r = .ok v) (inner : i ∉ landings body) (outer : k ∉ landings body) :
      Computes body j (k + 1) v
  | unary {j k : Nat} {x : Instr} {u : Unary} {w v : Value} (operand : Computes body j k w)
      (fetch : body[k]? = some x) (op : x.op = .unary u) (value : u.eval w = .ok v)
      (outer : k ∉ landings body) : Computes body j (k + 1) v

theorem Computes.lt {j k : Nat} {v : Value} (h : Computes body j k v) : j < k := by
  induction h with
  | push => omega
  | binary _ _ _ _ _ _ _ ihl ihr => omega
  | unary _ _ _ _ _ ih => omega

theorem Computes.not_landing {j k t : Nat} {v : Value} (h : Computes body j k v) (hj : j < t)
    (hk : t < k) : t ∉ landings body := by
  induction h with
  | push => omega
  | @binary j i k x b l r v _ _ _ _ _ hi ho ihl ihr =>
    rcases Nat.lt_trichotomy t i with h | rfl | h
    · exact ihl hj h
    · exact hi
    · rcases Nat.lt_or_eq_of_le (Nat.le_of_lt_succ hk) with h' | rfl
      · exact ihr h h'
      · exact ho
  | @unary j k x u w v _ _ _ _ ho ih =>
    rcases Nat.lt_or_eq_of_le (Nat.le_of_lt_succ hk) with h' | rfl
    · exact ih hj h'
    · exact ho

theorem exec_binary {x : Instr} {b : Binary} {l r v : Value} (hop : x.op = .binary b)
    (hv : b.eval l r = .ok v) (c : Context) :
    Context.exec x { c with stack := r :: l :: c.stack } =
      .ok .next { c with stack := v :: c.stack } := by
  obtain ⟨op, operand⟩ := x
  obtain rfl : op = .binary b := hop
  have hexec : Context.exec ⟨.binary b, operand⟩ = (Context.pop (.binary b) >>= fun r =>
      Context.pop (.binary b) >>= fun l => liftM (b.eval l r) >>= fun v =>
        Context.push v >>= fun _ => pure Flow.next : Context.Exec Flow) := rfl
  rw [hexec, bind_of_ok (Context.pop_cons rfl _), bind_of_ok (Context.pop_cons rfl _), hv]
  rfl

theorem exec_unary {x : Instr} {u : Unary} {w v : Value} (hop : x.op = .unary u)
    (hv : u.eval w = .ok v) (c : Context) :
    Context.exec x { c with stack := w :: c.stack } =
      .ok .next { c with stack := v :: c.stack } := by
  obtain ⟨op, operand⟩ := x
  obtain rfl : op = .unary u := hop
  have hexec : Context.exec ⟨.unary u, operand⟩ = (Context.pop (.unary u) >>= fun w =>
      liftM (u.eval w) >>= fun v => Context.push v >>= fun _ => pure Flow.next :
        Context.Exec Flow) := rfl
  rw [hexec, bind_of_ok (Context.pop_cons rfl _), hv]
  rfl

/-- A run goes through such a stretch and pushes its value. -/
theorem Computes.reach {j k : Nat} {v : Value} (h : Computes body j k v) (c : Context) :
    Context.Reach body (fun _ => True) j c k { c with stack := v :: c.stack } := by
  induction h generalizing c with
  | @push j x v hx hv =>
    refine .step .here ?_ fun _ => trivial
    simp only [Context.step, hx, exec_constant hv]
  | @binary j i k x b l r v _ _ hx hop hv _ _ ihl ihr =>
    refine .step ((ihl c).trans (ihr _)) ?_ fun _ => trivial
    simp only [Context.step, hx, exec_binary hop hv c]
  | @unary j k x u w v _ hx hop hv _ ih =>
    refine .step (ih c) ?_ fun _ => trivial
    simp only [Context.step, hx, exec_unary hop hv c]

/-! ### The output, piece by piece -/

/-- The output of the pass before its jumps are moved. -/
def pieces (body : Code) : List Traced :=
  ((trace body).foldl (foldStep (landings body)) []).reverse

/-- An instruction of the output stands for the body from its origin up to `k`:
for the one instruction there, or for what computes the value that it pushes. -/
inductive Tile (body : Code) (t : Traced) : (k : Nat) → Prop
  | kept (fetch : body[t.origin]? = some t.instr) : Tile body t (t.origin + 1)
  | folded {k : Nat} {v : Value} (computes : Computes body t.origin k v)
      (push : pushOf? v = some t.instr) : Tile body t k

/-- The instructions stand for the body from one place up to another. -/
inductive Tiles (body : Code) : (j k : Nat) → List Traced → Prop
  | nil {k : Nat} : Tiles body k k []
  | cons {t : Traced} {k n : Nat} {out : List Traced} (tile : Tile body t k)
      (rest : Tiles body k n out) : Tiles body t.origin n (t :: out)

theorem constant?_of_pushOf? {v : Value} {x : Instr} (h : pushOf? v = some x) :
    constant? x = some v := by
  cases v with
  | int n => cases h; rfl
  | bool b => cases h; rfl
  | ref a => cases h

/-- A push in the output stands for what computes its value. -/
theorem Tile.computes {t : Traced} {k : Nat} {v : Value} (h : Tile body t k)
    (hv : constant? t.instr = some v) : Computes body t.origin k v := by
  cases h with
  | kept hx => exact .push hx hv
  | folded hc hp =>
    rw [constant?_of_pushOf? hp] at hv
    exact Option.some.inj hv ▸ hc

theorem Tile.origin_lt {t : Traced} {k : Nat} (h : Tile body t k) : t.origin < k := by
  cases h with
  | kept => omega
  | folded hc => exact hc.lt

theorem Tile.not_landing {t : Traced} {k i : Nat} (h : Tile body t k) (hi : t.origin < i)
    (hk : i < k) : i ∉ landings body := by
  cases h with
  | kept => omega
  | folded hc => exact hc.not_landing hi hk

theorem tiles_append {j n : Nat} {out out' : List Traced} :
    Tiles body j n (out ++ out') ↔ ∃ k, Tiles body j k out ∧ Tiles body k n out' := by
  constructor
  · intro h
    induction out generalizing j with
    | nil => exact ⟨j, .nil, h⟩
    | cons t out ih =>
      cases h with
      | cons ht hrest =>
        obtain ⟨k, h₁, h₂⟩ := ih hrest
        exact ⟨k, .cons ht h₁, h₂⟩
  · rintro ⟨k, h₁, h₂⟩
    induction h₁ with
    | nil => exact h₂
    | cons ht _ ih => exact .cons ht (ih h₂)

theorem tiles_singleton {j n : Nat} {t : Traced} :
    Tiles body j n [t] ↔ j = t.origin ∧ Tile body t n := by
  constructor
  · rintro (_ | ⟨ht, _ | _⟩)
    exact ⟨rfl, ht⟩
  · rintro ⟨rfl, ht⟩
    exact .cons ht .nil

theorem Tiles.le {j n : Nat} {out : List Traced} (h : Tiles body j n out) : j ≤ n := by
  induction h with
  | nil => exact le_rfl
  | cons ht _ ih => exact ht.origin_lt.le.trans ih

/-! ### What the pass adds -/

/-- What a fold comes to: an operator of the body and the pushes before it. -/
inductive Folds (landed : List Nat) (last : Traced) : (out : List Traced) → (t : Traced) →
    (rest : List Traced) → Prop
  | binary {left right : Traced} {rest : List Traced} {b : Binary} {l r v : Value} {i : Instr}
      (op : last.instr.op = .binary b) (inner : right.origin ∉ landed)
      (outer : last.origin ∉ landed) (hl : constant? left.instr = some l)
      (hr : constant? right.instr = some r) (value : b.eval l r = .ok v) (push : pushOf? v = some i) :
      Folds landed last (right :: left :: rest) ⟨i, left.origin⟩ rest
  | unary {operand : Traced} {rest : List Traced} {u : Unary} {w v : Value} {i : Instr}
      (op : last.instr.op = .unary u) (outer : last.origin ∉ landed)
      (hw : constant? operand.instr = some w) (value : u.eval w = .ok v) (push : pushOf? v = some i) :
      Folds landed last (operand :: rest) ⟨i, operand.origin⟩ rest

theorem toOption_eq_some {e : Except Fault Value} {v : Value} (h : e.toOption = some v) :
    e = .ok v := by
  cases e with
  | error => cases h
  | ok w => cases h; rfl

theorem unary?_folds {landed : List Nat} {last operand t : Traced} {u : Unary}
    {rest out : List Traced} (hop : last.instr.op = .unary u)
    (h : folded?.unary? landed last u operand rest = some (t, out)) :
    Folds landed last (operand :: rest) t out := by
  unfold folded?.unary? at h
  split_ifs at h with hland
  simp only [Option.bind_eq_bind, Option.bind_eq_some_iff, Option.pure_def, Option.some.injEq,
    Prod.mk.injEq] at h
  obtain ⟨w, hw, v, hv, i, hi, rfl, rfl⟩ := h
  refine .unary hop ?_ hw (toOption_eq_some hv) hi
  simpa using hland

theorem folded?_folds {landed : List Nat} {last t : Traced} {out rest : List Traced}
    (h : folded? landed last out = some (t, rest)) : Folds landed last out t rest := by
  rcases out with _ | ⟨right, _ | ⟨left, out⟩⟩
  · cases h
  · cases hop : last.instr.op with
    | unary u => simp only [folded?, hop] at h; exact unary?_folds hop h
    | _ => simp [folded?, hop] at h
  · cases hop : last.instr.op with
    | unary u => simp only [folded?, hop] at h; exact unary?_folds hop h
    | binary b =>
      simp only [folded?, hop] at h
      split_ifs at h with hland
      simp only [Option.bind_eq_bind, Option.bind_eq_some_iff, Option.pure_def, Option.some.injEq,
        Prod.mk.injEq] at h
      obtain ⟨l, hl, r, hr, v, hv, i, hi, rfl, rfl⟩ := h
      rw [Bool.or_eq_true, not_or] at hland
      exact .binary hop (by simpa using hland.1) (by simpa using hland.2) hl hr
        (toOption_eq_some hv) hi
    | _ => simp [folded?, hop] at h

/-- **One more instruction of the body is one more piece of the output**, or
makes its last pieces one. -/
theorem tiles_foldStep {k : Nat} {x : Instr} {out : List Traced} (hx : body[k]? = some x)
    (h : Tiles body 0 k out.reverse) :
    Tiles body 0 (k + 1) (foldStep (landings body) out ⟨x, k⟩).reverse := by
  unfold foldStep
  cases hf : folded? (landings body) ⟨x, k⟩ out with
  | none =>
    rw [List.reverse_cons, tiles_append]
    exact ⟨k, h, tiles_singleton.mpr ⟨rfl, .kept hx⟩⟩
  | some p =>
    obtain ⟨t, rest⟩ := p
    simp only
    rw [List.reverse_cons, tiles_append]
    cases folded?_folds hf with
    | @binary left right _ b l r v i hop hi ho hl hr hv hp =>
      rw [List.reverse_cons, List.reverse_cons, tiles_append] at h
      obtain ⟨m, h, hm⟩ := h
      obtain ⟨j, hrest, hj⟩ := tiles_append.mp h
      obtain ⟨rfl, hright⟩ := tiles_singleton.mp hm
      obtain ⟨rfl, hleft⟩ := tiles_singleton.mp hj
      refine ⟨_, hrest, tiles_singleton.mpr ⟨rfl, .folded (v := v) ?_ hp⟩⟩
      exact .binary (hleft.computes hl) (hright.computes hr) hx hop hv hi ho
    | @unary operand _ u w v i hop ho hw hv hp =>
      rw [List.reverse_cons, tiles_append] at h
      obtain ⟨j, hrest, hj⟩ := h
      obtain ⟨rfl, hoperand⟩ := tiles_singleton.mp hj
      refine ⟨_, hrest, tiles_singleton.mpr ⟨rfl, .folded (v := v) ?_ hp⟩⟩
      exact .unary (hoperand.computes hw) hx hop hv ho

/-- The output stands for the whole body. -/
theorem tiles_pieces (body : Code) : Tiles body 0 body.length (pieces body) := by
  have hpassed : ∀ k ≤ body.length,
      Tiles body 0 k (((trace body).take k).foldl (foldStep (landings body)) []).reverse := by
    intro k hk
    induction k with
    | zero => exact .nil
    | succ k ih =>
      have hx : body[k]? = some body[k] := List.getElem?_eq_getElem hk
      rw [List.take_add_one, getElem?_trace_of_fetch hx, Option.toList_some, List.foldl_append]
      exact tiles_foldStep hx (ih (Nat.le_of_succ_le hk))
  have h := hpassed body.length le_rfl
  rwa [← length_trace, List.take_length, length_trace] at h

/-! ### Where pieces start -/

/-- The output falls apart at `k`: a piece starts there, or the body ends. -/
def Starts (body : Code) (k : Nat) : Prop :=
  ∃ before after, pieces body = before ++ after ∧ Tiles body 0 k before ∧
    Tiles body k body.length after

/-- Where the first piece from `k` on goes to; what is not in the body stays. -/
def slot (body : Code) (k : Nat) : Nat :=
  if k ≤ body.length then ((pieces body).map Traced.origin).countP (· < k) else k

theorem Tiles.origin_lt {j n : Nat} {out : List Traced} {t : Traced} (h : Tiles body j n out)
    (ht : t ∈ out) : t.origin < n := by
  induction h with
  | nil => cases ht
  | cons htile hrest ih =>
    rcases List.mem_cons.mp ht with rfl | ht
    · exact htile.origin_lt.trans_le hrest.le
    · exact ih ht

theorem Tiles.le_origin {j n : Nat} {out : List Traced} {t : Traced} (h : Tiles body j n out)
    (ht : t ∈ out) : j ≤ t.origin := by
  induction h with
  | nil => cases ht
  | cons htile hrest ih =>
    rcases List.mem_cons.mp ht with rfl | ht
    · exact le_rfl
    · exact htile.origin_lt.le.trans (ih ht)

theorem Tiles.sorted {j n : Nat} {out : List Traced} (h : Tiles body j n out) :
    (out.map Traced.origin).Pairwise (· < ·) := by
  induction h with
  | nil => exact .nil
  | cons htile hrest ih =>
    refine List.pairwise_cons.mpr ⟨fun i hi => ?_, ih⟩
    obtain ⟨u, hu, rfl⟩ := List.mem_map.mp hi
    exact htile.origin_lt.trans_le (hrest.le_origin hu)

theorem nodup_origins (body : Code) : ((pieces body).map Traced.origin).Nodup :=
  (tiles_pieces body).sorted.imp Nat.ne_of_lt

/-- As many pieces come before the slot as before the place. -/
theorem slot_eq {k : Nat} {before after : List Traced} (h : pieces body = before ++ after)
    (hb : Tiles body 0 k before) (ha : Tiles body k body.length after) :
    slot body k = before.length := by
  have hold : (before.map Traced.origin).countP (· < k) = before.length := by
    rw [List.countP_eq_length.mpr, List.length_map]
    intro i hi
    obtain ⟨t, ht, rfl⟩ := List.mem_map.mp hi
    simpa using hb.origin_lt ht
  have hnew : (after.map Traced.origin).countP (· < k) = 0 := by
    rw [List.countP_eq_zero]
    intro i hi
    obtain ⟨t, ht, rfl⟩ := List.mem_map.mp hi
    simpa using ha.le_origin ht
  rw [slot, if_pos ha.le, h, List.map_append, List.countP_append, hold, hnew, Nat.add_zero]

/-- The code of the output has a piece's instruction, with its jump moved along. -/
theorem getElem?_fold {t : Traced} {before after : List Traced}
    (h : pieces body = before ++ t :: after) :
    (code (fold body))[before.length]? =
      some (retarget body.length ((pieces body).map Traced.origin) t.instr) := by
  have hfold : fold body = remap body.length (pieces body) := rfl
  rw [code, hfold, remap, List.map_map, List.getElem?_map]
  simp [h]

theorem Tiles.split {j n i : Nat} {out : List Traced} (h : Tiles body j n out)
    (hi : i ∈ landings body) (hj : j ≤ i) (hn : i ≤ n) :
    ∃ before after, out = before ++ after ∧ Tiles body j i before ∧ Tiles body i n after := by
  induction h with
  | @nil k =>
    obtain rfl : k = i := by omega
    exact ⟨[], [], rfl, .nil, .nil⟩
  | @cons t k n out htile hrest ih =>
    rcases Nat.eq_or_lt_of_le hj with rfl | hlt
    · exact ⟨[], t :: out, rfl, .nil, .cons htile hrest⟩
    · have hk : k ≤ i := by
        by_contra hki
        exact htile.not_landing hlt (by omega) hi
      obtain ⟨before, after, rfl, hb, ha⟩ := ih hk hn
      exact ⟨t :: before, after, rfl, .cons htile hb, ha⟩

/-- **Jumps land where pieces start.** -/
theorem starts_of_landing {k : Nat} (hk : k ∈ landings body) (hle : k ≤ body.length) :
    Starts body k :=
  (tiles_pieces body).split hk (Nat.zero_le k) hle

theorem starts_zero (body : Code) : Starts body 0 :=
  ⟨[], pieces body, rfl, .nil, tiles_pieces body⟩

theorem slot_zero (body : Code) : slot body 0 = 0 := by simp [slot]

/-! ### Steps -/

/-- What a step of the output from the start of a piece comes to. -/
inductive Follows (body : Code) (k : Nat) (c : Context) : Prop
  /-- The same step of the body, to the start of another piece or out of it. -/
  | step (eq : Context.step (code (fold body)) (slot body k) c =
        moved (slot body) (Context.step body k c))
      (starts : ∀ k' c', Context.step body k c = .on k' c' → Starts body k' ∨ body.length < k')
  /-- A way of the body through the piece. -/
  | reach {k' : Nat} {c' : Context}
      (eq : Context.step (code (fold body)) (slot body k) c = .on (slot body k') c')
      (through : Context.Reach body (fun _ => True) k c k' c') (later : k ≠ k')
      (starts : Starts body k')

theorem step_beyond {k : Nat} (hk : body.length ≤ k) (c : Context) :
    Context.step body k c = .ended c := by
  simp only [Context.step, List.getElem?_eq_none hk]

theorem length_fold (body : Code) : (code (fold body)).length = (pieces body).length := by
  simp [code, fold, remap, pieces]

theorem length_pieces_le (body : Code) : (pieces body).length ≤ body.length := by
  have h := countP_lt_le (nodup_origins body) body.length
  rwa [← slot_eq (List.append_nil _).symm (tiles_pieces body) .nil, slot, if_pos le_rfl]

theorem follows_end {k : Nat} (hk : body.length ≤ k) (hslot : (pieces body).length ≤ slot body k)
    (c : Context) : Follows body k c := by
  rw [← length_fold] at hslot
  refine .step ?_ fun k' c' hs => ?_
  · rw [step_beyond hslot, step_beyond hk]
    rfl
  · rw [step_beyond hk] at hs
    cases hs

/-- Past a piece, in the body and in the output. -/
theorem slot_piece {t : Traced} {before after : List Traced} {k : Nat}
    (h : pieces body = before ++ t :: after) (ht : Tile body t k)
    (hb : Tiles body 0 t.origin before) (ha : Tiles body k body.length after) :
    slot body t.origin = before.length ∧ slot body k = before.length + 1 ∧ Starts body k := by
  have h' : pieces body = (before ++ [t]) ++ after := by rw [h, List.append_assoc]; rfl
  have hb' : Tiles body 0 k (before ++ [t]) :=
    tiles_append.mpr ⟨_, hb, tiles_singleton.mpr ⟨rfl, ht⟩⟩
  refine ⟨slot_eq h hb (.cons ht ha), ?_, _, _, h', hb', ha⟩
  rw [slot_eq h' hb' ha, List.length_append, List.length_singleton]

/-- An instruction that stands for itself. -/
theorem follows_kept {t : Traced} {before after : List Traced}
    (h : pieces body = before ++ t :: after) (hx : body[t.origin]? = some t.instr)
    (hb : Tiles body 0 t.origin before) (ha : Tiles body (t.origin + 1) body.length after)
    (c : Context) : Follows body t.origin c := by
  obtain ⟨hslot, hslot', hnext⟩ := slot_piece h (.kept hx) hb ha
  rw [← hslot] at hslot'
  refine .step ?_ fun k c' hs => ?_
  · refine step_retarget (nodup_origins body) hx ?_ hslot' (fun i _ => rfl) c
    rw [hslot]
    exact getElem?_fold h
  · obtain ⟨y, hy, ⟨-, rfl⟩ | hr⟩ := Context.step_on hs
    · exact Or.inl hnext
    · obtain rfl : t.instr = y := Option.some.inj (hx.symm.trans hy)
      have hland := mem_landings_of_fetch hx (landing?_of_exec hr)
      rcases Nat.lt_or_ge body.length k with hlt | hle
      · exact Or.inr hlt
      · exact Or.inl (starts_of_landing hland hle)

/-- A push that stands for what computes its value. -/
theorem follows_folded {t : Traced} {before after : List Traced} {k : Nat} {v : Value}
    (h : pieces body = before ++ t :: after) (hc : Computes body t.origin k v)
    (hp : pushOf? v = some t.instr) (hb : Tiles body 0 t.origin before)
    (ha : Tiles body k body.length after) (c : Context) : Follows body t.origin c := by
  obtain ⟨hslot, hslot', hnext⟩ := slot_piece h (.folded hc hp) hb ha
  have hv := constant?_of_pushOf? hp
  have hfetch := getElem?_fold h
  rw [retarget_of_not_jump (isJump_of_constant hv)] at hfetch
  refine .reach ?_ (hc.reach c) hc.lt.ne hnext
  simp only [Context.step, hslot, hfetch, exec_constant hv, hslot']

/-- **The output follows the body**, from the start of any piece and from behind
the body. -/
theorem follows {k : Nat} (h : Starts body k ∨ body.length < k) (c : Context) :
    Follows body k c := by
  rcases h with ⟨before, after, h, hb, ha⟩ | hlt
  · cases ha with
    | nil =>
      refine follows_end le_rfl ?_ c
      rw [slot_eq h hb .nil, h, List.append_nil]
    | cons htile hrest =>
      cases htile with
      | kept hx => exact follows_kept h hx hb hrest c
      | folded hc hp => exact follows_folded h hc hp hb hrest c
  · refine follows_end hlt.le ?_ c
    rw [slot, if_neg (by omega)]
    exact (length_pieces_le body).trans hlt.le

/-! ### Runs -/

open Context (Ends)

theorem ends_fold_of_run {k fuel : Nat} {c : Context} {r : EStateM.Result Fault Context Unit}
    (h : Starts body k ∨ body.length < k) (hr : Context.run body fuel k c = some r) :
    Ends (code (fold body)) (slot body k) c r := by
  induction fuel using Nat.strong_induction_on generalizing k c with
  | _ fuel ih =>
    have hends : Ends body k c r := ⟨fuel, hr⟩
    rw [Context.ends_iff]
    cases follows h c with
    | step heq hstarts =>
      rw [heq]
      cases hs : Context.step body k c with
      | on k' c' =>
        obtain ⟨fuel', hlt, hr'⟩ := Context.run_step hs hr
        exact ih fuel' hlt (hstarts k' c' hs) hr'
      | ended c' => rw [Context.ends_iff, hs] at hends; exact hends
      | failed e c' => rw [Context.ends_iff, hs] at hends; exact hends
    | reach heq hreach hne hstarts =>
      rw [heq]
      obtain ⟨fuel', hlt, hr'⟩ := hreach.run_lt hne hr
      exact ih fuel' hlt (Or.inl hstarts) hr'

theorem ends_of_run_fold {k fuel : Nat} {c : Context} {r : EStateM.Result Fault Context Unit}
    (h : Starts body k ∨ body.length < k)
    (hr : Context.run (code (fold body)) fuel (slot body k) c = some r) : Ends body k c r := by
  induction fuel generalizing k c with
  | zero => cases hr
  | succ fuel ih =>
    rw [Context.run] at hr
    cases follows h c with
    | step heq hstarts =>
      rw [Context.ends_iff]
      rw [heq] at hr
      cases hs : Context.step body k c with
      | on k' c' => rw [hs] at hr; exact ih (hstarts k' c' hs) hr
      | ended c' => rw [hs] at hr; exact (Option.some.inj hr).symm
      | failed e c' => rw [hs] at hr; exact (Option.some.inj hr).symm
    | reach heq hreach _ hstarts =>
      rw [heq] at hr
      rw [hreach.ends_iff]
      exact ih (Or.inl hstarts) hr

/-- **Folding keeps the meaning of every body.** Whatever its jumps, operands and
opcodes, and whatever context it starts in: the folded code ends if and only if
the body does, in the same context, and both go through or fail with the same
fault. -/
theorem fold_agrees (body : Code) (c : Context) (r : EStateM.Result Fault Context Unit) :
    Ends (code (fold body)) 0 c r ↔ Ends body 0 c r := by
  have hstart := Or.inl (b := body.length < 0) (starts_zero body)
  constructor
  · rintro ⟨fuel, hr⟩
    rw [← slot_zero body] at hr
    exact ends_of_run_fold hstart hr
  · rintro ⟨fuel, hr⟩
    have h := ends_fold_of_run hstart hr
    rwa [slot_zero] at h

end Peephole
end StackMachine
