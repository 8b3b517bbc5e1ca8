/-
# Runs, step by step

What holds of whole runs follows from what holds of single steps; this file
takes that way once, so that later files speak of steps alone.

* `Run.Ends`: how a run ends, if it does. It ends in one way (`Run.Ends.unique`),
  out of a state it passes through (`Run.Ends.last`);
* `Run.Reach`: the states a run passes through, so that what every step keeps
  holds of all of them (`Run.Reach.keeps`);
* `Run.lockstep`: two runs whose steps keep a relation end alike;
* `Hooks.Serves`: what the hooks may answer, at any time.
-/
import Mathlib
import StackMachine.Run

namespace StackMachine

variable {σ τ : Type}

/-- The cause of a failure, and its place in the stream if it has one. -/
def Failure.site : Failure → Option Nat × Fault
  | fault c => (none, c)
  | trap ip _ source => (some ip, source.root)

/-- From `s` on, the hooks answer every call with nothing or as `ok` allows. -/
def Hooks.Serves (hooks : Hooks σ) (ok : Nat → Artifact → Prop) (s : σ) : Prop :=
  ∃ inv : σ → Prop, inv s ∧ ∀ t, inv t → ∀ f,
    (∀ a, (hooks.compiled t f).1 = some a → ok f a) ∧
      inv (hooks.compiled t f).2 ∧ inv (hooks.notify t f)

namespace Hooks.Serves

variable {hooks : Hooks σ} {ok : Nat → Artifact → Prop} {s : σ}

theorem answer (h : hooks.Serves ok s) {f : Nat} {a : Artifact} {t : σ}
    (ha : hooks.compiled s f = (some a, t)) : ok f a := by
  obtain ⟨inv, h0, hinv⟩ := h
  exact (hinv s h0 f).1 a (by rw [ha])

theorem compiled (h : hooks.Serves ok s) {f : Nat} {x : Option Artifact} {t : σ}
    (ha : hooks.compiled s f = (x, t)) : hooks.Serves ok t := by
  obtain ⟨inv, h0, hinv⟩ := h
  refine ⟨inv, ?_, hinv⟩
  have := (hinv s h0 f).2.1
  rwa [ha] at this

theorem notify (h : hooks.Serves ok s) (f : Nat) : hooks.Serves ok (hooks.notify s f) := by
  obtain ⟨inv, h0, hinv⟩ := h
  exact ⟨inv, (hinv s h0 f).2.2, hinv⟩

theorem mono {ok' : Nat → Artifact → Prop} (h : hooks.Serves ok s) (hle : ∀ f a, ok f a → ok' f a) :
    hooks.Serves ok' s := by
  obtain ⟨inv, h0, hinv⟩ := h
  exact ⟨inv, h0, fun t ht f => ⟨fun a ha => hle f a ((hinv t ht f).1 a ha), (hinv t ht f).2⟩⟩

end Hooks.Serves

namespace Run

variable {env env' : Env} {hooks : Hooks σ} {hooks' : Hooks τ}

/-! ### Endings -/

/-- The run ends like this, after some number of steps. -/
def Ends (env : Env) (hooks : Hooks σ) (p : Progress σ) (e : Ending σ) : Prop :=
  ∃ fuel, go env hooks fuel p = some e

/-- More fuel does not change how a run ends. -/
theorem go_add {p : Progress σ} {e : Ending σ} {fuel : Nat} (k : Nat)
    (h : go env hooks fuel p = some e) : go env hooks (fuel + k) p = some e := by
  induction fuel generalizing p with
  | zero =>
    cases p with
    | running r => simp [go] at h
    | ended x => simpa [go] using h
  | succ fuel ih =>
    cases p with
    | running r =>
      rw [show fuel + 1 + k = fuel + k + 1 by omega]
      exact ih h
    | ended x => simpa [go] using h

theorem Ends.unique {p : Progress σ} {e e' : Ending σ} (h : Ends env hooks p e)
    (h' : Ends env hooks p e') : e = e' := by
  obtain ⟨n, hn⟩ := h
  obtain ⟨k, hk⟩ := h'
  have h1 := go_add k hn
  have h2 := go_add n hk
  rw [Nat.add_comm, h2] at h1
  exact (Option.some.inj h1).symm

/-! ### States on the way -/

/-- The states a run passes through, its own included. -/
inductive Reach (env : Env) (hooks : Hooks σ) (r : Run σ) : Run σ → Prop
  | here : Reach env hooks r r
  | step {t u : Run σ} : Reach env hooks r t → step env hooks t = .running u → Reach env hooks r u

theorem Reach.trans {r t u : Run σ} (h : Reach env hooks r t) (h' : Reach env hooks t u) :
    Reach env hooks r u := by
  induction h' with
  | here => exact h
  | step _ hs ih => exact .step ih hs

/-- What every step keeps holds of every state on the way. -/
theorem Reach.keeps {I : Run σ → Prop} {r t : Run σ}
    (hstep : ∀ t u, I t → Run.step env hooks t = .running u → I u) (h0 : I r)
    (h : Reach env hooks r t) : I t := by
  induction h with
  | here => exact h0
  | step _ hs ih => exact hstep _ _ ih hs

/-- The run goes on, and passes through this state. -/
def Passes (env : Env) (hooks : Hooks σ) (p : Progress σ) (t : Run σ) : Prop :=
  ∃ r, p = .running r ∧ Reach env hooks r t

/-- A run ends out of a state on the way. -/
theorem Ends.last {r : Run σ} {e : Ending σ} (h : Ends env hooks (.running r) e) :
    ∃ t, Reach env hooks r t ∧ step env hooks t = .ended e := by
  obtain ⟨fuel, h⟩ := h
  induction fuel generalizing r with
  | zero => simp [go] at h
  | succ fuel ih =>
    rw [go] at h
    cases hs : step env hooks r with
    | ended x =>
      rw [hs, go] at h
      exact ⟨r, .here, by rw [hs, Option.some.inj h]⟩
    | running u =>
      rw [hs] at h
      obtain ⟨t, ht, he⟩ := ih h
      exact ⟨t, (Reach.step .here hs).trans ht, he⟩

/-! ### Two runs in step -/

/-- Both go on, and are related by `R`, or both have ended, and are related by
`E`. -/
inductive Both (R : Run σ → Run τ → Prop) (E : Ending σ → Ending τ → Prop) :
    Progress σ → Progress τ → Prop
  | running {r : Run σ} {t : Run τ} : R r t → Both R E (.running r) (.running t)
  | ended {e : Ending σ} {f : Ending τ} : E e f → Both R E (.ended e) (.ended f)

theorem Both.flip {R : Run σ → Run τ → Prop} {E : Ending σ → Ending τ → Prop} {p : Progress σ}
    {q : Progress τ} (h : Both R E p q) : Both (fun t r => R r t) (fun f e => E e f) q p := by
  cases h with
  | running h => exact .running h
  | ended h => exact .ended h

section Lockstep

variable {R : Run σ → Run τ → Prop} {E : Ending σ → Ending τ → Prop}
  {p : Progress σ} {q : Progress τ}

theorem go_both (hstep : ∀ r t, R r t → Both R E (step env hooks r) (step env' hooks' t))
    (h : Both R E p q) {fuel : Nat} {e : Ending σ} (he : go env hooks fuel p = some e) :
    ∃ f, go env' hooks' fuel q = some f ∧ E e f := by
  induction fuel generalizing p q with
  | zero =>
    cases h with
    | running h => simp [go] at he
    | @ended x y h =>
      rw [go] at he ⊢
      exact ⟨y, rfl, Option.some.inj he ▸ h⟩
  | succ fuel ih =>
    cases h with
    | running h => exact ih (hstep _ _ h) he
    | @ended x y h =>
      rw [go] at he ⊢
      exact ⟨y, rfl, Option.some.inj he ▸ h⟩

/-- Whatever the first run passes through is related to a state of the other. -/
theorem Passes.related (hstep : ∀ r t, R r t → Both R E (step env hooks r) (step env' hooks' t))
    (h : Both R E p q) {r : Run σ} (hr : Passes env hooks p r) : ∃ t, R r t := by
  obtain ⟨r₀, rfl, hr⟩ := hr
  have h0 : ∃ t, R r₀ t := by
    cases h with
    | running h => exact ⟨_, h⟩
  refine hr.keeps (I := fun r => ∃ t, R r t) ?_ h0
  rintro r u ⟨t, ht⟩ hu
  have hb := hstep r t ht
  rw [hu] at hb
  generalize step env' hooks' t = q' at hb
  cases hb with
  | running h => exact ⟨_, h⟩

/-- **Two runs in step.** If every step keeps `R`, and steps that end the runs
end them as `E` says, then one run ends if and only if the other does, and they
end as `E` says. -/
theorem lockstep (hstep : ∀ r t, R r t → Both R E (step env hooks r) (step env' hooks' t))
    (h : Both R E p q) :
    ((∃ e, Ends env hooks p e) ↔ ∃ f, Ends env' hooks' q f) ∧
      ∀ e f, Ends env hooks p e → Ends env' hooks' q f → E e f := by
  refine ⟨⟨?_, ?_⟩, ?_⟩
  · rintro ⟨e, fuel, he⟩
    obtain ⟨f, hf, -⟩ := go_both hstep h he
    exact ⟨f, fuel, hf⟩
  · rintro ⟨f, fuel, hf⟩
    obtain ⟨e, he, -⟩ := go_both (fun t r hr => (hstep r t hr).flip) h.flip hf
    exact ⟨e, fuel, he⟩
  · rintro e f ⟨fuel, he⟩ hf
    obtain ⟨f', hf', hE⟩ := go_both hstep h he
    rwa [hf.unique ⟨fuel, hf'⟩]

end Lockstep

end Run

end StackMachine
