/-
# What a call does to the stack

The check of heights takes declarations at their word: a call takes as many
values off the stack as its function has arguments, and leaves one if the
function is declared to return one. It does not compare the returns in a body
with its declaration. Where no function that is to return a value can return
without one (`Program.Dependable`), no call ever runs short of operands or takes
those of its caller, however calls are nested and served (`Run.Stands`,
`Run.Stacked`). So an interpreted call that comes back has done to the stack what
its declaration says, if its own returns are as declared (`Run.call_effect`).
Without that it need not have (`Run.undeclared_value`).

* `Run.Stands`: a call is at a place where so many operands of its own will do;
* `Run.Stacked`: the calls inside a call, each with its share of the stack.
-/
import Mathlib
import StackMachine.Proofs.Confinement
import StackMachine.Proofs.Operands

namespace StackMachine

namespace Program

/-- Every function passes the check, which finds no return without a value in
one that is declared to return a value. -/
structure Dependable (p : Program) : Prop where
  checked : ∀ i < p.functions.length, (p.signature i).isOk = true
  owes : ∀ i : Fin p.functions.length, (p.functions.get i).returns = true → ¬ p.Reaches i .retVoid

theorem Dependable.owes_at {p : Program} (hp : p.Dependable) {i : Nat} {f : Function}
    (hf : p.functions[i]? = some f) (hret : f.returns = true) : ¬ p.Reaches i .retVoid := by
  obtain ⟨hlt, rfl⟩ := List.getElem?_eq_some_iff.mp hf
  exact hp.owes ⟨i, hlt⟩ hret

/-- Compiling function `i` gives the artifact, under some settings; if the
function is to return a value, it has an instruction. -/
def Yields (p : Program) (i : Nat) (a : Artifact) : Prop :=
  (∃ s : Settings, p.compile s i = .ok a) ∧
    ∀ f, p.functions[i]? = some f → f.returns = true → f.entry < p.size

end Program

/-- Whether the call is interpreted, and where its part of the stack starts. -/
def Activation.footing : Activation → Bool × Option Nat
  | stream g _ => (true, some g.base)
  | code g _ _ => (false, some g.base)
  | apart _ _ _ => (false, none)

namespace Activation

variable {a : Activation} {g g' : Frame}

@[simp] theorem footing_next (a : Activation) : a.next.footing = a.footing := by
  cases a <;> rfl

@[simp] theorem footing_goto (a : Activation) (k : Nat) : (a.goto k).footing = a.footing := by
  cases a <;> rfl

theorem footing_inFrame (ha : a.frame? = some g) (hg : g'.outline = g.outline) :
    (a.inFrame g').footing = a.footing := by
  have hbase := Frame.base_of_outline hg
  cases a with
  | stream | code =>
    obtain rfl := Option.some.inj ha
    simp only [inFrame, footing, hbase]
  | apart => rfl

theorem footing_of_frame (ha : a.frame? = some g) : a.footing.2 = some g.base := by
  cases a with
  | stream | code => rw [← Option.some.inj ha]; rfl
  | apart => cases ha

end Activation

namespace Run

variable {σ : Type} {env : Env} {hooks : Hooks σ}

/-! ### One call -/

/-- The call runs function `j` and is where `h` operands of its own, or more,
will do; or it has nothing to run, which ends the run if it is interpreted, and
else returns no value. -/
inductive Stands (env : Env) (j : Nat) (f : Function) : Activation → Nat → Prop
  | stream {g : Frame} {ip h₀ h : Nat} (found : env.program.heightAt? j ip = some h₀) (le : h₀ ≤ h) :
      Stands env j f (.stream g ip) h
  | code {g : Frame} {b : CompiledBody} {pc h : Nat}
      (lasts : Heights.Lasts env.program.functions f.returns b.code pc h) :
      Stands env j f (.code g b pc) h
  | apart {b : CompiledBody} {pc h : Nat} {c : Context}
      (lasts : Heights.Lasts env.program.functions f.returns b.code pc c.stack.length)
      (alone : ∀ x ∈ b.code, x.op.isolable = true) : Stands env j f (.apart b pc c) h
  | idle {a : Activation} {h : Nat} (done : a.site? env = none)
      (owes : a.footing.1 = true ∨ f.returns = false) : Stands env j f a h

section Stands

variable {j ip h : Nat} {f : Function} {a : Activation} {x : Instr}

theorem fetch_of_site {b : CompiledBody} {pc : Nat} (h : b.site? pc = some (ip, x)) :
    b.code[pc]? = some x := by
  obtain ⟨y, hy, hpair⟩ := Option.map_eq_some_iff.mp h
  rw [hy, (Prod.mk.inj hpair).2]

/-- What integrated code may do where it has enough operands. -/
theorem allows_code {P : Activation → Nat → Prop} {E : Nat → Nat → Prop} {g : Frame}
    {b : CompiledBody} {pc : Nat} (hx : b.code[pc]? = some x)
    (hen : Heights.Enough env.program.functions E pc h x)
    (hP : ∀ g t k, E t k → P (.code g b t) k) : Allows env P (.code g b pc) h := by
  have hsite : (Activation.code g b pc).site? env = some (b.ips.getD pc 0, x) := by
    simp only [Activation.site?, CompiledBody.site?, hx, Option.map_some]
  cases hen with
  | data pops pushes hd ho he hen hnext =>
    exact .data hsite hd ho he hen fun g g' _ _ => hP g' (pc + 1) _ hnext
  | jump n t hop hn ht hnext =>
    refine .jump hsite hop ?_ (hP g t _ hnext)
    simp only [Activation.target?, hn, Option.getD_some, ht]
  | branch c n t hop hn ht hen hnext hland =>
    refine .branch hsite hop ?_ hen (hP g (pc + 1) _ hnext) (hP g t _ hland)
    simp only [Activation.target?, hn, Option.getD_some, ht]
  | call n k f' hop hn hk hf hen hnext =>
    refine .call hsite hop ?_ hf hen (hP g (pc + 1) _ hnext)
    simp only [Activation.callee?, hn, Option.getD_some, hk]
  | ret hop hen => exact .ret hsite hop hen
  | retVoid hop => exact .retVoid hsite hop
  | halt hop => exact .halt hsite hop

/-- **A call with a frame has the operands it takes.** -/
theorem Stands.allows (hfits : env.program.Fits) (hs : Stands env j f a h) {g : Frame}
    (hframe : a.frame? = some g) (hsite : a.site? env = some (ip, x)) :
    Allows env (Stands env j f) a h := by
  cases hs with
  | stream hh hle =>
    refine (Streamed.allows hfits ⟨_, _, rfl, hh⟩).mono hle ?_
    rintro b k k' ⟨g, ip, rfl, hk⟩ hle
    exact .stream hk hle
  | code hl =>
    have hx := fetch_of_site hsite
    exact allows_code hx (hl.enough_at hx) fun g t k hk => .code hk
  | apart => cases hframe
  | idle hdone => rw [hdone] at hsite; cases hsite

/-- A call that calls has a frame, and the arguments. -/
theorem Stands.calls (hfits : env.program.Fits) (hs : Stands env j f a h)
    (hsite : a.site? env = some (ip, x)) (hop : x.op = .call) :
    ∃ k f', a.callee? env x = some k ∧ env.program.functions[k]? = some f' ∧ f'.arity ≤ h ∧
      Stands env j f a.next (h - f'.arity + if f'.returns then 1 else 0) := by
  cases a with
  | stream g | code g => exact (hs.allows hfits rfl hsite).of_call hsite hop
  | apart b pc c =>
    cases hs with
    | apart _ halone =>
      have hiso := halone x (List.mem_of_getElem? (fetch_of_site hsite))
      rw [hop] at hiso
      cases hiso
    | idle hdone => rw [hdone] at hsite; cases hsite

/-- A call that returns without a value owes none. -/
theorem Stands.void (howes : f.returns = true → ¬ env.program.Reaches j .retVoid)
    (hs : Stands env j f a h) (hsite : a.site? env = some (ip, x)) (hop : x.op = .retVoid) :
    f.returns = false := by
  by_contra hret
  rw [Bool.not_eq_false] at hret
  cases hs with
  | stream hh =>
    obtain ⟨y, hy, hpair⟩ := Option.map_eq_some_iff.mp hsite
    obtain rfl : y = x := (Prod.mk.inj hpair).2
    exact howes hret ⟨_, _, y, hh, hy, hop⟩
  | code hl => exact hl.owes (fetch_of_site hsite) hret hop
  | apart hl => exact hl.owes (fetch_of_site hsite) hret hop
  | idle hdone => rw [hdone] at hsite; cases hsite

/-- What is interpreted is what the check has got to. -/
theorem Stands.reaches (hs : Stands env j f a h) (hstream : a.footing.1 = true)
    (hsite : a.site? env = some (ip, x)) : env.program.Reaches j x.op := by
  cases hs with
  | stream hh =>
    obtain ⟨y, hy, hpair⟩ := Option.map_eq_some_iff.mp hsite
    obtain rfl : y = x := (Prod.mk.inj hpair).2
    exact ⟨_, _, y, hh, hy, rfl⟩
  | code | apart => cases hstream
  | idle hdone => rw [hdone] at hsite; cases hsite

end Stands

/-! ### Calls inside a call -/

/-- An interpreted call of function `i` and the calls inside it, innermost first.
The part of the innermost starts at `b`, and `h` operands of its own will do; it
starts where the arguments of the call were, or higher. -/
inductive Stacked (env : Env) (i : Nat) (f : Function) (base : Nat) :
    List Activation → (b h : Nat) → Prop
  | call {a : Activation} {h : Nat} (stands : Stands env i f a h)
      (footing : a.footing = (true, some base)) : Stacked env i f base [a] base h
  | inner {a u : Activation} {us : List Activation} {b h b' h' ip j : Nat} {x : Instr}
      {f' : Function} (below : Stacked env i f base (u :: us) b h)
      (site : u.site? env = some (ip, x)) (op : x.op = .call) (callee : u.callee? env x = some j)
      (func : env.program.functions[j]? = some f') (stands : Stands env j f' a h')
      (footing : ∀ c, a.footing.2 = some c → c = b') (enough : f'.arity ≤ h)
      (above : b + h ≤ b' + f'.arity) : Stacked env i f base (a :: u :: us) b' h'

namespace Stacked

variable {i base b h : Nat} {f : Function} {a : Activation} {us : List Activation}

theorem exists_cons (hs : Stacked env i f base us b h) : ∃ a us', us = a :: us' := by
  cases hs <;> exact ⟨_, _, rfl⟩

theorem base_le (hs : Stacked env i f base us b h) : base ≤ b := by
  induction hs with
  | call => exact le_rfl
  | inner _ _ _ _ _ _ _ _ _ ih => omega

/-- The call itself has a frame. -/
theorem frames_pos (hs : Stacked env i f base us b h) :
    0 < (us.filterMap Activation.frame?).length := by
  induction hs with
  | @call a h _ hfoot =>
    cases a with
    | stream g ip => exact Nat.one_pos
    | code | apart => cases hfoot
  | @inner a _ _ _ _ _ _ _ _ _ _ _ _ _ _ _ _ _ _ _ ih =>
    exact ih.trans_le ((List.sublist_cons_self ..).filterMap _).length_le

/-- The innermost call, and what may stand in its place. -/
theorem top (hs : Stacked env i f base (a :: us) b h) (hf : env.program.functions[i]? = some f) :
    ∃ j f', env.program.functions[j]? = some f' ∧ Stands env j f' a h ∧
      (∀ c, a.footing.2 = some c → c = b) ∧
      ∀ a' h', Stands env j f' a' h' → a'.footing = a.footing →
        Stacked env i f base (a' :: us) b h' := by
  cases hs with
  | call hstands hfoot =>
    refine ⟨i, f, hf, hstands, fun c hc => ?_, fun a' h' hs' heq => .call hs' (heq.trans hfoot)⟩
    rw [hfoot] at hc
    exact (Option.some.inj hc).symm
  | inner hbelow hsite hop hcallee hfunc hstands hfoot hen habove =>
    refine ⟨_, _, hfunc, hstands, hfoot, fun a' h' hs' heq => ?_⟩
    exact .inner hbelow hsite hop hcallee hfunc hs' (by rwa [heq]) hen habove

/-- The innermost call makes a call. -/
theorem push (hfits : env.program.Fits) (hf : env.program.functions[i]? = some f)
    (hs : Stacked env i f base (a :: us) b h) {ip k : Nat} {x : Instr} {f' : Function}
    (hsite : a.site? env = some (ip, x)) (hop : x.op = .call) (hk : a.callee? env x = some k)
    (hf' : env.program.functions[k]? = some f') {a' : Activation} {b' : Nat}
    (hs' : Stands env k f' a' 0) (hfoot : ∀ c, a'.footing.2 = some c → c = b')
    (habove : b + h ≤ b' + f'.arity) :
    f'.arity ≤ h ∧ Stacked env i f base (a' :: a :: us) b' 0 := by
  obtain ⟨j, g, -, hstands, -, -⟩ := hs.top hf
  obtain ⟨k', g', hk', hg', hen, -⟩ := hstands.calls hfits hsite hop
  obtain rfl := Option.some.inj (hk.symm.trans hk')
  obtain rfl := Option.some.inj (hf'.symm.trans hg')
  exact ⟨hen, .inner hs hsite hop hk hf' hs' hfoot hen habove⟩

/-- The innermost call is over, and its caller counts on what is declared. -/
theorem back (hfits : env.program.Fits) (hf : env.program.functions[i]? = some f) {u : Activation}
    (hs : Stacked env i f base (a :: u :: us) b h) :
    ∃ j f', env.program.functions[j]? = some f' ∧ Stands env j f' a h ∧
      ∃ b' h', Stacked env i f base (u.next :: us) b' h' ∧
        b' + h' ≤ b + if f'.returns then 1 else 0 := by
  cases hs with
  | @inner _ _ _ b₀ h₀ _ _ ip k x f' hbelow hsite hop hcallee hfunc hstands hfoot hen habove =>
    obtain ⟨j, g, -, hu, -, hmove⟩ := hbelow.top hf
    obtain ⟨k', g', hk', hg', -, hnext⟩ := hu.calls hfits hsite hop
    obtain rfl := Option.some.inj (hcallee.symm.trans hk')
    obtain rfl := Option.some.inj (hfunc.symm.trans hg')
    exact ⟨k, f', hfunc, hstands, b₀, _, hmove _ _ hnext (Activation.footing_next u), by omega⟩

end Stacked

/-! ### Steps -/

theorem suffix_drop {S st : List Value} {k : Nat} (h : S <:+ st) (hle : S.length + k ≤ st.length) :
    S <:+ st.drop k := by
  refine List.suffix_of_suffix_length_le h (List.drop_suffix k st) ?_
  rw [List.length_drop]
  omega

/-- A call of function `i` is under way over the calls of `rest` and the values
of `S`, and there are as many operands as the calls inside it count on. -/
def Ongoing (env : Env) (i : Nat) (f : Function) (S : List Value) (rest as : List Activation)
    (stack : List Value) : Prop :=
  ∃ us b h, as = us ++ rest ∧ Stacked env i f S.length us b h ∧ b + h ≤ stack.length ∧ S <:+ stack

/-- The call is over: its caller goes on, and the stack is as declared. -/
def Finished (f : Function) (S : List Value) (rest as : List Activation) (stack : List Value) : Prop :=
  ∃ a rest' vs, rest = a :: rest' ∧ as = a.next :: rest' ∧ stack = vs ++ S ∧
    vs.length = if f.returns then 1 else 0

section Step

variable {i b h : Nat} {f : Function} {S st : List Value} {a c : Activation}
  {us rest tail : List Activation}

/-- The innermost call returns: either to a call inside, or the call itself is
over. -/
theorem Stacked.leave (hfits : env.program.Fits) (hf : env.program.functions[i]? = some f)
    (hs : Stacked env i f S.length (a :: us) b h) (htail : us ++ rest = c :: tail)
    (hsuffix : S <:+ st)
    (hgives : ∀ j f', env.program.functions[j]? = some f' → Stands env j f' a h →
      b + (if f'.returns then 1 else 0) ≤ st.length)
    (hlast : b = S.length → Stands env i f a h → a.footing.1 = true →
      ∃ vs, st = vs ++ S ∧ vs.length = if f.returns then 1 else 0) :
    Ongoing env i f S rest (c.next :: tail) st ∨ Finished f S rest (c.next :: tail) st := by
  cases us with
  | nil =>
    cases hs with
    | call hstands hfoot =>
      obtain ⟨vs, hst, hlen⟩ := hlast rfl hstands (by rw [hfoot])
      exact Or.inr ⟨c, tail, vs, htail, rfl, hst, hlen⟩
  | cons u us =>
    obtain ⟨rfl, rfl⟩ := List.cons.inj htail
    obtain ⟨j, f', hf', hstands, b', h', hs', hle⟩ := hs.back hfits hf
    exact Or.inl ⟨u.next :: us, b', h', rfl, hs', hle.trans (hgives j f' hf' hstands), hsuffix⟩

/-- What a new call counts on when it is interpreted. -/
theorem stands_stream (hp : env.program.Dependable) {k : Nat} {f' : Function}
    (hf' : env.program.functions[k]? = some f') (g : Frame) :
    Stands env k f' (.stream g f'.entry) 0 := by
  obtain ⟨hk, -⟩ := List.getElem?_eq_some_iff.mp hf'
  obtain ⟨code, heights, peak, hv⟩ := Program.verified_of_signature (hp.checked k hk) hf'
  by_cases hlt : f'.entry < env.program.size
  · exact .stream (hv.heightAt?_entry hlt) le_rfl
  · refine .idle ?_ (Or.inl rfl)
    simp only [Activation.site?, List.getElem?_eq_none (not_lt.mp hlt), Option.map_none]

/-- What compiled code counts on when it starts. -/
theorem lasts_of_yields (hp : env.program.Dependable) {k : Nat} {art : Artifact}
    (ha : env.program.Yields k art) :
    ∃ f', env.program.functions[k]? = some f' ∧ art.body.func = k ∧
      (art.body.code = [] ∧ f'.returns = false ∨
        Heights.Lasts env.program.functions f'.returns art.body.code 0 0) ∧
      ∀ body arity locals, art = .isolated body arity locals →
        arity = f'.arity ∧ ∀ x ∈ body.code, x.op.isolable = true := by
  obtain ⟨⟨s, hc⟩, hsome⟩ := ha
  obtain ⟨f', hf', hfunc, hcode, hiso⟩ := Program.compile_lasts hc fun g hg => hp.owes_at hg
  refine ⟨f', hf', hfunc, hcode.imp_left fun ⟨hnil, hle⟩ => ⟨hnil, ?_⟩, hiso⟩
  by_contra hret
  have := hsome f' hf' (by simpa using hret)
  omega

theorem site?_of_nil {body : CompiledBody} (h : body.code = []) (pc : Nat) :
    body.site? pc = none := by
  simp only [CompiledBody.site?, h, List.getElem?_nil, Option.map_none]

theorem stands_code (hp : env.program.Dependable) {k : Nat} {body : CompiledBody}
    (ha : env.program.Yields k (.integrated body)) (g : Frame) :
    ∃ f', env.program.functions[k]? = some f' ∧ body.func = k ∧
      Stands env k f' (.code g body 0) 0 := by
  obtain ⟨f', hf', hfunc, ⟨hnil, hret⟩ | hl, -⟩ := lasts_of_yields hp ha
  · exact ⟨f', hf', hfunc, .idle (site?_of_nil hnil 0) (Or.inr hret)⟩
  · exact ⟨f', hf', hfunc, .code hl⟩

theorem stands_apart (hp : env.program.Dependable) {k arity locals : Nat} {body : CompiledBody}
    (ha : env.program.Yields k (.isolated body arity locals)) {c : Context} (hc : c.stack = []) :
    ∃ f', env.program.functions[k]? = some f' ∧ arity = f'.arity ∧
      Stands env k f' (.apart body 0 c) 0 := by
  obtain ⟨f', hf', -, hcode, hiso⟩ := lasts_of_yields hp ha
  obtain ⟨harity, halone⟩ := hiso body arity locals rfl
  refine ⟨f', hf', harity, ?_⟩
  rcases hcode with ⟨hnil, hret⟩ | hl
  · exact .idle (site?_of_nil hnil 0) (Or.inr hret)
  · exact .apart (by rw [hc]; exact hl) halone

/-- A call is made, and takes its arguments. -/
theorem Stacked.enter (hfits : env.program.Fits) (hf : env.program.functions[i]? = some f)
    (hs : Stacked env i f S.length (a :: us) b h) (hlen : b + h ≤ st.length) (hsuffix : S <:+ st)
    {ip k : Nat} {x : Instr} {f' : Function} (hsite : a.site? env = some (ip, x))
    (hop : x.op = .call) (hk : a.callee? env x = some k)
    (hf' : env.program.functions[k]? = some f') {a' : Activation} (hs' : Stands env k f' a' 0)
    (hfoot : ∀ c, a'.footing.2 = some c → c = (st.drop f'.arity).length)
    (hen : f'.arity ≤ st.length) :
    Ongoing env i f S rest (a' :: a :: (us ++ rest)) (st.drop f'.arity) := by
  have hdrop : (st.drop f'.arity).length = st.length - f'.arity := List.length_drop
  obtain ⟨hle, hs''⟩ := hs.push hfits hf hsite hop hk hf' hs' hfoot (by omega)
  have hbase := hs.base_le
  exact ⟨a' :: a :: us, _, 0, rfl, hs'', le_rfl, suffix_drop hsuffix (by omega)⟩

/-- The part of the stack where a call starts, as its frame says. -/
theorem Stacked.base_eq (hs : Stacked env i f S.length (a :: us) b h)
    (hf : env.program.functions[i]? = some f) {g : Frame} (hg : a.frame? = some g) : g.base = b := by
  obtain ⟨-, -, -, -, hfoot, -⟩ := hs.top hf
  exact hfoot _ (Activation.footing_of_frame hg)

/-- What is left of the stack when a value is taken. -/
theorem Stacked.pop {m : Machine} {v : Value} (hs : Stacked env i f S.length us b h)
    (hlen : b + h ≤ m.stack.length) (hsuffix : S <:+ m.stack) (hen : 1 ≤ h)
    (hst : m.stack = v :: st) :
    b + (h - 1) ≤ st.length ∧ S <:+ st := by
  have hbase := hs.base_le
  have htaken := suffix_drop (k := 1) hsuffix (by omega)
  rw [hst] at hlen htaken
  rw [List.length_cons] at hlen
  exact ⟨by omega, htaken⟩

/-- What a return leaves of the stack: all below the call, and no more. -/
theorem cut (hsuffix : S <:+ st) (hS : S.length ≤ b) (hb : b ≤ st.length) :
    (st.drop (st.length - b)).length = b ∧ S <:+ st.drop (st.length - b) ∧
      (b = S.length → st.drop (st.length - b) = S) := by
  refine ⟨?_, suffix_drop hsuffix (by omega), fun heq => ?_⟩
  · rw [List.length_drop]
    omega
  · rw [heq]
    exact (List.suffix_iff_eq_drop.mp hsuffix).symm

/-! A call with a frame, at its instruction -/

section Framed

variable {m n : Machine} {ip : Nat} {x : Instr} {g : Frame} (hfits : env.program.Fits)
  (hf : env.program.functions[i]? = some f) (hs : Stacked env i f S.length (a :: us) b h)
  (hlen : b + h ≤ m.stack.length) (hsuffix : S <:+ m.stack) (hg : a.frame? = some g)
  (hsite : a.site? env = some (ip, x))

include hfits hf hs hlen hsuffix hg hsite

theorem Stacked.data (hd : x.op.movesData = true)
    (hexec : Machine.exec env.settings x m = .ok () n) {g' : Frame} (hout : g'.outline = g.outline) :
    Ongoing env i f S rest ((a.inFrame g').next :: (us ++ rest)) n.stack := by
  have hbase := hs.base_le
  obtain ⟨j, f', -, hstands, -, hput⟩ := hs.top hf
  obtain ⟨pops, pushes, ho, he, hen, hnext⟩ := (hstands.allows hfits hg hsite).of_data hsite hd
  have heff := Machine.exec_effect (s := env.settings) hd ho he m (by omega)
  unfold Gives at heff
  rw [hexec] at heff
  obtain ⟨hle, hdrop⟩ := heff
  have hcount := congrArg List.length hdrop
  rw [List.length_drop, List.length_drop] at hcount
  have hkept : S <:+ n.stack.drop pushes := by
    rw [hdrop]
    exact suffix_drop hsuffix (by omega)
  have hfoot : (a.inFrame g').next.footing = a.footing := by
    rw [Activation.footing_next, Activation.footing_inFrame hg hout]
  exact ⟨_ :: us, b, _, rfl, hput _ _ (hnext g g' hg hout) hfoot, by omega,
    hkept.trans (List.drop_suffix ..)⟩

theorem Stacked.jump {w : Branch} {t : Nat} (hop : x.op = .jump w) (ht : a.target? env x = some t)
    (htaken : w = .always ∧ st = m.stack ∨ ∃ b v, w = .on b ∧ m.stack = v :: st ∧ v.truth = b) :
    Ongoing env i f S rest (a.goto t :: (us ++ rest)) st := by
  obtain ⟨j, f', -, hstands, -, hput⟩ := hs.top hf
  have hallows := hstands.allows hfits hg hsite
  have hfoot : (a.goto t).footing = a.footing := Activation.footing_goto a t
  rcases htaken with ⟨rfl, rfl⟩ | ⟨truth, v, rfl, hst, -⟩
  · obtain ⟨t', ht', hnext⟩ := hallows.of_jump hsite hop
    obtain rfl := Option.some.inj (ht.symm.trans ht')
    exact ⟨_ :: us, b, h, rfl, hput _ _ hnext hfoot, hlen, hsuffix⟩
  · obtain ⟨hen, -, t', ht', hland⟩ := hallows.of_branch hsite hop
    obtain rfl := Option.some.inj (ht.symm.trans ht')
    obtain ⟨hlen', hsuffix'⟩ := hs.pop hlen hsuffix hen hst
    exact ⟨_ :: us, b, h - 1, rfl, hput _ _ hland hfoot, hlen', hsuffix'⟩

theorem Stacked.pass {truth : Bool} {v : Value} (hop : x.op = .jump (.on truth))
    (hst : m.stack = v :: st) :
    Ongoing env i f S rest (a.next :: (us ++ rest)) st := by
  obtain ⟨j, f', -, hstands, -, hput⟩ := hs.top hf
  obtain ⟨hen, hnext, -⟩ := (hstands.allows hfits hg hsite).of_branch hsite hop
  obtain ⟨hlen', hsuffix'⟩ := hs.pop hlen hsuffix hen hst
  exact ⟨_ :: us, b, h - 1, rfl, hput _ _ hnext (Activation.footing_next a), hlen', hsuffix'⟩

theorem Stacked.ret (hdecl : f.returns = false → ¬ env.program.Reaches i .ret)
    (htail : us ++ rest = c :: tail) (hop : x.op = .ret) {v : Value} (hst : m.stack = v :: st) :
    Ongoing env i f S rest (c.next :: tail) (v :: st.drop (st.length - g.base)) ∨
      Finished f S rest (c.next :: tail) (v :: st.drop (st.length - g.base)) := by
  obtain ⟨j, f', -, hstands, -, -⟩ := hs.top hf
  have hen := (hstands.allows hfits hg hsite).of_ret hsite hop
  obtain ⟨hlen', hsuffix'⟩ := hs.pop hlen hsuffix hen hst
  obtain ⟨hcut, hkept, hexact⟩ := cut hsuffix' hs.base_le (by omega)
  rw [hs.base_eq hf hg]
  refine hs.leave hfits hf htail (hkept.trans (List.suffix_cons ..)) (fun j f' _ _ => ?_)
    fun hb hstands hstream => ?_
  · rw [List.length_cons, hcut]
    split_ifs <;> omega
  · have hret : f.returns = true := by
      by_contra hret
      exact hdecl (by simpa using hret) (hop ▸ hstands.reaches hstream hsite)
    exact ⟨[v], by rw [hexact hb]; rfl, by rw [hret]; rfl⟩

theorem Stacked.retVoid (hp : env.program.Dependable) (htail : us ++ rest = c :: tail)
    (hop : x.op = .retVoid) :
    Ongoing env i f S rest (c.next :: tail) (m.stack.drop (m.stack.length - g.base)) ∨
      Finished f S rest (c.next :: tail) (m.stack.drop (m.stack.length - g.base)) := by
  obtain ⟨hcut, hkept, hexact⟩ := cut hsuffix hs.base_le (by omega)
  rw [hs.base_eq hf hg]
  refine hs.leave hfits hf htail hkept (fun j f' hf' hstands => ?_) fun hb hstands _ => ?_
  · have hvoid := hstands.void (hp.owes_at hf') hsite hop
    rw [hcut, hvoid]
    exact le_rfl
  · have hvoid := hstands.void (hp.owes_at hf) hsite hop
    exact ⟨[], hexact hb, by rw [hvoid]; rfl⟩

end Framed

/-! Compiled code at its end, and isolated code -/

section Compiled

variable {m : Machine} {g : Frame} {body : CompiledBody} {pc pc' : Nat} {d d' : Context}

/-- Code that runs off its end owes no value. -/
theorem Stacked.off (hfits : env.program.Fits) (hf : env.program.functions[i]? = some f)
    (hs : Stacked env i f S.length (.code g body pc :: us) b h) (htail : us ++ rest = c :: tail)
    (hlen : b + h ≤ m.stack.length) (hsuffix : S <:+ m.stack) (hdone : body.code[pc]? = none) :
    Ongoing env i f S rest (c.next :: tail) (m.stack.drop (m.stack.length - g.base)) ∨
      Finished f S rest (c.next :: tail) (m.stack.drop (m.stack.length - g.base)) := by
  obtain ⟨hcut, hkept, -⟩ := cut hsuffix hs.base_le (by omega)
  rw [hs.base_eq hf rfl]
  refine hs.leave hfits hf htail hkept (fun j f' hf' hstands => ?_) fun _ _ hstream => by cases hstream
  cases hstands with
  | code hl =>
    obtain ⟨x, hx, -⟩ := hl.enough
    rw [hdone] at hx
    cases hx
  | idle _ howes =>
    have hvoid := howes.resolve_left Bool.false_ne_true
    rw [hcut, hvoid]
    exact le_rfl

theorem Stacked.on (hf : env.program.functions[i]? = some f)
    (hs : Stacked env i f S.length (.apart body pc d :: us) b h)
    (hlen : b + h ≤ m.stack.length) (hsuffix : S <:+ m.stack)
    (hstep : Context.step body.code pc d = .on pc' d') :
    Ongoing env i f S rest (.apart body pc' d' :: (us ++ rest)) m.stack := by
  obtain ⟨j, f', -, hstands, -, hput⟩ := hs.top hf
  refine ⟨_ :: us, b, h, rfl, hput _ _ ?_ rfl, hlen, hsuffix⟩
  cases hstands with
  | apart hl halone => exact .apart (hl.step hstep) halone
  | idle hdone =>
    obtain ⟨x, hx, -⟩ := Context.step_on hstep
    simp only [Activation.site?, CompiledBody.site?, hx, Option.map_some] at hdone
    cases hdone

theorem Stacked.ended (hfits : env.program.Fits) (hf : env.program.functions[i]? = some f)
    (hs : Stacked env i f S.length (.apart body pc d :: us) b h) (htail : us ++ rest = c :: tail)
    (hlen : b + h ≤ m.stack.length) (hsuffix : S <:+ m.stack)
    (hstep : Context.step body.code pc d = .ended d') :
    Ongoing env i f S rest (c.next :: tail) (d'.result.toList ++ m.stack) ∨
      Finished f S rest (c.next :: tail) (d'.result.toList ++ m.stack) := by
  refine hs.leave hfits hf htail (hsuffix.trans (List.suffix_append ..)) (fun j f' _ hstands => ?_)
    fun _ _ hstream => by cases hstream
  rw [List.length_append]
  cases hret : f'.returns with
  | false => exact Nat.le_add_left_of_le (by simp only [Bool.false_eq_true, ↓reduceIte]; omega)
  | true =>
    cases hstands with
    | apart hl =>
      rw [hret] at hl
      obtain ⟨v, hv⟩ := hl.ended hstep
      simp only [hv, ↓reduceIte, Option.toList_some, List.length_singleton]
      omega
    | idle _ howes =>
      rcases howes with hstream | hvoid
      · cases hstream
      · rw [hret] at hvoid
        cases hvoid

end Compiled

/-- **Each step inside a call keeps what its calls count on**, or ends the call
as declared. -/
theorem Ongoing.step {m n : Machine} {s s' : σ} {as as' : List Activation}
    (hfits : env.program.Fits) (hp : env.program.Dependable)
    (hf : env.program.functions[i]? = some f)
    (hdecl : f.returns = false → ¬ env.program.Reaches i .ret)
    (hserves : hooks.Serves env.program.Yields s) (hin : Ongoing env i f S rest as m.stack)
    (hact : Act env hooks m s as n s' as') :
    Ongoing env i f S rest as' n.stack ∨ Finished f S rest as' n.stack := by
  obtain ⟨us, b, h, rfl, hs, hlen, hsuffix⟩ := hin
  obtain ⟨a, us, rfl⟩ := hs.exists_cons
  rw [List.cons_append] at hact
  generalize htail : us ++ rest = tail at hact
  cases hact with
  | data hg hsite hd hexec hout =>
    exact Or.inl (htail ▸ hs.data hfits hf hlen hsuffix hg hsite hd hexec hout)
  | jump hg hsite hop ht htaken =>
    exact Or.inl (htail ▸ hs.jump hfits hf hlen hsuffix hg hsite hop ht htaken)
  | pass hg hsite hop hst => exact Or.inl (htail ▸ hs.pass hfits hf hlen hsuffix hg hsite hop hst)
  | call hsite hop hk _ hf₁ hen =>
    exact Or.inl (htail ▸ hs.enter hfits hf hlen hsuffix hsite hop hk hf₁ (stands_stream hp hf₁ _)
      (fun c hc => (Option.some.inj hc).symm) hen)
  | enter hsite hop hk ha hf₁ hen =>
    obtain ⟨f₂, hf₂, rfl, hs'⟩ := stands_code hp (hserves.answer ha) _
    obtain rfl := Option.some.inj (hf₁.symm.trans hf₂)
    exact Or.inl (htail ▸ hs.enter hfits hf hlen hsuffix hsite hop hk hf₁ hs'
      (fun c hc => (Option.some.inj hc).symm) hen)
  | isolate hsite hop hk ha hen hfresh =>
    obtain ⟨f₁, hf₁, rfl, hs'⟩ := stands_apart hp (hserves.answer ha) hfresh
    exact Or.inl (htail ▸ hs.enter hfits hf hlen hsuffix hsite hop hk hf₁ hs'
      (fun c hc => by cases hc) hen)
  | ret hg _ hsite hop hst => exact hs.ret hfits hf hlen hsuffix hg hsite hdecl htail hop hst
  | retVoid hg _ hsite hop => exact hs.retVoid hfits hf hlen hsuffix hg hsite hp htail hop
  | off _ hdone => exact hs.off hfits hf htail hlen hsuffix hdone
  | on hstep => exact Or.inl (htail ▸ hs.on hf hlen hsuffix hstep)
  | ended hstep => exact hs.ended hfits hf htail hlen hsuffix hstep

end Step

/-! ### Runs -/

/-- What the hooks may answer is the same throughout a run. -/
theorem Reach.serves {ok : Nat → Artifact → Prop} {s : σ} {output : Array String} {r : Run σ}
    (h : Reach env hooks (boot env s output) r) (hs : hooks.Serves ok s) : hooks.Serves ok r.hooks := by
  obtain ⟨f, hboot⟩ := under_boot env s output
  obtain ⟨-, -, hserves⟩ := hboot.keeps (I := fun t _ => hooks.Serves ok t.hooks)
    (fun t u m as as' _ _ hs hact _ => hact.serves hs) hs h
  exact hserves

/-- **A call that comes back has done what its declaration says.** In a program
whose functions all pass the check, and of which none that is declared to return
a value can return without one: when an interpreted call of a function whose own
returns are as declared is back at its caller, the stack is that from before
without the arguments, and with one value more if the function is declared to
return one. The calls inside it may be interpreted or served by compiled code,
under any settings. -/
theorem call_effect {i : Nat} {f : Function} {s : σ} {output : Array String} {r u t : Run σ}
    (hfits : env.program.Fits) (hp : env.program.Dependable)
    (hf : env.program.functions[i]? = some f)
    (hdecl : f.returns = false → ¬ env.program.Reaches i .ret)
    (hserves : hooks.Serves env.program.Yields s) (hr : Reach env hooks (boot env s output) r)
    (hb : Begins env hooks i r u) (ht : During env hooks r.machine.frames.length u t)
    (hback : t.machine.frames.length = r.machine.frames.length) :
    ∃ vs, t.machine.stack = vs ++ r.machine.stack.drop f.arity ∧
      vs.length = if f.returns then 1 else 0 := by
  obtain ⟨as, hunder⟩ := under_of_reach hr
  obtain ⟨f', a, rest, ret, rfl, -, hf', -, hstack, hu⟩ := hb.called hunder
  obtain rfl : f = f' := Option.some.inj (hf.symm.trans hf')
  have hframes := hunder.nested.frames
  obtain ⟨m₀, as₀, -, hact₀, -⟩ := hunder.step hb.step
  have hstands := stands_stream hp hf (f.newFrame i ret r.machine.stack)
  have hinside : Ongoing env i f (r.machine.stack.drop f.arity) (a :: rest)
      (.stream (f.newFrame i ret r.machine.stack) f.entry :: a :: rest) u.machine.stack :=
    ⟨[_], _, 0, rfl, .call hstands rfl, by rw [hstack]; rfl, by rw [hstack]⟩
  obtain ⟨as', hunder', hi⟩ := ht.keeps
    (I := fun t as => hooks.Serves env.program.Yields t.hooks ∧
      (Ongoing env i f (r.machine.stack.drop f.arity) (a :: rest) as t.machine.stack ∨
        t.machine.frames.length = r.machine.frames.length ∧
          Finished f (r.machine.stack.drop f.arity) (a :: rest) as t.machine.stack))
    (fun t u m as as' hm hdeep _ hi hact hu' => by
      obtain ⟨hserves, hin | ⟨hlen, -⟩⟩ := hi
      · refine ⟨hact.serves hserves, ?_⟩
        have hin : Ongoing env i f (r.machine.stack.drop f.arity) (a :: rest) as m.stack := by
          rcases hm with rfl | rfl
          · exact hin
          · rwa [Machine.stack_maybeCollect]
        refine (hin.step hfits hp hf hdecl hserves hact).imp_right fun hover => ⟨?_, hover⟩
        obtain ⟨b, rest', vs, hcons, rfl, -, -⟩ := hover
        rw [← hu'.nested.frames, length_frames_next, ← hcons, hframes]
      · omega)
    hu ⟨hact₀.serves (hr.serves hserves), Or.inl hinside⟩
  rcases hi.2 with ⟨us, b, h, rfl, hs, -, -⟩ | ⟨-, b, rest', vs, -, -, hst, hlen⟩
  · -- as long as the call is under way, it has a frame
    have hpos := hs.frames_pos
    rw [← hunder'.nested.frames, List.filterMap_append, List.length_append, hframes] at hback
    omega
  · exact ⟨vs, hst, hlen⟩

/-- A function adds to its argument what another returns. -/
def addingTwo : Env where
  program :=
    { code :=
        [⟨.pushInt, some 7⟩, ⟨.pushInt, some 20⟩, ⟨.call, some 0⟩, ⟨.halt, none⟩,
         ⟨.loadLocal, some 0⟩, ⟨.call, some 1⟩, ⟨.binary .add, none⟩, ⟨.ret, none⟩,
         ⟨.pushInt, some 1⟩, ⟨.pushInt, some 1⟩, ⟨.binary .add, none⟩, ⟨.ret, none⟩]
      functions := [⟨"addTwo", 4, 1, 1, true⟩, ⟨"two", 8, 0, 0, true⟩] }

/-- The second function compiled, its sum folded. -/
def two : Artifact := .integrated ⟨1, [⟨.pushInt, some 2⟩, ⟨.ret, none⟩], [8, 11]⟩

def servingTwo : Hooks Unit where
  compiled s k := (if k = 1 then some two else none, s)
  notify s _ := s

theorem serves_servingTwo : servingTwo.Serves addingTwo.program.Yields () := by
  refine ⟨fun _ => True, trivial, fun t _ k => ⟨fun a ha => ?_, trivial, trivial⟩⟩
  simp only [servingTwo, Option.ite_none_right_eq_some] at ha
  obtain ⟨rfl, heq⟩ := ha
  obtain rfl := Option.some.inj heq
  have hcompile : (addingTwo.program.compile { form := .integrated, simplify := true } 1).toOption =
      some two := by decide +kernel
  refine ⟨⟨{ form := .integrated, simplify := true }, ?_⟩, ?_⟩
  · cases hc : addingTwo.program.compile { form := .integrated, simplify := true } 1 with
    | error e => rw [hc] at hcompile; cases hcompile
    | ok b =>
      rw [hc] at hcompile
      exact congrArg Except.ok (Option.some.inj hcompile)
  · intro f hf _
    cases hf
    decide

theorem call_effect_addingTwo :
    addingTwo.program.Dependable ∧ ∃ r u t : Run Unit,
      Reach addingTwo servingTwo (boot addingTwo () #[]) r ∧ Begins addingTwo servingTwo 0 r u ∧
      During addingTwo servingTwo r.machine.frames.length u t ∧
      t.machine.frames.length = r.machine.frames.length ∧
      r.machine.stack = [.int 20, .int 7] ∧ t.machine.compiledCalls = 1 ∧
      ∃ vs, t.machine.stack = vs ++ [.int 7] ∧ vs.length = 1 := by
  have hp : addingTwo.program.Dependable := ⟨by decide +kernel, by decide +kernel⟩
  have hstates : ∃ r u t : Run Unit,
      Reach addingTwo servingTwo (boot addingTwo () #[]) r ∧ Begins addingTwo servingTwo 0 r u ∧
      During addingTwo servingTwo r.machine.frames.length u t ∧
      t.machine.frames.length = r.machine.frames.length ∧
      r.machine.stack = [.int 20, .int 7] ∧ t.machine.compiledCalls = 1 :=
    ⟨_, _, _, .step (.step .here rfl) rfl, ⟨⟨2, ⟨.call, some 0⟩, rfl, rfl, rfl⟩, rfl, rfl⟩,
      .step (.step (.step (.step (.step (.step .here (by decide) rfl) (by decide) rfl) (by decide) rfl)
        (by decide) rfl) (by decide) rfl) (by decide) rfl, rfl, rfl, rfl⟩
  obtain ⟨r, u, t, hr, hb, ht, hback, hstack, hcount⟩ := hstates
  have heffect := call_effect (by decide) hp rfl (by decide) serves_servingTwo hr hb ht hback
  rw [hstack] at heffect
  exact ⟨hp, r, u, t, hr, hb, ht, hback, hstack, hcount, heffect⟩

/-- A function that returns a value, and is declared not to. -/
def undeclared : Env where
  program :=
    { code := [⟨.call, some 0⟩, ⟨.halt, none⟩, ⟨.pushInt, some 7⟩, ⟨.ret, none⟩]
      functions := [⟨"f", 2, 0, 0, false⟩] }

/-- It passes the check, and a call of it leaves its value on the stack. -/
theorem undeclared_value :
    (∀ i < undeclared.program.functions.length, (undeclared.program.signature i).isOk = true) ∧
    (undeclared.program.functions[0]?.map Function.returns) = some false ∧
    ∃ u t : Run Unit,
      Begins undeclared Hooks.none 0 (boot undeclared () #[]) u ∧
      During undeclared Hooks.none (boot undeclared () #[]).machine.frames.length u t ∧
      t.machine.frames.length = (boot undeclared () #[]).machine.frames.length ∧
      (boot undeclared () #[]).machine.stack = [] ∧ t.machine.stack = [.int 7] :=
  ⟨by decide +kernel, rfl, _, _, ⟨⟨0, ⟨.call, some 0⟩, rfl, rfl, rfl⟩, rfl, rfl⟩,
    .step (.step .here (by decide) rfl) (by decide) rfl, rfl, rfl, rfl⟩

end Run
end StackMachine
