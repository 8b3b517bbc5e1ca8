/-
# What reads as a program is its form, but for flags

A program has one binary form. Bytes that read as the program are this form, with
anything after it, except that a flag may be set by any byte but zero where the form
has a one. So what is read takes up as many bytes as the form, whatever its counts
claim.

* `flags`: which bytes of a program's form are flags;
* `Spells`: bytes that are a form but for the way its flags are set;
* `Reader.Settles`: what a reader takes off the front spells what is written for the
  value it gives, which passes from the parts of the form to the whole;
* `decode_normalises`: reading and writing again.
-/
import Mathlib
import StackMachine.Proofs.Encoding

namespace StackMachine

/-- Writing a word that was read gives the bytes back. -/
theorem Bytes.ofWord_word {xs : Bytes} (h : xs.length = 8) : ofWord (word xs) = xs := by
  have hlt : ofLe xs < capacity 8 := h ▸ ofLe_lt xs
  have hnat : (UInt64.ofNat (ofLe xs)).toNat = ofLe xs := UInt64.toNat_ofNat_of_lt' hlt
  rw [ofWord, word, UInt64.toUInt64_toInt64, hnat, ← h, le_ofLe]

namespace Stored

/-! ### Flags -/

/-- Bytes that are no flags. -/
def plain (n : Nat) : List Bool := List.replicate n false

/-- The name and three numbers of a function, then whether it returns a value. -/
def functionFlags (f : Function) : List Bool :=
  plain (4 + f.name.utf8ByteSize) ++ plain 4 ++ plain 4 ++ plain 4 ++ [true]

/-- The opcode of an instruction, then whether there is an operand, then the operand. -/
def instrFlags (i : Instr) : List Bool :=
  [false, true] ++ plain (if i.operand.isSome then 8 else 0)

/-- A count, then the items of a sequence. -/
def seqFlags {α : Type} (item : α → List Bool) (as : List α) : List Bool :=
  plain 4 ++ as.flatMap item

/-- Which bytes of a program's form are flags. -/
def flags (p : Program) : List Bool :=
  plain 8 ++ seqFlags (fun _ => plain 8) p.constants ++ seqFlags functionFlags p.functions ++
    seqFlags instrFlags p.code

/-- A byte as the form has it: a flag that is set is one, and any other byte is as it
is. -/
def settle (flag : Bool) (b : UInt8) : UInt8 := if flag = true ∧ b ≠ 0 then 1 else b

/-- The bytes `xs` are `ys` but for the way flags are set. -/
def Spells (flags : List Bool) (xs ys : Bytes) : Prop :=
  xs.length = flags.length ∧ List.zipWith settle flags xs = ys

namespace Spells

variable {fs gs : List Bool} {xs ys us vs : Bytes}

theorem append (h : Spells fs xs ys) (h' : Spells gs us vs) :
    Spells (fs ++ gs) (xs ++ us) (ys ++ vs) := by
  refine ⟨by simp [h.1, h'.1], ?_⟩
  rw [List.zipWith_append h.1.symm, h.2, h'.2]

/-- Where there are no flags, nothing differs. -/
theorem plain {n : Nat} (h : xs.length = n) : Spells (plain n) xs xs := by
  refine ⟨by simp [Stored.plain, h], ?_⟩
  subst h
  induction xs with
  | nil => rfl
  | cons x xs ih => simpa [Stored.plain, List.replicate_succ, settle] using ih

theorem flag (b : UInt8) : Spells [true] [b] (encodeFlag (b != 0)) := by
  refine ⟨rfl, ?_⟩
  by_cases hb : b = 0
  · simp [settle, encodeFlag, hb]
  · simp [settle, encodeFlag, hb]

theorem length_eq (h : Spells fs xs ys) : ys.length = xs.length := by
  rw [← h.2, List.length_zipWith, h.1, Nat.min_self]

end Spells

/-! ### Readers -/

namespace Reader

variable {α β : Type} {bs rest : Bytes}

theorem bind_eq_ok {r : Reader α} {k : α → Reader β} {b : β} (h : (r >>= k) bs = .ok (b, rest)) :
    ∃ a mid, r bs = .ok (a, mid) ∧ k a mid = .ok (b, rest) := by
  have h' : Reader.bind r k bs = .ok (b, rest) := h
  unfold Reader.bind at h'
  cases hr : r bs with
  | error e => rw [hr] at h'; cases h'
  | ok res => rw [hr] at h'; exact ⟨res.1, res.2, rfl, h'⟩

theorem pure_eq_ok {a b : α} (h : (Pure.pure a : Reader α) bs = .ok (b, rest)) :
    a = b ∧ bs = rest := by
  cases h
  exact ⟨rfl, rfl⟩

theorem bytes_eq_ok {n : Nat} {xs : Bytes} (h : bytes n bs = .ok (xs, rest)) :
    bs = xs ++ rest ∧ xs.length = n := by
  unfold bytes at h
  cases ht : Bytes.take? n bs with
  | none => rw [ht] at h; cases h
  | some res =>
    rw [ht] at h
    cases h
    exact Bytes.eq_append_of_take? ht

theorem byte_eq_ok {b : UInt8} (h : byte bs = .ok (b, rest)) : bs = b :: rest := by
  cases bs with
  | nil => cases h
  | cons x xs =>
    cases h
    rfl

/-- A number is read from the bytes it is written in. -/
theorem nat_eq_ok {n : Nat} (h : nat bs = .ok (n, rest)) :
    n ≤ 2 ^ 32 - 1 ∧ bs = Bytes.le 4 n ++ rest := by
  obtain ⟨xs, mid, hbytes, h⟩ := bind_eq_ok h
  obtain ⟨rfl, rfl⟩ := pure_eq_ok h
  obtain ⟨rfl, hlen⟩ := bytes_eq_ok hbytes
  have hlt := Bytes.ofLe_lt xs
  rw [hlen] at hlt
  have hsame := Bytes.le_ofLe xs
  rw [hlen] at hsame
  refine ⟨?_, by rw [hsame]⟩
  simp only [Bytes.capacity] at hlt
  omega

theorem word_eq_ok {n : Int64} (h : word bs = .ok (n, rest)) : bs = Bytes.ofWord n ++ rest := by
  obtain ⟨xs, mid, hbytes, h⟩ := bind_eq_ok h
  obtain ⟨rfl, rfl⟩ := pure_eq_ok h
  obtain ⟨rfl, hlen⟩ := bytes_eq_ok hbytes
  rw [Bytes.ofWord_word hlen]

theorem flag_eq_ok {b : Bool} (h : flag bs = .ok (b, rest)) :
    ∃ x, bs = x :: rest ∧ b = (x != 0) := by
  obtain ⟨x, mid, hbyte, h⟩ := bind_eq_ok h
  obtain ⟨rfl, rfl⟩ := pure_eq_ok h
  exact ⟨x, byte_eq_ok hbyte, rfl⟩

/-- What the reader takes off the front spells what is written for the value it
gives. -/
def Settles (r : Reader α) (write : α → Except Error Bytes) (flags : α → List Bool) : Prop :=
  ∀ bs a rest, r bs = .ok (a, rest) →
    ∃ xs ys, bs = xs ++ rest ∧ write a = .ok ys ∧ Spells (flags a) xs ys

theorem settles_word : Settles word encodeConstant (fun _ => plain 8) := by
  intro bs n rest h
  exact ⟨_, _, word_eq_ok h, rfl, .plain (Bytes.length_ofWord n)⟩

theorem settles_text : Settles text encodeText (fun s => plain (4 + s.utf8ByteSize)) := by
  intro bs s rest hread
  obtain ⟨n, mid, hn, hread⟩ := bind_eq_ok hread
  obtain ⟨xs, mid, hxs, htext⟩ := bind_eq_ok hread
  obtain ⟨hle, rfl⟩ := nat_eq_ok hn
  obtain ⟨rfl, rfl⟩ := bytes_eq_ok hxs
  cases ht : Bytes.text? xs with
  | none => rw [ht] at htext; cases htext
  | some t =>
    rw [ht] at htext
    obtain ⟨rfl, rfl⟩ := pure_eq_ok htext
    obtain rfl := Bytes.ofText_of_text? ht
    refine ⟨_, _, (List.append_assoc ..).symm, ?_, .plain (by simp [Bytes.length_ofText])⟩
    exact Stored.bind_eq_ok.mpr ⟨_, encodeNat_eq_ok.mpr ⟨hle, rfl⟩, rfl⟩

theorem settles_function : Settles function encodeFunction functionFlags := by
  intro bs f rest hread
  obtain ⟨name, mid, hname, hread⟩ := bind_eq_ok hread
  obtain ⟨start, mid, hstart, hread⟩ := bind_eq_ok hread
  obtain ⟨params, mid, hparams, hread⟩ := bind_eq_ok hread
  obtain ⟨locals, mid, hlocals, hread⟩ := bind_eq_ok hread
  obtain ⟨returns, mid, hreturns, hread⟩ := bind_eq_ok hread
  obtain ⟨rfl, rfl⟩ := pure_eq_ok hread
  obtain ⟨flag, rfl, rfl⟩ := flag_eq_ok hreturns
  obtain ⟨hl, rfl⟩ := nat_eq_ok hlocals
  obtain ⟨hp, rfl⟩ := nat_eq_ok hparams
  obtain ⟨hs, rfl⟩ := nat_eq_ok hstart
  obtain ⟨xs, ys, rfl, hys, hspell⟩ := settles_text _ _ _ hname
  have hword : ∀ n ≤ 2 ^ 32 - 1, (UInt64.ofNat n).toNat = n := fun n hn =>
    UInt64.toNat_ofNat_of_lt (by simp only [UInt64.size]; omega)
  have hnat : ∀ n, Spells (plain 4) (Bytes.le 4 n) (Bytes.le 4 n) := fun n =>
    .plain (Bytes.length_le 4 n)
  refine ⟨xs ++ Bytes.le 4 start ++ Bytes.le 4 params ++ Bytes.le 4 locals ++ [flag], _, by simp, ?_,
    (((hspell.append (hnat _)).append (hnat _)).append (hnat _)).append (.flag flag)⟩
  simp only [encodeFunction, Stored.bind_eq_ok, hword _ hs, hword _ hp, hword _ hl]
  exact ⟨ys, hys, _, encodeNat_eq_ok.mpr ⟨hs, rfl⟩, _, encodeNat_eq_ok.mpr ⟨hp, rfl⟩, _,
    encodeNat_eq_ok.mpr ⟨hl, rfl⟩, rfl⟩

theorem opcode_eq_ok {op : Opcode} (h : opcode bs = .ok (op, rest)) : bs = op.toByte :: rest := by
  obtain ⟨b, mid, hb, h'⟩ := bind_eq_ok h
  cases ho : Opcode.ofByte? b with
  | none => rw [ho] at h'; cases h'
  | some o =>
    rw [ho] at h'
    obtain ⟨rfl, rfl⟩ := pure_eq_ok h'
    rw [byte_eq_ok hb, Opcode.toByte_of_ofByte? ho]

/-- An operand is there if its flag is set, by whatever byte. -/
theorem operand_eq_ok {n : Option Int64} (h : operand bs = .ok (n, rest)) :
    ∃ x, n.isSome = (x != 0) ∧ bs = x :: (n.elim [] Bytes.ofWord ++ rest) := by
  obtain ⟨b, mid, hb, h'⟩ := bind_eq_ok h
  obtain ⟨x, rfl, rfl⟩ := flag_eq_ok hb
  by_cases hx : x = 0
  · rw [if_neg (by simp [hx])] at h'
    obtain ⟨rfl, rfl⟩ := pure_eq_ok h'
    exact ⟨x, by simp [hx], rfl⟩
  · rw [if_pos (by simp [hx])] at h'
    obtain ⟨w, mid', hw, h'⟩ := bind_eq_ok h'
    obtain ⟨rfl, rfl⟩ := pure_eq_ok h'
    exact ⟨x, by simp [hx], by rw [word_eq_ok hw]; rfl⟩

theorem settles_instr : Settles instr encodeInstr instrFlags := by
  intro bs i rest hread
  obtain ⟨op, mid, hop, hread⟩ := bind_eq_ok hread
  obtain ⟨n, mid', hn, hread⟩ := bind_eq_ok hread
  obtain ⟨rfl, rfl⟩ := pure_eq_ok hread
  obtain ⟨x, hx, rfl⟩ := operand_eq_ok hn
  have hop := opcode_eq_ok hop
  have hplain : Spells (plain 1) [op.toByte] [op.toByte] := .plain rfl
  have hspell : Spells [false, true] [op.toByte, x] (op.toByte :: encodeFlag n.isSome) := by
    rw [hx]
    exact hplain.append (.flag x)
  cases n with
  | none => exact ⟨_, _, hop, rfl, hspell⟩
  | some w => exact ⟨[op.toByte, x] ++ Bytes.ofWord w, _, hop, rfl, hspell.append (.plain (Bytes.length_ofWord w))⟩

/-- The items of a sequence, one by one. -/
theorem Settles.items {r : Reader α} {write : α → Except Error Bytes} {flags : α → List Bool}
    (h : Settles r write flags) (n : Nat) :
    ∀ bs as rest, items r n bs = .ok (as, rest) → as.length = n ∧
      ∃ xs ys, bs = xs ++ rest ∧ encodeItems write as = .ok ys ∧ Spells (as.flatMap flags) xs ys := by
  induction n with
  | zero =>
    intro bs as rest hread
    obtain ⟨rfl, rfl⟩ := pure_eq_ok hread
    exact ⟨rfl, [], [], rfl, rfl, rfl, rfl⟩
  | succ n ih =>
    intro bs as rest hread
    obtain ⟨a, mid, ha, hread⟩ := bind_eq_ok hread
    obtain ⟨as', mid', has, hread⟩ := bind_eq_ok hread
    obtain ⟨rfl, rfl⟩ := pure_eq_ok hread
    obtain ⟨x, y, rfl, hy, hspell⟩ := h _ _ _ ha
    obtain ⟨rfl, xs, ys, rfl, hys, hspells⟩ := ih _ _ _ has
    refine ⟨rfl, x ++ xs, y ++ ys, (List.append_assoc ..).symm, ?_, hspell.append hspells⟩
    simp only [encodeItems, Stored.bind_eq_ok]
    exact ⟨y, hy, ys, hys, rfl⟩

/-- A counted sequence of what can be written again. The count read is the number of
items there are. -/
theorem Settles.seq {r : Reader α} {write : α → Except Error Bytes} {flags : α → List Bool}
    (h : Settles r write flags) (count : Field) :
    Settles (seq r) (encodeSeq count write) (seqFlags flags) := by
  intro bs as rest hread
  obtain ⟨n, mid, hn, hitems⟩ := bind_eq_ok hread
  obtain ⟨hle, rfl⟩ := nat_eq_ok hn
  obtain ⟨rfl, xs, ys, rfl, hys, hspells⟩ := h.items n _ _ _ hitems
  refine ⟨Bytes.le 4 as.length ++ xs, _, (List.append_assoc ..).symm, ?_,
    (Spells.plain (Bytes.length_le 4 _)).append hspells⟩
  simp only [encodeSeq, Stored.bind_eq_ok]
  exact ⟨_, encodeNat_eq_ok.mpr ⟨hle, rfl⟩, ys, hys, rfl⟩

theorem header_eq_ok {u : Unit} (h : header bs = .ok (u, rest)) :
    bs = magic ++ Bytes.le 4 version ++ rest := by
  obtain ⟨m, mid, hm, hread⟩ := bind_eq_ok h
  rw [(bytes_eq_ok hm).1]
  split_ifs at hread with hmagic
  · obtain ⟨v, mid', hv, hread⟩ := bind_eq_ok hread
    rw [(nat_eq_ok hv).2]
    split_ifs at hread with hversion
    · obtain ⟨-, rfl⟩ := pure_eq_ok hread
      rw [hmagic, hversion, List.append_assoc]
    · cases hread
  · cases hread

theorem settles_program : Settles program encode flags := by
  intro bs p rest hread
  obtain ⟨u, mid, hheader, hread⟩ := bind_eq_ok hread
  obtain ⟨constants, mid, hconstants, hread⟩ := bind_eq_ok hread
  obtain ⟨functions, mid, hfunctions, hread⟩ := bind_eq_ok hread
  obtain ⟨code, mid, hcode, hread⟩ := bind_eq_ok hread
  obtain ⟨rfl, rfl⟩ := pure_eq_ok hread
  obtain ⟨xs, xs', rfl, hxs, hx⟩ := settles_word.seq .constantCount _ _ _ hconstants
  obtain ⟨ys, ys', rfl, hys, hy⟩ := settles_function.seq .functionCount _ _ _ hfunctions
  obtain ⟨zs, zs', rfl, hzs, hz⟩ := settles_instr.seq .instructionCount _ _ _ hcode
  have hhead : Spells (plain 8) (magic ++ Bytes.le 4 version) (magic ++ Bytes.le 4 version) := .plain rfl
  refine ⟨magic ++ Bytes.le 4 version ++ xs ++ ys ++ zs, _, ?_, ?_, ((hhead.append hx).append hy).append hz⟩
  · rw [header_eq_ok hheader]
    simp
  · simp only [encode, Stored.bind_eq_ok]
    exact ⟨xs', hxs, ys', hys, zs', hzs, rfl⟩

end Reader

/-- How many bytes the form of a program has. -/
theorem length_flags (p : Program) :
    (flags p).length = 20 + 8 * p.constants.length +
      (p.functions.map fun f => 17 + f.name.utf8ByteSize).sum +
      (p.code.map fun i => if i.operand.isSome then 10 else 2).sum := by
  have hfunction : ∀ f, (functionFlags f).length = 17 + f.name.utf8ByteSize := fun f => by
    simp [functionFlags, plain]
    omega
  have hinstr : ∀ i, (instrFlags i).length = if i.operand.isSome then 10 else 2 := fun i => by
    simp only [instrFlags, plain, List.length_append, List.length_replicate]
    split_ifs <;> rfl
  simp only [flags, seqFlags, List.length_append, List.length_flatMap, hfunction, hinstr]
  simp [plain]
  omega

/-- **Reading and writing again normalises.** If bytes read as a program, it can be
written, in no more bytes than there were. What is written is what was there at the
front, except that a flag which was set by another byte is now a one, and it reads as
the same program. So the program takes up no more than the bytes it was read from,
however many items they claim to hold. -/
theorem decode_normalises {bs : Bytes} {p : Program} (h : decode bs = .ok p) :
    ∃ ys, encode p = .ok ys ∧ ys.length ≤ bs.length ∧ (flags p).length = ys.length ∧
      ys = List.zipWith settle (flags p) (bs.take ys.length) ∧ decode ys = .ok p ∧
      20 + 8 * p.constants.length + (p.functions.map fun f => 17 + f.name.utf8ByteSize).sum +
        (p.code.map fun i => if i.operand.isSome then 10 else 2).sum ≤ bs.length := by
  obtain ⟨rest, hread⟩ : ∃ rest, Reader.program bs = .ok (p, rest) := by
    unfold decode at h
    cases hr : Reader.program bs with
    | error e => rw [hr] at h; cases h
    | ok res =>
      rw [hr] at h
      exact ⟨res.2, congrArg _ (Prod.ext (Except.ok.inj h) rfl)⟩
  obtain ⟨xs, ys, rfl, hys, hspells⟩ := Reader.settles_program bs p rest hread
  have hlen := hspells.length_eq
  have hflags : (flags p).length = ys.length := hspells.1.symm.trans hlen.symm
  have hfits : ys.length ≤ (xs ++ rest).length := by simp [hlen]
  refine ⟨ys, hys, hfits, hflags, ?_, ?_, ?_⟩
  · rw [hlen, List.take_left, hspells.2]
  · rw [← List.append_nil ys]
    exact decode_append hys []
  · rw [← length_flags, hflags]
    exact hfits

/-- A function that returns a value and an instruction with an operand, each told by a
byte of its own, an instruction without one, and two bytes that belong to nothing. -/
def loose : Bytes :=
  [73, 82, 73, 83, 1, 0, 0, 0] ++ [0, 0, 0, 0] ++
  [1, 0, 0, 0] ++ [2, 0, 0, 0, 206, 187, 1, 0, 0, 0, 0, 0, 0, 0, 0, 0, 0, 0, 200] ++
  [2, 0, 0, 0] ++ [0, 255, 7, 0, 0, 0, 0, 0, 0, 0] ++ [39, 0] ++ [9, 9]

/-- The two flags are ones when they are written again, and the last two bytes are
gone. -/
theorem decode_normalises_loose :
    ∃ p ys, decode loose = .ok p ∧ encode p = .ok ys ∧ decode ys = .ok p ∧
      ys = ((loose.set 34 1).set 40 1).take 51 := by
  have hread : decode loose =
      .ok ⟨[⟨.pushInt, some 7⟩, ⟨.halt, none⟩], [], [⟨"λ", 1, 0, 0, true⟩]⟩ := rfl
  obtain ⟨ys, hys, -, hflags, hsame, hagain, -⟩ := decode_normalises hread
  have hlen : ys.length = 51 := hflags.symm
  rw [hlen] at hsame
  exact ⟨_, ys, hread, hys, hagain, hsame⟩

end Stored
end StackMachine
