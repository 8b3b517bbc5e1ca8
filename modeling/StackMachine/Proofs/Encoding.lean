/-
# The binary form can be read back

Writing fails only where a number has no room in 32 bits, and reading what was
written gives the program back. Both are properties of a writer and a reader
taken together (`Codec`), and both pass from the parts of the form to the whole.

* `Reader.Reads`: a reader takes exactly the given bytes off the front, and has
  too few in anything shorter;
* `Codec.seq`: from the items of a counted sequence to the sequence;
* `Program.Compact`: every number that the form keeps in 32 bits fits them;
* `encode_compact_round_trip`: the compact programs are those that can be written,
  and what is written reads back;
* `truncation_noticed`: a part of what is written does not read as anything.
-/
import Mathlib
import StackMachine.Stored.Binary

namespace StackMachine

/-- The numbers of a function that are kept in 32 bits fit them. -/
@[mk_iff] structure Function.Compact (f : Function) : Prop where
  name : f.name.utf8ByteSize ≤ 2 ^ 32 - 1
  start : f.start.toNat ≤ 2 ^ 32 - 1
  params : f.params.toNat ≤ 2 ^ 32 - 1
  locals : f.locals.toNat ≤ 2 ^ 32 - 1

/-- The numbers of a program that are kept in 32 bits fit them. -/
@[mk_iff] structure Program.Compact (p : Program) : Prop where
  constants : p.constants.length ≤ 2 ^ 32 - 1
  functions : p.functions.length ≤ 2 ^ 32 - 1
  code : p.code.length ≤ 2 ^ 32 - 1
  table : ∀ f ∈ p.functions, f.Compact

instance (f : Function) : Decidable f.Compact :=
  decidable_of_iff _ (Function.compact_iff f).symm

instance (p : Program) : Decidable p.Compact :=
  decidable_of_iff _ (Program.compact_iff p).symm

theorem Bytes.length_ofText (s : String) : (Bytes.ofText s).length = s.utf8ByteSize := by
  simp [Bytes.ofText]

namespace Stored

theorem bind_eq_ok {α β : Type} {x : Except Error α} {f : α → Except Error β} {b : β} :
    x >>= f = .ok b ↔ ∃ a, x = .ok a ∧ f a = .ok b := by
  cases x with
  | error e => simp [bind, Except.bind]
  | ok a => simp [bind, Except.bind]

/-! ### Readers -/

namespace Reader

/-- The reader takes `xs` off the front and gives `a`. It looks at nothing that
follows `xs`, and has too few bytes in a part of `xs`. -/
structure Reads {α : Type} (r : Reader α) (xs : Bytes) (a : α) : Prop where
  whole : ∀ rest, r (xs ++ rest) = .ok (a, rest)
  cut : ∀ ys, ys <+: xs → ys.length < xs.length → r ys = .error .unexpectedEnd

namespace Reads

variable {α β : Type} {r : Reader α} {xs ys : Bytes} {a : α} {b : β}

theorem pure (a : α) : Reads (Reader.pure a) [] a where
  whole _ := rfl
  cut _ _ hlt := absurd hlt (Nat.not_lt_zero _)

theorem bind {k : α → Reader β} (h : Reads r xs a) (hk : Reads (k a) ys b) :
    Reads (r >>= k) (xs ++ ys) b where
  whole rest := by
    show Reader.bind r k (xs ++ ys ++ rest) = _
    rw [Reader.bind, List.append_assoc, h.whole]
    exact hk.whole rest
  cut zs hpre hlt := by
    show Reader.bind r k zs = _
    -- The cut falls into what `r` reads, or into what comes after it.
    by_cases hz : zs.length < xs.length
    · have hx : zs <+: xs := List.prefix_of_prefix_length_le hpre (List.prefix_append xs ys) hz.le
      rw [Reader.bind, h.cut zs hx hz]
    · obtain ⟨ts, rfl⟩ : xs <+: zs :=
        List.prefix_of_prefix_length_le (List.prefix_append xs ys) hpre (not_lt.mp hz)
      rw [Reader.bind, h.whole]
      apply hk.cut ts ((List.prefix_append_right_inj xs).mp hpre)
      simpa using hlt

/-- What is made of the value once it is read takes no bytes. -/
theorem last {k : α → Reader β} (h : Reads r xs a) (hk : Reads (k a) [] b) :
    Reads (r >>= k) xs b := by
  have hread := h.bind hk
  rwa [List.append_nil] at hread

theorem map {f : α → β} (h : Reads r xs a) : Reads (r >>= fun a => Reader.pure (f a)) xs (f a) :=
  h.last (Reads.pure (f a))

theorem bytes {n : Nat} (h : xs.length = n) : Reads (Reader.bytes n) xs xs where
  whole rest := by simp [Reader.bytes, Bytes.take?_append h]
  cut ys _ hlt := by
    have hnone : Bytes.take? n ys = none := Bytes.take?_eq_none_iff.mpr (h ▸ hlt)
    simp [Reader.bytes, hnone]

theorem byte (b : UInt8) : Reads Reader.byte [b] b where
  whole rest := rfl
  cut ys _ hlt := by
    have hnil : ys = [] := List.length_eq_zero_iff.mp (Nat.lt_one_iff.mp hlt)
    rw [hnil, Reader.byte]

theorem nat {n : Nat} (h : n ≤ 2 ^ 32 - 1) : Reads Reader.nat (Bytes.le 4 n) n := by
  have hlt : n < Bytes.capacity 4 := by simp only [Bytes.capacity]; omega
  have hread := (bytes (Bytes.length_le 4 n)).map (f := Bytes.ofLe)
  rwa [Bytes.ofLe_le_of_lt hlt] at hread

theorem word (n : Int64) : Reads Reader.word (Bytes.ofWord n) n := by
  have hread := (bytes (Bytes.length_ofWord n)).map (f := Bytes.word)
  rwa [Bytes.word_ofWord] at hread

theorem flag (b : Bool) : Reads Reader.flag (encodeFlag b) b := by
  have hread := (byte (if b then 1 else 0)).map (f := (· != 0))
  cases b with
  | false => exact hread
  | true => exact hread

theorem text {s : String} (h : s.utf8ByteSize ≤ 2 ^ 32 - 1) :
    Reads Reader.text (Bytes.le 4 (Bytes.ofText s).length ++ Bytes.ofText s) s := by
  rw [← Bytes.length_ofText] at h
  refine (nat h).bind ?_
  refine (bytes rfl).last ?_
  rw [Bytes.text?_ofText]
  exact Reads.pure s

theorem opcode (op : Opcode) : Reads Reader.opcode [op.toByte] op := by
  refine (byte op.toByte).last ?_
  rw [Opcode.ofByte?_toByte]
  exact Reads.pure op

/-- An operand that is there follows a flag that is set. -/
theorem operand_some (n : Int64) :
    Reads Reader.operand (encodeFlag true ++ Bytes.ofWord n) (some n) :=
  (flag true).bind (word n).map

theorem operand_none : Reads Reader.operand (encodeFlag false) none :=
  (flag false).last (Reads.pure none)

theorem instr {i : Instr} {bs : Bytes} (h : encodeInstr i = .ok bs) : Reads Reader.instr bs i := by
  obtain ⟨op, n⟩ := i
  cases n with
  | none =>
    cases h
    exact (opcode op).bind operand_none.map
  | some n =>
    cases h
    exact (opcode op).bind (operand_some n).map

theorem header : Reads Reader.header (magic ++ Bytes.le 4 version) () := by
  have hmagic : Reads (Reader.bytes 4) magic magic := bytes rfl
  have hversion : Reads Reader.nat (Bytes.le 4 version) version := nat (by decide)
  exact hmagic.bind (hversion.last (Reads.pure ()))

end Reads

end Reader

/-! ### Writers and readers -/

/-- A writer and a reader of one kind of value: the writer refuses those that do
not fit, and the reader gives back those that do. -/
structure Codec {α : Type} (write : α → Except Error Bytes) (read : Reader α)
    (fits : α → Prop) : Prop where
  writes : ∀ a, (∃ bs, write a = .ok bs) ↔ fits a
  reads : ∀ a bs, write a = .ok bs → read.Reads bs a

theorem encodeNat_eq_ok {field : Field} {n : Nat} {bs : Bytes} :
    encodeNat field n = .ok bs ↔ n ≤ 2 ^ 32 - 1 ∧ Bytes.le 4 n = bs := by
  have hsize : n < UInt32.size ↔ n ≤ 2 ^ 32 - 1 := by simp only [UInt32.size]; omega
  rw [encodeNat]
  by_cases h : n < UInt32.size
  · rw [if_pos h, and_iff_right (hsize.mp h), Except.ok.injEq]
  · rw [if_neg h]
    constructor
    · intro he
      cases he
    · intro he
      exact absurd (hsize.mpr he.1) h

namespace Codec

variable {α : Type} {item : α → Except Error Bytes} {read : Reader α} {fits : α → Prop}

/-- Two parts one after the other can be written if each can. -/
theorem exists_append {x y : Except Error Bytes} :
    (∃ bs, (do let a ← x; let b ← y; return a ++ b) = .ok bs) ↔
      (∃ a, x = .ok a) ∧ ∃ b, y = .ok b := by
  simp only [bind_eq_ok]
  constructor
  · rintro ⟨bs, a, ha, b, hb, -⟩
    exact ⟨⟨a, ha⟩, b, hb⟩
  · rintro ⟨⟨a, ha⟩, b, hb⟩
    exact ⟨a ++ b, a, ha, b, hb, rfl⟩

theorem items_writes (h : Codec item read fits) (as : List α) :
    (∃ bs, encodeItems item as = .ok bs) ↔ ∀ a ∈ as, fits a := by
  induction as with
  | nil => simp [encodeItems]
  | cons a as ih =>
    rw [List.forall_mem_cons, ← ih, ← h.writes a]
    exact exists_append

theorem items_reads (h : Codec item read fits) (as : List α) (bs : Bytes)
    (he : encodeItems item as = .ok bs) : (Reader.items read as.length).Reads bs as := by
  induction as generalizing bs with
  | nil =>
    cases he
    exact Reader.Reads.pure []
  | cons a as ih =>
    simp only [encodeItems, bind_eq_ok] at he
    obtain ⟨x, hx, xs, hxs, he⟩ := he
    cases he
    exact (h.reads a x hx).bind (ih xs hxs).map

/-- A counted sequence of what can be written and read. -/
theorem seq (h : Codec item read fits) (count : Field) :
    Codec (encodeSeq count item) (Reader.seq read)
      (fun as => as.length ≤ 2 ^ 32 - 1 ∧ ∀ a ∈ as, fits a) where
  writes as := by
    have hcount : (∃ bs, encodeNat count as.length = .ok bs) ↔ as.length ≤ 2 ^ 32 - 1 := by
      simp [encodeNat_eq_ok]
    rw [← hcount, ← h.items_writes as]
    exact exists_append
  reads as bs he := by
    simp only [encodeSeq, bind_eq_ok] at he
    obtain ⟨n, hn, xs, hxs, he⟩ := he
    cases he
    obtain ⟨hle, rfl⟩ := encodeNat_eq_ok.mp hn
    exact (Reader.Reads.nat hle).bind (h.items_reads as xs hxs)

theorem constant : Codec encodeConstant Reader.word (fun _ => True) where
  writes n := by simp [encodeConstant]
  reads n bs he := by
    cases he
    exact Reader.Reads.word n

theorem text : Codec encodeText Reader.text (fun s => s.utf8ByteSize ≤ 2 ^ 32 - 1) where
  writes s := by
    simp only [encodeText, bind_eq_ok, encodeNat_eq_ok, Bytes.length_ofText]
    constructor
    · rintro ⟨_, _, ⟨hle, -⟩, -⟩
      exact hle
    · intro hle
      exact ⟨_, _, ⟨hle, rfl⟩, rfl⟩
  reads s bs he := by
    simp only [encodeText, bind_eq_ok] at he
    obtain ⟨n, hn, he⟩ := he
    cases he
    obtain ⟨hle, rfl⟩ := encodeNat_eq_ok.mp hn
    exact Reader.Reads.text (Bytes.length_ofText s ▸ hle)

theorem instr : Codec encodeInstr Reader.instr (fun _ => True) where
  writes i := by
    obtain ⟨op, n⟩ := i
    cases n with
    | none => simp [encodeInstr]
    | some n => simp [encodeInstr]
  reads _ _ he := Reader.Reads.instr he

theorem function : Codec encodeFunction Reader.function Function.Compact where
  writes f := by
    rw [Function.compact_iff, ← text.writes]
    simp only [encodeFunction, bind_eq_ok, encodeNat_eq_ok]
    constructor
    · rintro ⟨_, name, hname, _, ⟨hstart, -⟩, _, ⟨hparams, -⟩, _, ⟨hlocals, -⟩, -⟩
      exact ⟨⟨name, hname⟩, hstart, hparams, hlocals⟩
    · rintro ⟨⟨name, hname⟩, hstart, hparams, hlocals⟩
      exact ⟨_, name, hname, _, ⟨hstart, rfl⟩, _, ⟨hparams, rfl⟩, _, ⟨hlocals, rfl⟩, rfl⟩
  reads f bs he := by
    simp only [encodeFunction, bind_eq_ok, encodeNat_eq_ok] at he
    obtain ⟨name, hname, _, ⟨hstart, rfl⟩, _, ⟨hparams, rfl⟩, _, ⟨hlocals, rfl⟩, he⟩ := he
    cases he
    have hread : Reader.function.Reads _ _ :=
      (text.reads f.name name hname).bind ((Reader.Reads.nat hstart).bind
        ((Reader.Reads.nat hparams).bind ((Reader.Reads.nat hlocals).bind
          (Reader.Reads.flag f.returns).map)))
    simpa using hread

theorem program : Codec encode Reader.program Program.Compact where
  writes p := by
    rw [Program.compact_iff]
    have hconstants := (constant.seq .constantCount).writes p.constants
    have hfunctions := (function.seq .functionCount).writes p.functions
    have hcode := (instr.seq .instructionCount).writes p.code
    simp only [encode, bind_eq_ok]
    constructor
    · rintro ⟨_, xs, hxs, ys, hys, zs, hzs, -⟩
      exact ⟨(hconstants.mp ⟨xs, hxs⟩).1, (hfunctions.mp ⟨ys, hys⟩).1, (hcode.mp ⟨zs, hzs⟩).1,
        (hfunctions.mp ⟨ys, hys⟩).2⟩
    · rintro ⟨h1, h2, h3, htable⟩
      obtain ⟨xs, hxs⟩ := hconstants.mpr ⟨h1, fun _ _ => trivial⟩
      obtain ⟨ys, hys⟩ := hfunctions.mpr ⟨h2, htable⟩
      obtain ⟨zs, hzs⟩ := hcode.mpr ⟨h3, fun _ _ => trivial⟩
      exact ⟨_, xs, hxs, ys, hys, zs, hzs, rfl⟩
  reads p bs he := by
    simp only [encode, bind_eq_ok] at he
    obtain ⟨xs, hxs, ys, hys, zs, hzs, he⟩ := he
    cases he
    have hread : Reader.program.Reads _ _ :=
      Reader.Reads.header.bind (((constant.seq _).reads _ _ hxs).bind
        (((function.seq _).reads _ _ hys).bind ((instr.seq _).reads _ _ hzs).map))
    simpa using hread

end Codec

/-- What was written reads back, whatever follows it. -/
theorem decode_append {p : Program} {bs : Bytes} (h : encode p = .ok bs) (rest : Bytes) :
    decode (bs ++ rest) = .ok p := by
  rw [decode, (Codec.program.reads p bs h).whole rest]
  rfl

/-- **The binary form loses nothing.** A program can be written if and only if
every number the form keeps in 32 bits fits them, and reading what was written
gives the program back. -/
theorem encode_compact_round_trip (p : Program) :
    ((∃ bs, encode p = .ok bs) ↔ p.Compact) ∧ ∀ bs, encode p = .ok bs → decode bs = .ok p := by
  refine ⟨Codec.program.writes p, fun bs h => ?_⟩
  rw [← List.append_nil bs]
  exact decode_append h []

/-- A program with the least and the greatest word, both flags, and a name whose
characters take one to four bytes. -/
def polyglot : Program where
  code := [⟨.pushInt, some Int64.minValue⟩, ⟨.halt, none⟩]
  constants := [Int64.maxValue, -1]
  functions := [⟨"", 0, 0, 0, false⟩, ⟨"aλ€𝄞", 4294967295, 1, 2, true⟩]

/-- The program can be written and reads back. With a start one greater it cannot
be written. -/
theorem encode_compact_round_trip_polyglot :
    (∃ bs, encode polyglot = .ok bs ∧ decode bs = .ok polyglot) ∧
      ¬ ∃ bs, encode { polyglot with functions := [⟨"", 4294967296, 0, 0, false⟩] } = .ok bs := by
  constructor
  · obtain ⟨bs, h⟩ := (encode_compact_round_trip polyglot).1.mpr (by decide)
    exact ⟨bs, h, (encode_compact_round_trip polyglot).2 bs h⟩
  · rw [(encode_compact_round_trip _).1]
    decide

/-- **A form that is cut short is noticed, and what follows it does not matter.**
Whatever part of a program's form is left, from its start on, reading it finds that
bytes are missing, and nothing else wrong. With anything after it, the form reads as
the program. -/
theorem truncation_noticed {p : Program} {bs : Bytes} (h : encode p = .ok bs) :
    (∀ ys, ys <+: bs → ys ≠ bs → decode ys = .error .unexpectedEnd) ∧
      ∀ rest, decode (bs ++ rest) = .ok p := by
  refine ⟨fun ys hpre hne => ?_, decode_append h⟩
  have hlt : ys.length < bs.length :=
    lt_of_le_of_ne hpre.length_le fun hlen => hne (hpre.eq_of_length hlen)
  rw [decode, (Codec.program.reads p bs h).cut ys hpre hlt]
  rfl

/-- The form is cut inside the last character of a name, or between the flag of an
operand and the operand; or two bytes follow it. -/
theorem truncation_noticed_polyglot :
    ∃ bs, encode polyglot = .ok bs ∧ bs.length = 92 ∧
      decode (bs.take 61) = .error .unexpectedEnd ∧ decode (bs.take 82) = .error .unexpectedEnd ∧
      decode (bs ++ [73, 255]) = .ok polyglot := by
  obtain ⟨bs, h⟩ : ∃ bs, encode polyglot = .ok bs := (Codec.program.writes polyglot).mpr (by decide)
  have hlen : bs.length = 92 := by
    have hmap : (encode polyglot).map List.length = .ok 92 := by decide +kernel
    rw [h] at hmap
    exact Except.ok.inj hmap
  have hcut : ∀ n < 92, decode (bs.take n) = .error .unexpectedEnd := by
    intro n hn
    apply (truncation_noticed h).1 _ (List.take_prefix n bs)
    intro he
    have := congrArg List.length he
    rw [List.length_take] at this
    omega
  exact ⟨bs, h, hlen, hcut 61 (by decide), hcut 82 (by decide), (truncation_noticed h).2 _⟩

end Stored
end StackMachine
