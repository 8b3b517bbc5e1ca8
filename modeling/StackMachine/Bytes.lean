/-
# Bytes

Numbers are written least significant byte first, text as UTF-8. Readers take
bytes off the front of a list and give back the rest.

* `Bytes.le`, `Bytes.ofLe`: numbers of a fixed width, of which there are
  `Bytes.capacity` (`ofLe_le`, `le_ofLe`);
* `Bytes.ofText`, `Bytes.text?`: text (`text?_ofText`, `ofText_of_text?`);
* `Bytes.take?`: the first `n` bytes and the rest (`take?_append`,
  `eq_append_of_take?`).
-/

namespace StackMachine

abbrev Bytes := List UInt8

namespace Bytes

/-- The lowest `width` bytes of a number, least significant first. -/
def le : (width : Nat) → Nat → Bytes
  | 0, _ => []
  | w + 1, n => UInt8.ofNat (n % 256) :: le w (n / 256)

/-- The number that bytes stand for, least significant first. -/
def ofLe : Bytes → Nat
  | [] => 0
  | b :: bs => b.toNat + 256 * ofLe bs

@[simp] theorem length_le (w n : Nat) : (le w n).length = w := by
  induction w generalizing n with
  | zero => rfl
  | succ w ih => simp [le, ih]

/-- How many numbers a width has room for. -/
def capacity : (width : Nat) → Nat
  | 0 => 1
  | w + 1 => 256 * capacity w

theorem ofLe_lt (bs : Bytes) : ofLe bs < capacity bs.length := by
  induction bs with
  | nil => exact Nat.one_pos
  | cons b bs ih =>
    have hb : b.toNat < 256 := b.toNat_lt
    simp only [ofLe, List.length_cons, capacity]
    omega

/-- Reading a number gives it back, up to the width it was written in. -/
theorem ofLe_le (w n : Nat) : ofLe (le w n) = n % capacity w := by
  induction w generalizing n with
  | zero => exact (Nat.mod_one n).symm
  | succ w ih =>
    have h : (UInt8.ofNat (n % 256)).toNat = n % 256 := by
      simp [UInt8.toNat_ofNat']
    rw [le, ofLe, ih, h, capacity, Nat.mod_mul]

theorem ofLe_le_of_lt {w n : Nat} (h : n < capacity w) : ofLe (le w n) = n := by
  rw [ofLe_le, Nat.mod_eq_of_lt h]

/-- Writing a number that was read gives the bytes back. -/
theorem le_ofLe (bs : Bytes) : le bs.length (ofLe bs) = bs := by
  induction bs with
  | nil => rfl
  | cons b bs ih =>
    have hb : b.toNat < 256 := b.toNat_lt
    have h1 : (b.toNat + 256 * ofLe bs) % 256 = b.toNat := by omega
    have h2 : (b.toNat + 256 * ofLe bs) / 256 = ofLe bs := by omega
    simp [le, ofLe, h1, h2, ih]

/-- The bytes of a signed word. -/
def ofWord (n : Int64) : Bytes := le 8 n.toUInt64.toNat

/-- The signed word that eight bytes stand for. -/
def word (bs : Bytes) : Int64 := (UInt64.ofNat (ofLe bs)).toInt64

@[simp] theorem length_ofWord (n : Int64) : (ofWord n).length = 8 := length_le ..

@[simp] theorem word_ofWord (n : Int64) : word (ofWord n) = n := by
  have h : n.toUInt64.toNat < capacity 8 := n.toUInt64.toNat_lt
  simp [word, ofWord, ofLe_le_of_lt h]

/-- The bytes of a text. -/
def ofText (s : String) : Bytes := s.toUTF8.data.toList

/-- The text that bytes stand for, if they are well-formed. -/
def text? (bs : Bytes) : Option String := String.fromUTF8? ⟨bs.toArray⟩

@[simp] theorem text?_ofText (s : String) : text? (ofText s) = some s := by
  have h : (⟨s.toUTF8.data.toList.toArray⟩ : ByteArray) = s.toUTF8 := by simp
  unfold text? ofText
  rw [h, String.fromUTF8?]
  simp [String.isValidUTF8]
  rfl

theorem ofText_of_text? {bs : Bytes} {s : String} (h : text? bs = some s) : ofText s = bs := by
  unfold text? String.fromUTF8? at h
  split at h
  · cases h
    simp [ofText, String.toUTF8, String.fromUTF8]
  · cases h

/-- The first `n` bytes and the rest, if there are that many. -/
def take? : Nat → Bytes → Option (Bytes × Bytes)
  | 0, bs => some ([], bs)
  | _ + 1, [] => none
  | n + 1, b :: bs => (take? n bs).map fun (xs, rest) => (b :: xs, rest)

theorem take?_append {n : Nat} {xs : Bytes} (h : xs.length = n) (rest : Bytes) :
    take? n (xs ++ rest) = some (xs, rest) := by
  induction xs generalizing n with
  | nil => cases h; rfl
  | cons x xs ih =>
    cases h
    simp [take?, ih rfl]

theorem eq_append_of_take? {n : Nat} {bs xs rest : Bytes} (h : take? n bs = some (xs, rest)) :
    bs = xs ++ rest ∧ xs.length = n := by
  induction n generalizing bs xs with
  | zero => cases h; simp
  | succ n ih =>
    cases bs with
    | nil => cases h
    | cons b bs =>
      simp only [take?, Option.map_eq_some_iff] at h
      obtain ⟨⟨ys, r⟩, hy, he⟩ := h
      cases he
      obtain ⟨rfl, hl⟩ := ih hy
      simp [hl]

theorem take?_eq_none_iff {n : Nat} {bs : Bytes} : take? n bs = none ↔ bs.length < n := by
  induction n generalizing bs with
  | zero => simp [take?]
  | succ n ih =>
    cases bs with
    | nil => simp [take?]
    | cons b bs => simp [take?, ih]

end Bytes

end StackMachine
