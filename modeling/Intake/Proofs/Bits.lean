import Intake.Bits
import Mathlib.Tactic.Common

/-!
# The bits of a byte string

A forward stream is told by the bits that are left (`BitStream.Holds`): less than eight of them
belong to the byte that is being read, the others fill whole bytes. A reader reads a text as a value
if it takes the bits of the text off any stream that begins with them (`BitStream.Reads`). Texts
that are read one after the other make a text that is read as a whole.
-/

set_option autoImplicit false
set_option relaxedAutoImplicit false

namespace Intake

/-- The lowest `n` bits of a number, the most significant one first. -/
def highBits : Nat → Nat → List Bool
  | 0, _ => []
  | n + 1, x => (x / 2 ^ n % 2 == 1) :: highBits n x

/-- The bits of a byte string, those of each byte from the least significant one up. -/
def Bytes.bits (s : Bytes) : List Bool :=
  s.flatMap fun b ↦ lowBits 8 b.toNat

/-- The first `n` bytes of the given bits. -/
def Bytes.ofFirstBits : (n : Nat) → List Bool → Bytes
  | 0, _ => []
  | n + 1, bits => (ofLowBits (bits.take 8)).toUInt8 :: ofFirstBits n (bits.drop 8)

/-- Bytes that have the given bits. Bits that do not fill a byte are left out. -/
def Bytes.ofBits (bits : List Bool) : Bytes :=
  ofFirstBits (bits.length / 8) bits

/-! ### Numbers and their bits -/

/-- Bits further up have no part in the lowest ones. -/
theorem highBits_add_pow {n m : Nat} (h : n ≤ m) (x : Nat) :
    highBits n (x + 2 ^ m) = highBits n x := by
  induction n with
  | zero => rfl
  | succ n ih =>
    have hpow : 2 ^ m = 2 ^ n * (2 * 2 ^ (m - (n + 1))) := by
      rw [← Nat.pow_succ', ← Nat.pow_add]
      congr 1
      omega
    have hbit : (x + 2 ^ m) / 2 ^ n % 2 = x / 2 ^ n % 2 := by
      rw [hpow, Nat.add_mul_div_left _ _ (Nat.two_pow_pos n), Nat.add_mul_mod_self_left]
    rw [highBits, highBits, hbit, ih (by omega)]

theorem highBits_succ_of_lt {n x : Nat} (h : x < 2 ^ n) :
    highBits (n + 1) x = false :: highBits n x := by
  rw [highBits, Nat.div_eq_of_lt h]
  rfl

theorem highBits_succ_add {n x : Nat} (h : x < 2 ^ n) :
    highBits (n + 1) (x + 2 ^ n) = true :: highBits n x := by
  rw [highBits, highBits_add_pow (Nat.le_refl n), Nat.add_div_right _ (Nat.two_pow_pos n),
    Nat.div_eq_of_lt h]
  rfl

theorem ofLowBits_lowBits (n x : Nat) : ofLowBits (lowBits n x) = x % 2 ^ n := by
  induction n generalizing x with
  | zero => rw [lowBits, ofLowBits, Nat.pow_zero, Nat.mod_one]
  | succ n ih =>
    have hbit : (x % 2 == 1).toNat = x % 2 := by
      rcases Nat.mod_two_eq_zero_or_one x with h | h
      · rw [h]
        rfl
      · rw [h]
        rfl
    rw [lowBits, ofLowBits, ih, hbit, Nat.pow_succ', Nat.mod_mul]

theorem lowBits_injective {n x y : Nat} (hx : x < 2 ^ n) (hy : y < 2 ^ n)
    (h : lowBits n x = lowBits n y) : x = y := by
  rw [← Nat.mod_eq_of_lt hx, ← Nat.mod_eq_of_lt hy, ← ofLowBits_lowBits, h, ofLowBits_lowBits]

theorem ofLowBits_lt (bits : List Bool) : ofLowBits bits < 2 ^ bits.length := by
  induction bits with
  | nil => exact Nat.one_pos
  | cons b bits ih =>
    have := b.toNat_le
    rw [ofLowBits, List.length_cons, Nat.pow_succ']
    omega

theorem lowBits_ofLowBits (bits : List Bool) : lowBits bits.length (ofLowBits bits) = bits := by
  induction bits with
  | nil => rfl
  | cons b bits ih =>
    have hhigh : (b.toNat + 2 * ofLowBits bits) / 2 = ofLowBits bits := by
      have := b.toNat_le
      omega
    have hlow : ((b.toNat + 2 * ofLowBits bits) % 2 == 1) = b := by
      rw [Nat.add_mul_mod_self_left]
      cases b <;> rfl
    rw [List.length_cons, ofLowBits, lowBits, hhigh, hlow, ih]

namespace Bytes

@[simp] theorem bits_nil : bits [] = [] :=
  rfl

@[simp] theorem bits_cons (b : UInt8) (s : Bytes) : bits (b :: s) = lowBits 8 b.toNat ++ bits s :=
  rfl

@[simp] theorem bits_append (s t : Bytes) : bits (s ++ t) = bits s ++ bits t :=
  List.flatMap_append

theorem length_bits (s : Bytes) : (bits s).length = 8 * s.length := by
  induction s with
  | nil => rfl
  | cons b s ih =>
    rw [bits_cons, List.length_append, BitStream.length_lowBits, ih, List.length_cons]
    omega

theorem bits_injective {s t : Bytes} (h : bits s = bits t) : s = t := by
  induction s generalizing t with
  | nil =>
    cases t with
    | nil => rfl
    | cons c t => simp [lowBits] at h
  | cons b s ih =>
    cases t with
    | nil => simp [lowBits] at h
    | cons c t =>
      rw [bits_cons, bits_cons] at h
      obtain ⟨hbyte, hrest⟩ := List.append_inj h (by simp only [BitStream.length_lowBits])
      rw [UInt8.toNat_inj.mp (lowBits_injective b.toNat_lt c.toNat_lt hbyte), ih hrest]

/-- Bytes that begin with the bits of a byte string begin with the byte string. -/
theorem exists_of_bits_eq_append {s t : Bytes} {more : List Bool} (h : bits s = bits t ++ more) :
    ∃ u, s = t ++ u ∧ bits u = more := by
  induction t generalizing s with
  | nil => exact ⟨s, rfl, h⟩
  | cons b t ih =>
    cases s with
    | nil => simp [lowBits] at h
    | cons c s =>
      rw [bits_cons, bits_cons, List.append_assoc] at h
      obtain ⟨hbyte, hrest⟩ := List.append_inj h (by simp only [BitStream.length_lowBits])
      obtain ⟨u, rfl, hu⟩ := ih hrest
      exact ⟨u, by rw [UInt8.toNat_inj.mp (lowBits_injective c.toNat_lt b.toNat_lt hbyte),
        List.cons_append], hu⟩

theorem bits_ofFirstBits {n : Nat} {bits : List Bool} (h : bits.length = 8 * n) :
    (ofFirstBits n bits).bits = bits := by
  induction n generalizing bits with
  | zero => exact (List.length_eq_zero_iff.mp h).symm
  | succ n ih =>
    have hfront : (bits.take 8).length = 8 := by
      rw [List.length_take]
      omega
    have hbyte : lowBits 8 (ofLowBits (bits.take 8)) = bits.take 8 := by
      have hbits := lowBits_ofLowBits (bits.take 8)
      rwa [hfront] at hbits
    have hlt := ofLowBits_lt (bits.take 8)
    rw [hfront] at hlt
    rw [ofFirstBits, bits_cons, ih (by rw [List.length_drop]; omega), Nat.toUInt8_eq,
      UInt8.toNat_ofNat', Nat.mod_eq_of_lt hlt, hbyte, List.take_append_drop]

theorem bits_ofBits {bits : List Bool} (h : 8 ∣ bits.length) : (ofBits bits).bits = bits :=
  bits_ofFirstBits (Nat.mul_div_cancel' h).symm

end Bytes

/-! ### Streams -/

namespace BitStream

variable {ε α β : Type}

/-- The bits that are left of a stream. Less than eight of them are of the byte being read. -/
structure Holds (s : BitStream) (bits : List Bool) : Prop where
  left_lt : s.bits.length < 8
  all : s.bits ++ s.bytes.bits = bits

theorem holds_ofBytes (s : Bytes) : (ofBytes s).Holds s.bits :=
  ⟨Nat.zero_lt_succ 7, rfl⟩

/-- The byte being read has as many bits left as are missing to whole bytes. -/
theorem Holds.length_left {s : BitStream} {bits : List Bool} (h : s.Holds bits) :
    s.bits.length = bits.length % 8 := by
  have hlt := h.left_lt
  rw [← h.all, List.length_append, Bytes.length_bits]
  omega

/-- The stream from the next byte on begins with bytes that stand there. -/
theorem Holds.exists_aligned {s : BitStream} {front bits : List Bool} {t : Bytes}
    (h : s.Holds (front ++ (t.bits ++ bits))) (hfront : front.length < 8)
    (hbits : 8 ∣ bits.length) : ∃ u, s.aligned = t ++ u ∧ u.bits = bits := by
  have hlength : s.bits.length = front.length := by
    rw [h.length_left, List.length_append, List.length_append, Bytes.length_bits]
    omega
  exact Bytes.exists_of_bits_eq_append (List.append_inj h.all hlength).2

theorem Holds.next? {s : BitStream} {b : Bool} {bits : List Bool} (h : s.Holds (b :: bits)) :
    ∃ rest, s.next? = some (b, rest) ∧ rest.Holds bits := by
  obtain ⟨left, bytes⟩ := s
  obtain ⟨hleft, hall⟩ := h
  cases left with
  | cons c left =>
    obtain ⟨rfl, hbits⟩ := List.cons.inj hall
    exact ⟨⟨left, bytes⟩, rfl, Nat.lt_of_succ_lt hleft, hbits⟩
  | nil =>
    cases bytes with
    | nil => simp at hall
    | cons byte bytes =>
      obtain ⟨rfl, hbits⟩ := List.cons.inj hall
      exact ⟨⟨lowBits 7 (byte.toNat / 2), bytes⟩, rfl, by simp [length_lowBits], hbits⟩

theorem Holds.take? {s : BitStream} {front bits : List Bool} (h : s.Holds (front ++ bits)) :
    ∃ rest, take? front.length s = some (front, rest) ∧ rest.Holds bits := by
  induction front generalizing s with
  | nil => exact ⟨s, rfl, h⟩
  | cons b front ih =>
    obtain ⟨s₁, hnext, h₁⟩ := h.next?
    obtain ⟨s₂, htake, h₂⟩ := ih h₁
    refine ⟨s₂, ?_, h₂⟩
    rw [List.length_cons, BitStream.take?, hnext]
    simp [htake]

theorem Holds.number? {s : BitStream} {n x : Nat} {bits : List Bool} (hx : x < 2 ^ n)
    (h : s.Holds (lowBits n x ++ bits)) :
    ∃ rest, number? n s = some (x, rest) ∧ rest.Holds bits := by
  obtain ⟨rest, htake, hrest⟩ := h.take?
  rw [length_lowBits] at htake
  refine ⟨rest, ?_, hrest⟩
  simp only [BitStream.number?, htake, Option.map_some, ofLowBits_lowBits, Nat.mod_eq_of_lt hx]

/-- A reader reads a text as a value. -/
def Reads (read : BitStream → Except ε (α × BitStream)) (text : List Bool) (a : α) : Prop :=
  ∀ ⦃s bits⦄, s.Holds (text ++ bits) → ∃ rest, read s = .ok (a, rest) ∧ rest.Holds bits

end BitStream

end Intake
