import Intake.Bytes
import Mathlib.Tactic.Common

/-!
# Numbers in bytes

A number is written in a fixed number of bytes, the least significant one first, and is read from
them modulo what they can hold (`littleEndian_ofNumber`). Bytes are what their number is written as
(`ofNumber_littleEndian`).
-/

set_option autoImplicit false
set_option relaxedAutoImplicit false

namespace Intake.Bytes

/-- A number in `width` bytes, the least significant one first. -/
def ofNumber : (width n : Nat) → Bytes
  | 0, _ => []
  | width + 1, n => n.toUInt8 :: ofNumber width (n / 256)

@[simp] theorem length_ofNumber (width n : Nat) : (ofNumber width n).length = width := by
  induction width generalizing n with
  | zero => rfl
  | succ width ih => rw [ofNumber, List.length_cons, ih]

theorem littleEndian_ofNumber (width n : Nat) :
    littleEndian (ofNumber width n) = n % 256 ^ width := by
  induction width generalizing n with
  | zero => rw [ofNumber, littleEndian, Nat.pow_zero, Nat.mod_one]
  | succ width ih =>
    rw [ofNumber, littleEndian, ih, Nat.pow_succ', Nat.mod_mul]
    rfl

theorem ofNumber_littleEndian {width : Nat} {s : Bytes} (h : s.length = width) :
    ofNumber width (littleEndian s) = s := by
  subst h
  induction s with
  | nil => rfl
  | cons b s ih =>
    have hlt := b.toNat_lt
    have hlow : (b.toNat + 256 * littleEndian s).toUInt8 = b := by
      apply UInt8.toNat_inj.mp
      simp only [Nat.toUInt8_eq, UInt8.toNat_ofNat']
      omega
    have hhigh : (b.toNat + 256 * littleEndian s) / 256 = littleEndian s := by omega
    rw [List.length_cons, littleEndian, ofNumber, hlow, hhigh, ih]

theorem ofNumber_mod (width n : Nat) : ofNumber width (n % 256 ^ width) = ofNumber width n := by
  rw [← littleEndian_ofNumber, ofNumber_littleEndian (length_ofNumber width n)]

theorem ofNumber_zero (width : Nat) : ofNumber width 0 = List.replicate width 0 := by
  induction width with
  | zero => rfl
  | succ width ih =>
    rw [ofNumber, Nat.zero_div, ih, List.replicate_succ]
    rfl

theorem littleEndian_replicate_zero (width : Nat) : littleEndian (List.replicate width 0) = 0 := by
  induction width with
  | zero => rfl
  | succ width ih => rw [List.replicate_succ, littleEndian, ih, UInt8.toNat_zero]

end Intake.Bytes
