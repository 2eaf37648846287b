import Intake.Proofs.Text.Utf8
import Mathlib.Data.String.Basic

/-!
# The order of texts

Texts are compared character by character, and their forms byte by byte. Both comparisons come out
alike (`encode_lt_encode_iff`), because the first bytes of forms ascend with the number of bytes
behind them, and forms of one length are numbers to the base 64.
-/

set_option autoImplicit false
set_option relaxedAutoImplicit false

namespace Intake.Utf8

theorem cons_lt_cons_iff {a b : UInt8} {s t : Bytes} :
    a :: s < b :: t ↔ a.toNat < b.toNat ∨ a.toNat = b.toNat ∧ s < t := by
  rw [List.cons_lt_cons_iff, UInt8.lt_iff_toNat_lt, UInt8.toNat_inj]

/-- The first byte of a form is as large as the number of bytes behind it tells. -/
theorem exists_first_byte (c : Char) :
    ∃ first more, String.utf8EncodeChar c = first :: more ∧
      (c.toNat < 0x80 → first.toNat < 0x80) ∧
      (0x80 ≤ c.toNat → c.toNat < 0x800 → 0xC0 ≤ first.toNat ∧ first.toNat < 0xE0) ∧
      (0x800 ≤ c.toNat → c.toNat < 0x10000 → 0xE0 ≤ first.toNat ∧ first.toNat < 0xF0) ∧
      (0x10000 ≤ c.toNat → 0xF0 ≤ first.toNat) := by
  have hlt := toNat_lt c
  by_cases h1 : c.toNat < 0x80
  · have hbyte : c.toUInt8.toNat = c.toNat := toNat_ofNat (n := c.toNat) (by omega)
    exact ⟨_, _, utf8EncodeChar_of_lt h1, by omega, by omega, by omega, by omega⟩
  by_cases h2 : c.toNat < 0x800
  · have hbyte : (UInt8.ofNat (c.toNat / 64 + 0xC0)).toNat = c.toNat / 64 + 0xC0 :=
      toNat_ofNat (by omega)
    exact ⟨_, _, utf8EncodeChar_of_lt_two (by omega) h2, by omega, by omega, by omega, by omega⟩
  by_cases h3 : c.toNat < 0x10000
  · have hbyte : (UInt8.ofNat (c.toNat / 4096 + 0xE0)).toNat = c.toNat / 4096 + 0xE0 :=
      toNat_ofNat (by omega)
    exact ⟨_, _, utf8EncodeChar_of_lt_three (by omega) h3, by omega, by omega, by omega, by omega⟩
  · have hbyte : (UInt8.ofNat (c.toNat / 262144 + 0xF0)).toNat = c.toNat / 262144 + 0xF0 :=
      toNat_ofNat (by omega)
    exact ⟨_, _, utf8EncodeChar_of_le_four (by omega), by omega, by omega, by omega, by omega⟩

/-- The form of a lesser character comes first, whatever stands behind the two. -/
theorem utf8EncodeChar_append_lt {c d : Char} (h : c < d) (s t : Bytes) :
    String.utf8EncodeChar c ++ s < String.utf8EncodeChar d ++ t := by
  have hlt : c.toNat < d.toNat := h
  have hd := toNat_lt d
  -- Forms of one length differ in a digit to the base 64, and others in their first byte.
  by_cases h1 : d.toNat < 0x80
  · rw [utf8EncodeChar_of_lt h1, utf8EncodeChar_of_lt (c := c) (by omega)]
    have hc : c.toUInt8.toNat = c.toNat := toNat_ofNat (n := c.toNat) (by omega)
    have hd : d.toUInt8.toNat = d.toNat := toNat_ofNat (n := d.toNat) (by omega)
    simp only [List.cons_append, cons_lt_cons_iff, hc, hd]
    omega
  by_cases h2 : 0x80 ≤ c.toNat ∧ d.toNat < 0x800
  · rw [utf8EncodeChar_of_lt_two h2.1 (by omega), utf8EncodeChar_of_lt_two (by omega) h2.2]
    simp (disch := omega) only [List.cons_append, cons_lt_cons_iff, toNat_ofNat]
    omega
  by_cases h3 : 0x800 ≤ c.toNat ∧ d.toNat < 0x10000
  · rw [utf8EncodeChar_of_lt_three h3.1 (by omega), utf8EncodeChar_of_lt_three (by omega) h3.2]
    simp (disch := omega) only [List.cons_append, cons_lt_cons_iff, toNat_ofNat]
    omega
  by_cases h4 : 0x10000 ≤ c.toNat
  · rw [utf8EncodeChar_of_le_four h4, utf8EncodeChar_of_le_four (c := d) (by omega)]
    simp (disch := omega) only [List.cons_append, cons_lt_cons_iff, toNat_ofNat]
    omega
  · obtain ⟨a, s', hform, hc1, hc2, hc3, -⟩ := exists_first_byte c
    obtain ⟨b, t', hform', -, hd2, hd3, hd4⟩ := exists_first_byte d
    rw [hform, hform']
    exact cons_lt_cons_iff.mpr (Or.inl (by omega))

theorem encode_lt_encode {s t : List Char} (h : s < t) : encode s < encode t := by
  induction s generalizing t with
  | nil =>
    cases t with
    | nil => exact absurd h (List.lt_irrefl [])
    | cons d t =>
      obtain ⟨first, more, hform, -⟩ := exists_first_byte d
      rw [encode_cons, hform]
      exact List.nil_lt_cons _ _
  | cons c s ih =>
    cases t with
    | nil => exact absurd h (List.not_lt_nil _)
    | cons d t =>
      rw [encode_cons, encode_cons]
      rcases List.cons_lt_cons_iff.mp h with hlt | ⟨rfl, hlt⟩
      · exact utf8EncodeChar_append_lt hlt _ _
      · exact List.append_left_lt (ih hlt)

/-- Forms are in the order of their texts. -/
theorem encode_lt_encode_iff {s t : List Char} : encode s < encode t ↔ s < t := by
  refine ⟨fun h ↦ ?_, encode_lt_encode⟩
  rcases lt_trichotomy s t with hlt | rfl | hgt
  · exact hlt
  · exact absurd h (List.lt_irrefl _)
  · exact absurd h (List.lt_asymm (encode_lt_encode hgt))

/-- Keys are compared by their forms. -/
theorem encode_toList_lt_iff {a b : String} : encode a.toList < encode b.toList ↔ a < b := by
  rw [encode_lt_encode_iff, String.lt_iff_toList_lt]

end Intake.Utf8
