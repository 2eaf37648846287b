import Intake.Json.Numeral.Reader
import Intake.Proofs.Json.Tree
import Intake.Proofs.Text.Utf8

/-!
# Reading a number

The numbers that can be read off the front of a text are the literals of the grammar
(`exists_literal_of_read`). A literal is read as a whole where the text behind it does not go on
with it (`read_literal`), since a reader takes every digit there is. Reading keeps a number up to
the spelling of its exponent.
-/

set_option autoImplicit false
set_option relaxedAutoImplicit false

namespace Intake.Json

open Utf8

/-! ### Digits -/

theorem encode_digit (d : Digit) : String.utf8EncodeChar d.char = [d.char.toUInt8] := by
  revert d
  decide

theorem ofByte?_digit (d : Digit) : Digit.ofByte? d.char.toUInt8 = some d := by
  revert d
  decide

theorem eq_digit_of_ofByte? {b : UInt8} {d : Digit} (h : Digit.ofByte? b = some d) :
    b = d.char.toUInt8 := by
  have hbyte : ∀ d : Digit, d.char.toUInt8.toNat = d.val + 48 := by decide
  unfold Digit.ofByte? at h
  split_ifs at h with hrange
  rw [← UInt8.toNat_inj, hbyte, ← Option.some_inj.mp h]
  exact (Nat.sub_add_cancel hrange.1).symm

/-- The digits of a number end here. -/
def EndsDigits (rest : Bytes) : Prop :=
  ∀ b ∈ rest.head?, Digit.ofByte? b = none

/-- A number ends here: neither a digit nor a point nor an exponent follows. -/
def EndsNumber (rest : Bytes) : Prop :=
  ∀ b ∈ rest.head?, Digit.ofByte? b = none ∧ b ≠ '.'.toUInt8 ∧ b ≠ 'e'.toUInt8 ∧ b ≠ 'E'.toUInt8

theorem EndsNumber.endsDigits {rest : Bytes} (h : EndsNumber rest) : EndsDigits rest :=
  fun b hb ↦ (h b hb).1

namespace Numeral

theorem digitsOnto_encode (read ds : List Digit) {rest : Bytes} (hrest : EndsDigits rest) :
    digitsOnto read (encode (ds.map Digit.char) ++ rest) = (read.reverse ++ ds, rest) := by
  induction ds generalizing read with
  | nil =>
    cases rest with
    | nil => simp [digitsOnto]
    | cons b rest => simp [digitsOnto, hrest b rfl]
  | cons d ds ih =>
    rw [List.map_cons, encode_cons, encode_digit, List.append_assoc, List.singleton_append,
      digitsOnto, ofByte?_digit]
    simp only [ih, List.reverse_cons, List.append_assoc, List.singleton_append]

theorem exists_of_digitsOnto {read ds : List Digit} {s rest : Bytes}
    (h : digitsOnto read s = (ds, rest)) :
    ∃ more, ds = read.reverse ++ more ∧ s = encode (more.map Digit.char) ++ rest := by
  induction s generalizing read with
  | nil =>
    obtain ⟨rfl, rfl⟩ := Prod.mk.inj h
    exact ⟨[], by simp, rfl⟩
  | cons b s ih =>
    rw [digitsOnto] at h
    split at h
    · rename_i d hd
      obtain ⟨more, rfl, rfl⟩ := ih h
      refine ⟨d :: more, by simp, ?_⟩
      rw [eq_digit_of_ofByte? hd, List.map_cons, encode_cons, encode_digit]
      rfl
    · obtain ⟨rfl, rfl⟩ := Prod.mk.inj h
      exact ⟨[], by simp, rfl⟩

theorem digits_encode (taken : Bool) (ds : Digits) {rest : Bytes} (hrest : EndsDigits rest) :
    digits taken (encode ds.chars ++ rest) = .ok (ds, rest) := by
  rw [Digits.chars, Digits.toList, List.map_cons, encode_cons, encode_digit, List.append_assoc,
    List.singleton_append, digits, ofByte?_digit]
  simp only [digitsOnto_encode [] ds.more hrest, List.reverse_nil, List.nil_append]

theorem eq_of_digits {taken : Bool} {s rest : Bytes} {ds : Digits}
    (h : digits taken s = .ok (ds, rest)) : s = encode ds.chars ++ rest := by
  cases s with
  | nil => simp [digits] at h
  | cons b s =>
    rw [digits] at h
    split at h
    · rename_i d hd
      obtain ⟨rfl, hrest⟩ := Prod.mk.inj (Except.ok.inj h)
      obtain ⟨more, hmore, hs⟩ := exists_of_digitsOnto (Prod.eta (digitsOnto [] s)).symm
      rw [hrest] at hs
      rw [Digits.chars, Digits.toList, List.map_cons, encode_cons, encode_digit, hmore, hs,
        eq_digit_of_ofByte? hd]
      rfl
    · simp at h

/-! ### Parts of a number -/

theorem encode_minus : String.utf8EncodeChar '-' = ['-'.toUInt8] := by decide

theorem encode_plus : String.utf8EncodeChar '+' = ['+'.toUInt8] := by decide

/-- Digits begin with a digit, which is no sign. -/
theorem exists_encode_digits (ds : Digits) :
    ∃ s, encode ds.chars = ds.first.char.toUInt8 :: s ∧
      ds.first.char.toUInt8 ≠ '-'.toUInt8 ∧ ds.first.char.toUInt8 ≠ '+'.toUInt8 := by
  have hsign : ∀ d : Digit, d.char.toUInt8 ≠ '-'.toUInt8 ∧ d.char.toUInt8 ≠ '+'.toUInt8 := by
    decide
  refine ⟨encode (ds.more.map Digit.char), ?_, hsign ds.first⟩
  rw [Digits.chars, Digits.toList, List.map_cons, encode_cons, encode_digit]
  rfl

theorem sign_encode (negative : Bool) (ds : Digits) (rest : Bytes) :
    sign (encode (signChars negative) ++ (encode ds.chars ++ rest)) =
      (negative, encode ds.chars ++ rest) := by
  obtain ⟨s, hs, hminus, -⟩ := exists_encode_digits ds
  cases negative with
  | true => simp [signChars, encode_minus, sign]
  | false => simp [signChars, sign, hs, hminus]

theorem eq_of_sign {s rest : Bytes} {negative : Bool} (h : sign s = (negative, rest)) :
    s = encode (signChars negative) ++ rest := by
  cases s with
  | nil =>
    obtain ⟨rfl, rfl⟩ := Prod.mk.inj h
    rfl
  | cons b s =>
    rw [sign] at h
    split_ifs at h with hb
    · obtain ⟨rfl, rfl⟩ := Prod.mk.inj h
      rw [hb, signChars, if_pos rfl, encode_cons, encode_minus]
      rfl
    · obtain ⟨rfl, rfl⟩ := Prod.mk.inj h
      rfl

theorem exponentSign_encode (mark : Option Bool) (ds : Digits) (rest : Bytes) :
    exponentSign (encode (WrittenExponent.signChars mark) ++ (encode ds.chars ++ rest)) =
      (mark.getD false, encode ds.chars ++ rest) := by
  obtain ⟨s, hs, hminus, hplus⟩ := exists_encode_digits ds
  have hne : '-'.toUInt8 ≠ '+'.toUInt8 := by decide
  match mark with
  | none => simp [WrittenExponent.signChars, exponentSign, sign, hs, hminus, hplus]
  | some false => simp [WrittenExponent.signChars, encode_plus, exponentSign]
  | some true => simp [WrittenExponent.signChars, encode_minus, exponentSign, sign, hne]

theorem exists_of_exponentSign {s rest : Bytes} {negative : Bool}
    (h : exponentSign s = (negative, rest)) :
    ∃ mark : Option Bool, mark.getD false = negative ∧
      s = encode (WrittenExponent.signChars mark) ++ rest := by
  cases s with
  | nil =>
    obtain ⟨rfl, rfl⟩ := Prod.mk.inj h
    exact ⟨none, rfl, rfl⟩
  | cons b s =>
    rw [exponentSign] at h
    split_ifs at h with hb
    · obtain ⟨rfl, rfl⟩ := Prod.mk.inj h
      refine ⟨some false, rfl, ?_⟩
      rw [hb, WrittenExponent.signChars, encode_cons, encode_plus]
      rfl
    · cases negative with
      | true => exact ⟨some true, rfl, eq_of_sign h⟩
      | false => exact ⟨none, rfl, eq_of_sign h⟩

theorem encode_point : String.utf8EncodeChar '.' = ['.'.toUInt8] := by decide

theorem fractionPart_encode (fraction : Option Digits) {rest : Bytes}
    (hrest : EndsDigits rest) (hpoint : ∀ b ∈ rest.head?, b ≠ '.'.toUInt8) :
    fractionPart (encode (fractionChars fraction) ++ rest) = .ok (fraction, rest) := by
  cases fraction with
  | none =>
    cases rest with
    | nil => rfl
    | cons b rest => simp [fractionChars, fractionPart, hpoint b rfl]
  | some ds =>
    simp [fractionChars, encode_point, fractionPart, digits_encode false ds hrest, Except.map]

theorem eq_of_fractionPart {s rest : Bytes} {fraction : Option Digits}
    (h : fractionPart s = .ok (fraction, rest)) : s = encode (fractionChars fraction) ++ rest := by
  cases s with
  | nil =>
    obtain ⟨rfl, rfl⟩ := Prod.mk.inj (Except.ok.inj h)
    rfl
  | cons b s =>
    rw [fractionPart] at h
    split_ifs at h with hb
    · obtain ⟨⟨ds, tail⟩, hds, heq⟩ := map_eq_ok.1 h
      obtain ⟨rfl, rfl⟩ := Prod.mk.inj heq
      rw [hb, eq_of_digits hds, fractionChars, encode_cons, encode_point]
      rfl
    · obtain ⟨rfl, rfl⟩ := Prod.mk.inj (Except.ok.inj h)
      rfl

theorem encode_exponentLetter (capital : Bool) :
    String.utf8EncodeChar (if capital then 'E' else 'e') =
      [if capital then 'E'.toUInt8 else 'e'.toUInt8] := by
  revert capital
  decide

theorem exponentPart_encode (exponent : Option WrittenExponent) {rest : Bytes}
    (hrest : EndsNumber rest) :
    exponentPart (encode (WrittenExponent.optionalChars exponent) ++ rest) =
      .ok (exponent.map WrittenExponent.kept, rest) := by
  cases exponent with
  | none =>
    cases rest with
    | nil => rfl
    | cons b rest =>
      obtain ⟨-, -, hsmall, hcapital⟩ := hrest b rfl
      simp [WrittenExponent.optionalChars, exponentPart, hsmall, hcapital]
  | some e =>
    have hletter : (if e.capital then 'E'.toUInt8 else 'e'.toUInt8) = 'e'.toUInt8 ∨
        (if e.capital then 'E'.toUInt8 else 'e'.toUInt8) = 'E'.toUInt8 := by
      cases e.capital
      · exact Or.inl rfl
      · exact Or.inr rfl
    rw [WrittenExponent.optionalChars, WrittenExponent.chars, encode_cons, encode_exponentLetter,
      List.append_assoc, List.singleton_append, exponentPart, if_pos hletter, encode_append,
      List.append_assoc]
    simp only [exponentSign_encode, digits_encode true e.digits hrest.endsDigits]
    rfl

theorem exists_of_exponentPart {s rest : Bytes} {exponent : Option Exponent}
    (h : exponentPart s = .ok (exponent, rest)) :
    ∃ written : Option WrittenExponent, written.map WrittenExponent.kept = exponent ∧
      s = encode (WrittenExponent.optionalChars written) ++ rest := by
  cases s with
  | nil =>
    obtain ⟨rfl, rfl⟩ := Prod.mk.inj (Except.ok.inj h)
    exact ⟨none, rfl, rfl⟩
  | cons b s =>
    rw [exponentPart] at h
    split_ifs at h with hb
    · obtain ⟨⟨ds, tail⟩, hds, heq⟩ := map_eq_ok.1 h
      obtain ⟨rfl, rfl⟩ := Prod.mk.inj heq
      obtain ⟨mark, hmark, hs⟩ := exists_of_exponentSign (Prod.eta (exponentSign s)).symm
      refine ⟨some ⟨decide (b = 'E'.toUInt8), mark, ds⟩, ?_, ?_⟩
      · simp [WrittenExponent.kept, hmark]
      · have hletter : (if decide (b = 'E'.toUInt8) then 'E'.toUInt8 else 'e'.toUInt8) = b := by
          rcases hb with rfl | rfl
          · decide
          · decide
        rw [WrittenExponent.optionalChars, WrittenExponent.chars, encode_cons,
          encode_exponentLetter, hletter, encode_append, List.append_assoc, List.append_assoc,
          ← eq_of_digits hds, ← hs]
        rfl
    · obtain ⟨rfl, rfl⟩ := Prod.mk.inj (Except.ok.inj h)
      exact ⟨none, rfl, rfl⟩

/-! ### Whole numbers -/

theorem endsFraction_exponent (exponent : Option WrittenExponent) {rest : Bytes}
    (hrest : EndsNumber rest) :
    ∀ b ∈ (encode (WrittenExponent.optionalChars exponent) ++ rest).head?,
      Digit.ofByte? b = none ∧ b ≠ '.'.toUInt8 := by
  cases exponent with
  | none => exact fun b hb ↦ ⟨(hrest b hb).1, (hrest b hb).2.1⟩
  | some e =>
    rw [WrittenExponent.optionalChars, WrittenExponent.chars, encode_cons, encode_exponentLetter]
    intro b hb
    obtain rfl := Option.some_inj.mp hb
    cases e.capital
    · decide
    · decide

theorem endsDigits_fraction (fraction : Option Digits) {rest : Bytes} (hrest : EndsDigits rest) :
    EndsDigits (encode (fractionChars fraction) ++ rest) := by
  cases fraction with
  | none => exact hrest
  | some ds =>
    rw [fractionChars, encode_cons, encode_point]
    intro b hb
    obtain rfl := Option.some_inj.mp hb
    decide

/-- A literal is read as a whole where the text behind it does not go on with it. -/
theorem read_literal (l : Literal) {rest : Bytes} (hrest : EndsNumber rest) :
    read (encode l.chars ++ rest) = .ok (l.numeral, rest) := by
  have hexponent := endsFraction_exponent l.exponent hrest
  have hends : EndsDigits (encode (WrittenExponent.optionalChars l.exponent) ++ rest) :=
    fun b hb ↦ (hexponent b hb).1
  rw [Literal.chars, encode_append, encode_append, encode_append, List.append_assoc,
    List.append_assoc, List.append_assoc]
  simp only [read, sign_encode, digits_encode true l.whole (endsDigits_fraction l.fraction hends),
    fractionPart_encode l.fraction hends fun b hb ↦ (hexponent b hb).2,
    exponentPart_encode l.exponent hrest]
  rw [dif_pos l.no_leading_zero]
  rfl

/-- What is read off the front as a number is a literal. -/
theorem exists_literal_of_read {s rest : Bytes} {n : Numeral} (h : read s = .ok (n, rest)) :
    ∃ l : Literal, l.numeral = n ∧ s = encode l.chars ++ rest := by
  simp only [read] at h
  split at h
  · simp at h
  rename_i whole s₁ hwhole
  split_ifs at h with hzero
  split at h
  · simp at h
  rename_i fraction s₂ hfraction
  split at h
  · simp at h
  rename_i exponent s₃ hexponent
  obtain ⟨rfl, rfl⟩ := Prod.mk.inj (Except.ok.inj h)
  obtain ⟨written, rfl, hs₂⟩ := exists_of_exponentPart hexponent
  refine ⟨⟨(sign s).1, whole, fraction, written, hzero⟩, rfl, ?_⟩
  rw [Literal.chars, encode_append, encode_append, encode_append, List.append_assoc,
    List.append_assoc, List.append_assoc, ← hs₂, ← eq_of_fractionPart hfraction,
    ← eq_of_digits hwhole]
  exact eq_of_sign (Prod.eta (sign s)).symm

theorem endsNumber_nil : EndsNumber [] :=
  fun _ hb ↦ absurd hb (by simp)

/-- A literal begins with a minus or a digit. -/
theorem exists_encode_literal (l : Literal) :
    ∃ b s, encode l.chars = b :: s ∧ begins b = true := by
  obtain ⟨s, hs, -⟩ := exists_encode_digits l.whole
  have hdigit : ∀ d : Digit, begins d.char.toUInt8 = true := by decide
  have hminus : begins '-'.toUInt8 = true := by decide
  rw [Literal.chars, encode_append, encode_append, encode_append, hs]
  cases l.negative with
  | true => exact ⟨_, _, rfl, hminus⟩
  | false => exact ⟨_, _, rfl, hdigit l.whole.first⟩

/-- The texts that are a number are the literals. -/
theorem ofText_eq_ok_iff {text : List Char} {n : Numeral} :
    ofText (encode text) = .ok n ↔ ∃ l : Literal, l.numeral = n ∧ text = l.chars := by
  constructor
  · intro h
    unfold ofText at h
    split at h
    · simp at h
    · rename_i m rest hleft hread
      obtain rfl := Except.ok.inj h
      obtain ⟨l, rfl, htext⟩ := exists_literal_of_read hread
      have hrest : rest = [] := by
        unfold leftOver at hleft
        split_ifs at hleft with hbegins
        · rwa [hread] at hleft
        · exact absurd (by rw [hleft]; rfl) hbegins
      rw [hrest, List.append_nil] at htext
      exact ⟨l, rfl, encode_injective htext⟩
    · simp at h
  · rintro ⟨l, rfl, rfl⟩
    obtain ⟨b, s, hs, hbegins⟩ := exists_encode_literal l
    have hread := read_literal l endsNumber_nil
    rw [List.append_nil] at hread
    have hleft : leftOver (encode l.chars) = [] := by
      rw [leftOver, hread, if_pos (by rw [hs]; exact hbegins)]
    rw [ofText, hleft, hread]

end Numeral

end Intake.Json
