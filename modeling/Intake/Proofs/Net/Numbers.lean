import Intake.Net.Address.Reader
import Mathlib.Data.List.Forall2
import Mathlib.Data.Nat.Digits.Defs

/-!
# The numbers in an address

Octets, groups, scopes and ports are digits with a bound on how many there may be or on what they
come to. A number is told by its digits (`IsNumber`), and a reader takes one off the front of a text
exactly if it stands there and no further digit follows (`octet_eq_some_iff`, `group_eq_some_iff`,
`decimalBelow_eq_some_iff`).
-/

set_option autoImplicit false
set_option relaxedAutoImplicit false

namespace Intake.Net

/-! ### Numbers -/

/-- A character is a digit of this value. From ten on digits are letters, of either case. -/
def IsDigit (radix : Nat) (c : Char) (d : Nat) : Prop :=
  d < radix ∧ ("0123456789abcdef".toList[d]? = some c ∨ "0123456789ABCDEF".toList[d]? = some c)

instance (radix : Nat) (c : Char) (d : Nat) : Decidable (IsDigit radix c d) :=
  inferInstanceAs (Decidable (_ ∧ _))

/-- A text is one digit or more, which stand for this number. -/
def IsNumber (radix : Nat) (text : List Char) (n : Nat) : Prop :=
  text ≠ [] ∧ ∃ ds, List.Forall₂ (IsDigit radix) text ds ∧ Nat.ofDigits radix ds.reverse = n

/-- A number up to 255 of at most three digits, which begin with a zero only if there are no
others. -/
structure IsOctet (text : List Char) (octet : UInt8) : Prop where
  number : IsNumber 10 text octet.toNat
  length_le : text.length ≤ 3
  no_leading_zero : text.head? = some '0' → text = ['0']

/-- A number of at most four hexadecimal digits. -/
structure IsGroup (text : List Char) (group : UInt16) : Prop where
  number : IsNumber 16 text group.toNat
  length_le : text.length ≤ 4

namespace Reader

variable {radix d : Nat} {c : Char} {s text rest : List Char} {ds : List Nat}

/-- The characters from the one with the code point `first` on are digits if they are so in the
table. -/
theorem isDigit_of_range {first n d : Nat}
    (htable : ∀ i : Fin n, IsDigit 16 (Char.ofNat (first + i.val)) (d + i.val))
    (hfirst : first ≤ c.toNat) (hlast : c.toNat < first + n) :
    IsDigit 16 c (c.toNat - first + d) := by
  have h := htable ⟨c.toNat - first, by omega⟩
  rwa [Nat.add_sub_cancel' hfirst, Char.ofNat_toNat, Nat.add_comm] at h

theorem isDigit_of_digit? (h : digit? 16 c = some d) : IsDigit 16 c d := by
  unfold digit? at h
  dsimp only at h
  split_ifs at h with hdigit hvalue hsmall hvalue hcapital hvalue
  · obtain rfl := Option.some_inj.mp h
    exact isDigit_of_range (n := 10) (d := 0) (by decide) hdigit.1 (Nat.lt_succ_of_le hdigit.2)
  · have hc := isDigit_of_range (n := 6) (d := 10) (by decide) hsmall.1
      (Nat.lt_succ_of_le hsmall.2)
    have hle : 97 ≤ c.toNat := hsmall.1
    rwa [← Option.some_inj.mp h, show c.toNat - 87 = c.toNat - 97 + 10 by omega]
  · have hc := isDigit_of_range (n := 6) (d := 10) (by decide) hcapital.1
      (Nat.lt_succ_of_le hcapital.2)
    have hle : 65 ≤ c.toNat := hcapital.1
    rwa [← Option.some_inj.mp h, show c.toNat - 55 = c.toNat - 65 + 10 by omega]
  · exact absurd ‹16 < 16› (lt_irrefl 16)

theorem digit?_of_isDigit (h : IsDigit 16 c d) : digit? 16 c = some d := by
  have htable : ∀ d : Fin 16,
      "0123456789abcdef".toList[d.val]?.bind (digit? 16) = some d.val ∧
        "0123456789ABCDEF".toList[d.val]?.bind (digit? 16) = some d.val := by decide
  obtain ⟨hd, hc | hc⟩ := h
  · have hsmall := (htable ⟨d, hd⟩).1
    rwa [hc] at hsmall
  · have hcapital := (htable ⟨d, hd⟩).2
    rwa [hc] at hcapital

theorem digit?_eq_filter (hradix : radix ≤ 16) :
    digit? radix c = (digit? 16 c).filter (· < radix) := by
  have hvalue : ∀ value : Nat, (if value < radix then some value else none) =
      (if value < 16 then some value else none).filter (· < radix) := by
    intro value
    by_cases h : value < radix
    · simp [Option.filter_some, h, h.trans_le hradix]
    · by_cases h16 : value < 16
      · simp [Option.filter_some, h, h16]
      · simp [h, h16]
  unfold digit?
  dsimp only
  split
  · exact hvalue _
  split
  · exact hvalue _
  split
  · exact hvalue _
  · simp

theorem digit?_eq_some_iff (hradix : radix ≤ 16) :
    digit? radix c = some d ↔ IsDigit radix c d := by
  rw [digit?_eq_filter hradix, Option.filter_eq_some_iff]
  constructor
  · rintro ⟨h, hd⟩
    exact ⟨by simpa using hd, (isDigit_of_digit? h).2⟩
  · rintro ⟨hd, h⟩
    exact ⟨digit?_of_isDigit ⟨by omega, h⟩, by simpa using hd⟩

/-- Digits of this radix end here. -/
def EndsDigits (radix : Nat) (rest : List Char) : Prop :=
  ∀ c ∈ rest.head?, digit? radix c = none

theorem endsDigits_cons : EndsDigits radix (c :: rest) ↔ digit? radix c = none := by
  simp [EndsDigits]

/-- As many digits are read as there are. -/
theorem digits_eq_iff (hradix : radix ≤ 16) :
    digits radix s = (ds, rest) ↔
      ∃ text, s = text ++ rest ∧ List.Forall₂ (IsDigit radix) text ds ∧ EndsDigits radix rest := by
  constructor
  · intro h
    induction s generalizing ds with
    | nil =>
      obtain ⟨rfl, rfl⟩ := Prod.mk.inj h
      exact ⟨[], rfl, .nil, nofun⟩
    | cons c s ih =>
      rw [digits] at h
      cases hc : digit? radix c with
      | none =>
        rw [hc] at h
        obtain ⟨rfl, rfl⟩ := Prod.mk.inj h
        exact ⟨[], rfl, .nil, endsDigits_cons.mpr hc⟩
      | some d =>
        rw [hc] at h
        obtain ⟨rfl, hrest⟩ := Prod.mk.inj h
        obtain ⟨text, rfl, htext, hends⟩ := ih (Prod.ext rfl hrest)
        exact ⟨c :: text, rfl, .cons ((digit?_eq_some_iff hradix).mp hc) htext, hends⟩
  · rintro ⟨text, rfl, htext, hrest⟩
    induction htext with
    | nil =>
      cases rest with
      | nil => rfl
      | cons c rest => rw [List.nil_append, digits, endsDigits_cons.mp hrest]
    | cons hc htext ih => rw [List.cons_append, digits, (digit?_eq_some_iff hradix).mpr hc, ih]

theorem ofDigits_eq (radix : Nat) (ds : List Nat) :
    ofDigits radix ds = Nat.ofDigits radix ds.reverse := by
  rw [Nat.ofDigits_eq_foldr, List.foldr_reverse, ofDigits]
  simp only [Nat.cast_id, Nat.add_comm, Nat.mul_comm]

theorem eq_zero_iff_of_isDigit (h : IsDigit 10 c d) : c = '0' ↔ d = 0 := by
  constructor
  · rintro rfl
    exact Option.some_inj.mp (((digit?_eq_some_iff (by decide)).mpr h).symm.trans (by decide))
  · rintro rfl
    exact h.2.elim (fun hc ↦ (Option.some_inj.mp hc).symm) fun hc ↦ (Option.some_inj.mp hc).symm

theorem isNumber_iff {n : Nat} : IsNumber radix text n ↔
    ∃ ds, List.Forall₂ (IsDigit radix) text ds ∧ ds ≠ [] ∧ ofDigits radix ds = n := by
  simp only [ofDigits_eq]
  constructor
  · rintro ⟨hne, ds, htext, hn⟩
    refine ⟨ds, htext, ?_, hn⟩
    rintro rfl
    exact hne (List.forall₂_nil_right_iff.mp htext)
  · rintro ⟨ds, htext, hne, hn⟩
    refine ⟨?_, ds, htext, hn⟩
    rintro rfl
    exact hne (List.forall₂_nil_left_iff.mp htext)

/-- What is asked of digits that are read is asked of the digits of a text. -/
theorem exists_digits_iff (hradix : radix ≤ 16) {p : List Nat → Prop} :
    (∃ ds, digits radix s = (ds, rest) ∧ p ds) ↔
      ∃ text, s = text ++ rest ∧ (∃ ds, List.Forall₂ (IsDigit radix) text ds ∧ p ds) ∧
        EndsDigits radix rest := by
  simp only [digits_eq_iff hradix]
  constructor
  · rintro ⟨ds, ⟨text, hs, htext, hrest⟩, hds⟩
    exact ⟨text, hs, ⟨ds, htext, hds⟩, hrest⟩
  · rintro ⟨text, hs, ⟨ds, htext, hds⟩, hrest⟩
    exact ⟨ds, ⟨text, hs, htext, hrest⟩, hds⟩

theorem decimalBelow_eq_some_iff {bound n : Nat} :
    decimalBelow bound s = some (n, rest) ↔
      ∃ text, s = text ++ rest ∧ (IsNumber 10 text n ∧ n < bound) ∧ EndsDigits 10 rest := by
  have hread : decimalBelow bound s = some (n, rest) ↔
      ∃ ds, digits 10 s = (ds, rest) ∧ (ds ≠ [] ∧ ofDigits 10 ds = n) ∧ n < bound := by
    rw [decimalBelow]
    obtain ⟨ds, behind⟩ := digits 10 s
    cases ds with
    | nil => simp
    | cons d ds =>
      simp only [Option.ite_none_right_eq_some, Option.some_inj, Prod.mk.injEq]
      constructor
      · rintro ⟨hlt, rfl, rfl⟩
        exact ⟨d :: ds, ⟨rfl, rfl⟩, ⟨by simp, rfl⟩, hlt⟩
      · rintro ⟨_, ⟨rfl, rfl⟩, ⟨-, rfl⟩, hlt⟩
        exact ⟨hlt, rfl, rfl⟩
  rw [hread, exists_digits_iff (by decide)]
  simp only [isNumber_iff, ← and_assoc, exists_and_right]

theorem isOctet_iff {octet : UInt8} : IsOctet text octet ↔
    ∃ ds, List.Forall₂ (IsDigit 10) text ds ∧ ds ≠ [] ∧ ofDigits 10 ds = octet.toNat ∧
      ds.length ≤ 3 ∧ (ds.head? = some 0 → ds.length ≤ 1) := by
  have hzero : ∀ ds, List.Forall₂ (IsDigit 10) text ds →
      ((text.head? = some '0' → text = ['0']) ↔ (ds.head? = some 0 → ds.length ≤ 1)) := by
    intro ds htext
    cases htext with
    | nil => simp
    | cons hc htext =>
      simp only [List.head?_cons, Option.some_inj, List.cons.injEq, eq_zero_iff_of_isDigit hc]
      exact imp_congr_right fun h ↦ by simp [h, ← htext.length_eq, List.length_eq_zero_iff]
  constructor
  · rintro ⟨hnumber, hlength, hfirst⟩
    obtain ⟨ds, htext, hne, hvalue⟩ := isNumber_iff.mp hnumber
    exact ⟨ds, htext, hne, hvalue, htext.length_eq ▸ hlength, (hzero ds htext).mp hfirst⟩
  · rintro ⟨ds, htext, hne, hvalue, hlength, hfirst⟩
    exact ⟨isNumber_iff.mpr ⟨ds, htext, hne, hvalue⟩, htext.length_eq ▸ hlength,
      (hzero ds htext).mpr hfirst⟩

theorem toUInt8_eq_iff {n : Nat} {b : UInt8} : ¬ 255 < n ∧ n.toUInt8 = b ↔ n = b.toNat := by
  constructor
  · rintro ⟨hn, rfl⟩
    exact (Nat.mod_eq_of_lt (by omega)).symm
  · rintro rfl
    exact ⟨Nat.not_lt.mpr (Nat.le_of_lt_succ b.toNat_lt), UInt8.ofNat_toNat⟩

theorem octet_eq_some_iff {b : UInt8} :
    octet s = some (b, rest) ↔
      ∃ text, s = text ++ rest ∧ IsOctet text b ∧ EndsDigits 10 rest := by
  have hread : octet s = some (b, rest) ↔ ∃ ds, digits 10 s = (ds, rest) ∧ ds ≠ [] ∧
      ofDigits 10 ds = b.toNat ∧ ds.length ≤ 3 ∧ (ds.head? = some 0 → ds.length ≤ 1) := by
    rw [octet]
    obtain ⟨ds, behind⟩ := digits 10 s
    cases ds with
    | nil => simp
    | cons d ds =>
      simp only [Option.ite_none_left_eq_some, Option.some_inj, Prod.mk.injEq, not_or, not_and,
        Nat.not_lt, ← toUInt8_eq_iff]
      constructor
      · rintro ⟨⟨hlength, hfirst, hlt⟩, rfl, rfl⟩
        exact ⟨d :: ds, ⟨rfl, rfl⟩, by simp, ⟨hlt, rfl⟩, hlength, hfirst⟩
      · rintro ⟨_, ⟨rfl, rfl⟩, -, ⟨hlt, rfl⟩, hlength, hfirst⟩
        exact ⟨⟨hlength, hfirst, hlt⟩, rfl, rfl⟩
  rw [hread, exists_digits_iff (by decide)]
  simp only [isOctet_iff]

theorem lt_of_areDigits (htext : List.Forall₂ (IsDigit radix) text ds) : ∀ d ∈ ds, d < radix := by
  induction htext with
  | nil => exact nofun
  | cons hc htext ih => exact List.forall_mem_cons.mpr ⟨hc.1, ih⟩

theorem toUInt16_ofDigits (htext : List.Forall₂ (IsDigit 16) text ds) (hlength : ds.length ≤ 4) :
    (ofDigits 16 ds).toUInt16.toNat = ofDigits 16 ds := by
  have hlt := Nat.ofDigits_lt_base_pow_length (b := 16) (l := ds.reverse) (by decide)
    fun d hd ↦ lt_of_areDigits htext d (List.mem_reverse.mp hd)
  rw [List.length_reverse, ← ofDigits_eq] at hlt
  exact Nat.mod_eq_of_lt (hlt.trans_le (Nat.pow_le_pow_right (by decide) hlength))

theorem isGroup_iff {g : UInt16} : IsGroup text g ↔
    ∃ ds, List.Forall₂ (IsDigit 16) text ds ∧ ds ≠ [] ∧ (ofDigits 16 ds).toUInt16 = g ∧
      ds.length ≤ 4 := by
  constructor
  · rintro ⟨hnumber, hlength⟩
    obtain ⟨ds, htext, hne, hvalue⟩ := isNumber_iff.mp hnumber
    refine ⟨ds, htext, hne, ?_, htext.length_eq ▸ hlength⟩
    rw [hvalue]
    exact UInt16.ofNat_toNat
  · rintro ⟨ds, htext, hne, rfl, hlength⟩
    exact ⟨isNumber_iff.mpr ⟨ds, htext, hne, (toUInt16_ofDigits htext hlength).symm⟩,
      htext.length_eq ▸ hlength⟩

theorem group_eq_some_iff {g : UInt16} :
    group s = some (g, rest) ↔
      ∃ text, s = text ++ rest ∧ IsGroup text g ∧ EndsDigits 16 rest := by
  have hread : group s = some (g, rest) ↔ ∃ ds, digits 16 s = (ds, rest) ∧ ds ≠ [] ∧
      (ofDigits 16 ds).toUInt16 = g ∧ ds.length ≤ 4 := by
    rw [group]
    obtain ⟨ds, behind⟩ := digits 16 s
    cases ds with
    | nil => simp
    | cons d ds =>
      simp only [Option.ite_none_left_eq_some, Option.some_inj, Prod.mk.injEq, Nat.not_lt]
      constructor
      · rintro ⟨hlength, rfl, rfl⟩
        exact ⟨d :: ds, ⟨rfl, rfl⟩, by simp, rfl, hlength⟩
      · rintro ⟨_, ⟨rfl, rfl⟩, -, rfl, hlength⟩
        exact ⟨hlength, rfl, rfl⟩
  rw [hread, exists_digits_iff le_rfl]
  simp only [isGroup_iff]

end Reader
end Intake.Net
