import Intake.Arithmetic

/-!
# Numerals

A JSON number is kept as it is written, digit by digit, because no fixed width holds them all. Only
the spelling of the exponent is not kept: its letter is written small and its sign is written
always.
-/

set_option autoImplicit false
set_option relaxedAutoImplicit false

namespace Intake.Json

/-- A decimal digit. -/
abbrev Digit := Fin 10

/-- There are digits, so a number may be written for a digit. -/
instance neZero_ten : NeZero 10 :=
  ⟨by decide⟩

namespace Digit

def char (d : Digit) : Char :=
  Nat.digitChar d.val

/-- The number that digits stand for, the most significant one first. -/
def value (ds : List Digit) : Nat :=
  ds.foldl (fun (n : Nat) (d : Digit) ↦ n * 10 + d.val) 0

end Digit

/-- One digit or more. -/
structure Digits where
  first : Digit
  more : List Digit
  deriving DecidableEq, Repr

namespace Digits

def toList (ds : Digits) : List Digit :=
  ds.first :: ds.more

def chars (ds : Digits) : List Char :=
  ds.toList.map Digit.char

def value (ds : Digits) : Nat :=
  Digit.value ds.toList

/-- The digits of a number, in front of other digits. -/
def onto (more : List Digit) (n : Nat) : Digits :=
  if h : n < 10 then ⟨⟨n, h⟩, more⟩ else onto (⟨n % 10, Nat.mod_lt n (by decide)⟩ :: more) (n / 10)

theorem first_onto_ne_zero {more : List Digit} {n : Nat} (h : n ≠ 0) : (onto more n).first ≠ 0 := by
  fun_induction onto more n with
  | case1 more n hn => simpa [Fin.ext_iff] using h
  | case2 more n hn ih => exact ih (by omega)

/-- Digits that begin with a zero only if there are no others. -/
theorem more_onto_nil {n : Nat} (h : (onto [] n).first = 0) : (onto [] n).more = [] := by
  have hn : n = 0 := Decidable.byContradiction fun hn ↦ first_onto_ne_zero hn h
  subst hn
  rw [onto]
  rfl

end Digits

/-- The power of ten behind the letter `e`. -/
structure Exponent where
  negative : Bool
  digits : Digits
  deriving DecidableEq, Repr

def Exponent.chars (e : Exponent) : List Char :=
  'e' :: (if e.negative then '-' else '+') :: e.digits.chars

/-- A number as it is written. Its whole part begins with a zero only if it has no other digit. -/
structure Numeral where
  negative : Bool
  whole : Digits
  fraction : Option Digits
  exponent : Option Exponent
  no_leading_zero : whole.first = 0 → whole.more = []
  deriving DecidableEq, Repr

namespace Numeral

def fractionChars : Option Digits → List Char
  | none => []
  | some ds => '.' :: ds.chars

def exponentChars : Option Exponent → List Char
  | none => []
  | some e => e.chars

def signChars (negative : Bool) : List Char :=
  if negative then ['-'] else []

def chars (n : Numeral) : List Char :=
  signChars n.negative ++ n.whole.chars ++ fractionChars n.fraction ++ exponentChars n.exponent

/-- The numeral of a natural number. -/
def ofNat (n : Nat) : Numeral where
  negative := false
  whole := .onto [] n
  fraction := none
  exponent := none
  no_leading_zero := Digits.more_onto_nil

/-- The text of the number. -/
def text (n : Numeral) : String :=
  String.ofList n.chars

/-- Whether the number is written as an integer and fits into 64 bits, unsigned if it has no sign
and signed otherwise. A negative zero is no such integer. -/
def isWord (n : Numeral) : Bool :=
  n.fraction.isNone && n.exponent.isNone &&
    if n.negative then 0 < n.whole.value && n.whole.value ≤ 2 ^ 63 else n.whole.value < 2 ^ 64

end Numeral

end Intake.Json
