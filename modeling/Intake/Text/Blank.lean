/-!
# Blanks and letter case

A blank is a character with the Unicode property White_Space, of which there are twenty-five. `trim`
takes blanks off both ends. Letter case is a matter of the letters A to Z alone: `lower` changes no
other character, and `sameLetters` compares two texts up to that change.
-/

set_option autoImplicit false
set_option relaxedAutoImplicit false

namespace Intake.Text

/-- The Unicode property White_Space. -/
def isBlank (c : Char) : Bool :=
  let n := c.toNat
  (0x09 ≤ n && n ≤ 0x0D) || n == 0x20 || n == 0x85 || n == 0xA0 || n == 0x1680 ||
    (0x2000 ≤ n && n ≤ 0x200A) || n == 0x2028 || n == 0x2029 || n == 0x202F || n == 0x205F ||
    n == 0x3000

/-- The text without the blanks at its two ends. -/
def trimmed (text : List Char) : List Char :=
  ((text.dropWhile isBlank).reverse.dropWhile isBlank).reverse

/-- The text without the blanks at its two ends. -/
def trim (text : String) : String :=
  String.ofList (trimmed text.toList)

/-- A letter from A to Z in lower case, any other character as it is. -/
def lowerChar (c : Char) : Char :=
  if 'A' ≤ c ∧ c ≤ 'Z' then Char.ofNat (c.toNat + 32) else c

/-- The text with the letters A to Z in lower case. -/
def lower (text : String) : String :=
  String.ofList (text.toList.map lowerChar)

/-- Equality up to the case of the letters A to Z. -/
def sameLetters (a b : String) : Bool :=
  lower a == lower b

end Intake.Text
