import Intake.Arithmetic

/-!
# The shortest decimal of a float

A float stands for every real number that rounds to it. Its shortest decimal is the one of fewest
digits among these numbers, and of several the nearest to the float. Everything is counted in units
of a fraction so small that floats, the bounds between them and the decimals that come into question
are all whole numbers of units.
-/

set_option autoImplicit false
set_option relaxedAutoImplicit false

namespace Intake.Decimal

/-- The power of two and the power of ten in the denominator of a unit. -/
def twos : Nat := 1076

def tens : Nat := 350

/-- The numbers that round to a positive float, in units. -/
structure Neighbourhood where
  low : Nat
  value : Nat
  high : Nat
  /-- Whether the bounds themselves round to the float. -/
  closed : Bool
  deriving DecidableEq, Repr

/-- The numbers that round to the float with these fields. Below a power of two floats are twice as
close, except where they are closest. -/
def Neighbourhood.ofFields (exponent fraction : Nat) : Neighbourhood :=
  let mantissa := if exponent = 0 then fraction else fraction + 2 ^ 52
  let step := 2 ^ (exponent - 1) * 10 ^ tens
  let below := if fraction = 0 ∧ 1 < exponent then 1 else 2
  ⟨(4 * mantissa - below) * step, 4 * mantissa * step, (4 * mantissa + 2) * step,
    mantissa % 2 = 0⟩

namespace Neighbourhood

def contains (n : Neighbourhood) (x : Nat) : Bool :=
  if n.closed then n.low ≤ x && x ≤ n.high else n.low < x && x < n.high

/-- How many digits the number has in front of the last place that units allow for. -/
def places (n : Neighbourhood) : Nat :=
  (Nat.toDigits 10 (n.value / 2 ^ twos)).length

/-- The decimal of so many digits that is nearest to the number, as a multiple of a power of ten. -/
def nearest? (n : Neighbourhood) (digits : Nat) : Option Nat :=
  let grid := 10 ^ (n.places - digits) * 2 ^ twos
  let below := n.value / grid
  let above := below + 1
  match n.contains (below * grid), n.contains (above * grid) with
  | true, true => if above * grid - n.value < n.value - below * grid then some above else some below
  | true, false => some below
  | false, true => some above
  | false, false => none

/-- The shortest decimal, as a number and the power of ten that multiplies it. Seventeen digits are
always enough. -/
def shortest (n : Neighbourhood) : Nat × Int :=
  let decimals := (List.range 17).filterMap fun i ↦
    (n.nearest? (i + 1)).map fun c ↦ (c, (n.places : Int) - (i + 1) - tens)
  decimals.headD (0, 0)

end Neighbourhood

/-- Digits without the zeros at their end. -/
def significant (c : Nat) : List Char :=
  ((Nat.toDigits 10 c).reverse.dropWhile (· == '0')).reverse

/-- The text of the number whose first digit counts so many powers of ten. From five places behind
the point to sixteen in front of it the number is written out, and outside these bounds the power of
ten follows the digits. -/
def textOf (digits : List Char) (exponent : Int) : List Char :=
  if exponent < -5 ∨ 15 < exponent then
    let fraction := match digits.tail with
      | [] => []
      | more => '.' :: more
    let sign := if exponent < 0 then '-' else '+'
    digits.take 1 ++ fraction ++ ['e', sign] ++ Nat.toDigits 10 exponent.natAbs
  else if exponent < 0 then
    ['0', '.'] ++ List.replicate (exponent.natAbs - 1) '0' ++ digits
  else
    let count := exponent.toNat + 1
    let whole := digits.take count ++ List.replicate (count - digits.length) '0'
    match digits.drop count with
    | [] => whole ++ ['.', '0']
    | fraction => whole ++ '.' :: fraction

/-- The shortest text of a finite float. -/
def text (x : Float) : String :=
  let bits := x.toBits.toNat
  let sign := if 2 ^ 63 ≤ bits then ['-'] else []
  let exponent := bits / 2 ^ 52 % 2 ^ 11
  let fraction := bits % 2 ^ 52
  let digits :=
    if exponent = 0 ∧ fraction = 0 then ['0', '.', '0']
    else
      let (c, power) := (Neighbourhood.ofFields exponent fraction).shortest
      let length : Int := (Nat.toDigits 10 c).length
      textOf (significant c) (power + length - 1)
  String.ofList (sign ++ digits)

end Intake.Decimal
