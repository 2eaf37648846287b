import Intake.Json.Numeral

/-!
# Floats of numerals

A numeral that is no integer of 64 bits is approximated by a float. As many of its digits are taken
as fit into 64 bits, and the number that they make is multiplied or divided by a power of ten. The
result need not be the nearest float. An exponent has to fit into 32 bits, and a number that is too
large has no approximation.
-/

set_option autoImplicit false
set_option relaxedAutoImplicit false

namespace Intake.Json.Numeral

/-- Digits that were gathered into a number, and the power of ten that multiplies it. -/
structure Gathered where
  significand : Nat
  power : Int
  deriving DecidableEq, Repr

/-- The digits of a whole part, of which those that do not fit count as zeros. -/
def gatherWhole (significand : Nat) : List Digit → Gathered
  | [] => ⟨significand, 0⟩
  | d :: ds =>
    let next := significand * 10 + d.val
    if 2 ^ 64 ≤ next then ⟨significand, ds.length + 1⟩ else gatherWhole next ds

/-- The digits of a fraction behind those gathered, up to the first that does not fit. -/
def gatherFraction (g : Gathered) : List Digit → Gathered
  | [] => g
  | d :: ds =>
    let next := g.significand * 10 + d.val
    if 2 ^ 64 ≤ next then g else gatherFraction ⟨next, g.power - 1⟩ ds

/-- The digits of a numeral in front of its exponent. -/
def gathered (n : Numeral) : Gathered :=
  gatherFraction (gatherWhole 0 n.whole.toList) ((n.fraction.map Digits.toList).getD [])

/-- The value of an exponent, or how many digits follow the one with which it gets too large. -/
def exponentValue (read : Nat) : List Digit → Except Nat Nat
  | [] => .ok read
  | d :: ds =>
    let next := read * 10 + d.val
    if 2 ^ 31 ≤ next then .error ds.length else exponentValue next ds

/-- The nearest float to a power of ten. -/
def powerOfTen (k : Nat) : Float :=
  Float.ofScientific 1 false k

/-- The number times a power of ten, unless that is too large. A power below the smallest one of a
float is divided by in steps. -/
def scaled (x : Float) (power : Int) : Option Float :=
  if power < -308 then
    if x == 0 then some x else scaled (x / powerOfTen 308) (power + 308)
  else if power < 0 then some (x / powerOfTen power.natAbs)
  else if power ≤ 308 then
    let y := x * powerOfTen power.natAbs
    if y.isInf then none else some y
  else if x == 0 then some x
  else none
termination_by (-power).toNat

/-- The number without its sign, or how many digits of the numeral follow the place at which it is
known to be too large. -/
def magnitude (n : Numeral) : Except Nat Float :=
  let g := n.gathered
  let within (power : Int) : Except Nat Float :=
    match scaled g.significand.toUInt64.toFloat power with
    | some x => .ok x
    | none => .error 0
  match n.exponent with
  | none => within g.power
  | some e =>
    match exponentValue 0 e.digits.toList with
    | .ok k => within (if e.negative then g.power - k else g.power + k)
    | .error left => if g.significand ≠ 0 ∧ !e.negative then .error left else .ok 0

/-- The float that a numeral is approximated by. -/
def approximation (n : Numeral) : Except Nat Float :=
  n.magnitude.map fun x ↦ if n.negative then -x else x

end Intake.Json.Numeral
