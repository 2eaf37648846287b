import Intake.Decimal.Shortest
import Intake.Json.Numeral.Approximation
import Intake.Json.Unsuitable

/-!
# Words of sixteen bits

A word is an integer from 0 to 65535. An integer outside that range is a wrong value, while a number
that is not written as an integer, or does not fit into 64 bits, is of a wrong type.
-/

set_option autoImplicit false
set_option relaxedAutoImplicit false

namespace Intake.Json

/-- What a word is called in faults. -/
def wordName : String := "u16"

/-- The word that a numeral is, or the fault of the numeral in front of `rest`. -/
def Numeral.word (n : Numeral) (rest : Bytes) : Except Fault UInt16 :=
  if n.isWord then
    if n.negative ∨ 2 ^ 16 ≤ n.whole.value then
      .error (.before (.wrongValue (.integer n.text) wordName) rest)
    else .ok n.whole.value.toUInt16
  else
    match n.approximation with
    | .ok x => .error (.before (.wrongType (.float (Decimal.text x)) wordName) rest)
    | .error left => .error ⟨.syntactic .range, .fromEnd (rest.length + left) 0⟩

/-- A word. -/
def word16 : Reader UInt16 := fun s ↦
  match h : skipBlanks s with
  | [] => .error (.here .endOfValue [])
  | b :: rest =>
    if Numeral.begins b then
      match hread : Numeral.read (b :: rest) with
      | .error broken => .error broken.fault
      | .ok (n, after) =>
        match n.word after with
        | .error e => .error e
        | .ok w =>
          .ok ⟨w, after,
            Nat.lt_of_lt_of_le (Numeral.length_of_read hread) (length_lt_of_skipBlanks h)⟩
    else .error (unsuitable wordName (b :: rest))

end Intake.Json
