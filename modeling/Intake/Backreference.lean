import Intake.Bytes

/-!
# Copies of earlier output

A back reference names bytes by their distance from the end of what has been written. It may reach
into its own copy, and whatever it takes from before the beginning is zero. A copy adds exactly its
length (`size_copyBack`).
-/

set_option autoImplicit false
set_option relaxedAutoImplicit false

namespace Intake

/-- The byte `distance` places before the end of the output. -/
def byteBack (output : Array UInt8) (distance : Nat) : UInt8 :=
  if distance ≤ output.size then output.getD (output.size - distance) 0 else 0

/-- The output after `length` bytes have been copied one at a time. -/
def copyBack (distance : Nat) : (length : Nat) → Array UInt8 → Array UInt8
  | 0, output => output
  | length + 1, output => copyBack distance length (output.push (byteBack output distance))

theorem size_copyBack (distance length : Nat) (output : Array UInt8) :
    (copyBack distance length output).size = output.size + length := by
  induction length generalizing output with
  | zero => rfl
  | succ length ih =>
    rw [copyBack, ih, Array.size_push]
    omega

end Intake
