import Intake.Bytes

/-!
# Releases of the Zstandard decoder

A range of releases of the decoder may be in use. They tell frames and blocks apart alike, and they
differ in what they make of a compressed block that is out of the ordinary: the later ones limit its
literals by the window of the frame, refuse reserved bits, bits behind the last sequence and a copy
from where nothing is, and keep less of the content. `Release` says which of them it is. A body is
decoded by the latest one, and what is proved of decoding holds of all of them.

A copy from further back than the window may meet bytes that have been written over. What it finds
there is a matter of the release too, and nothing is assumed of it.
-/

set_option autoImplicit false
set_option relaxedAutoImplicit false

namespace Intake.Zstd

/-- How a decoder that returns to the beginning of its buffer has come to a block: where it returned
the last time, in the content, and where the time before. What it wrote between the two is still
there, except for as much as it has written since, and nothing before is. -/
structure History where
  turn : Nat
  earliest : Nat

/-- A buffer that the whole content fits into. -/
def History.initial : History := ⟨0, 0⟩

/-- What the decoder has put last to where it put the byte `n` of the content. -/
def History.lastPut (history : History) (content : Array UInt8) (n : Nat) : UInt8 :=
  let again := history.turn + (n - history.earliest)
  content.getD (if n < history.turn ∧ again < content.size then again else n) 0

/-- A release of the decoder. -/
class Release where
  /-- Whether it is one of the later releases, which are stricter. -/
  strict : Bool
  /-- What is found where the decoder put the byte `n` of the content and may have written since. It
  writes literals, and some bytes behind what it copies, further ahead than the content goes. -/
  found : History → (content : Array UInt8) → (n : Nat) → UInt8

/-- The latest release. What it writes further ahead than the content goes is left out. -/
instance latest : Release := ⟨true, History.lastPut⟩

end Intake.Zstd
