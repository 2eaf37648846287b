/-!
# Faults of a Zstandard body
-/

set_option autoImplicit false
set_option relaxedAutoImplicit false

namespace Intake.Zstd

/-- Why a Zstandard body could not be read. -/
inductive Fault
  /-- The bytes end inside a frame, or there is no frame. -/
  | incomplete
  /-- The bytes begin no kind of frame. -/
  | unknownFrame
  /-- A reserved bit of a frame descriptor is set. -/
  | unsupported
  /-- The window of a frame is larger than the decoder allows. -/
  | windowTooLarge
  /-- The frame names a dictionary. -/
  | dictionary
  /-- The checksum of the content is wrong. -/
  | checksum
  /-- A block or a size breaks the format. -/
  | corrupted
  /-- There is no room left for the content of a block. -/
  | noRoom
  /-- A section of a block is cut off or followed by something, or a block is too large. -/
  | wrongSize
  /-- A block of literals in four streams has too few of them. -/
  | tooFewLiterals
  /-- A block uses the literal code of the block before, and there is none. -/
  | noEarlierCode
  deriving DecidableEq, Repr

end Intake.Zstd
