/-!
# Portions of a Zstandard body

A body is read in portions, and room for its content is offered in portions. Both can be seen in
what is accepted: a frame of which all bytes are in one portion, and whose content fits into the
room, is decoded in one pass, and any other frame in pieces.
-/

set_option autoImplicit false
set_option relaxedAutoImplicit false

namespace Intake.Zstd

/-- How many bytes of a body are read at once. -/
def portion : Nat := 131075

/-- How many decoded bytes there is room for at once. -/
def offered : Nat := 8192

/-- How many bytes there are from a place in a body up to the end of its portion. -/
def ahead (place : Nat) : Nat :=
  portion - place % portion

theorem ahead_pos (place : Nat) : 0 < ahead place :=
  Nat.sub_pos_of_lt (Nat.mod_lt place (by decide))

end Intake.Zstd
