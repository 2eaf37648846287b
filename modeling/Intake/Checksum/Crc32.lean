import Intake.Bytes

/-!
# CRC-32

The checksum of the gzip format: the remainder of the message by the polynomial
x³² + x²⁶ + x²³ + x²² + x¹⁶ + x¹² + x¹¹ + x¹⁰ + x⁸ + x⁷ + x⁵ + x⁴ + x² + x + 1, with the bits of
each byte taken from the least significant one. The register starts with all bits set and is
inverted at the end.
-/

set_option autoImplicit false
set_option relaxedAutoImplicit false

namespace Intake.Crc32

/-- The register after one bit. -/
def shift (register : UInt32) : UInt32 :=
  if register &&& 1 = 1 then (register >>> 1) ^^^ 0xEDB88320 else register >>> 1

/-- The register after one byte. -/
def update (register : UInt32) (byte : UInt8) : UInt32 :=
  let r := register ^^^ byte.toUInt32
  shift (shift (shift (shift (shift (shift (shift (shift r)))))))

/-- The checksum of a byte string. -/
def checksum (s : Bytes) : UInt32 :=
  s.foldl update 0xFFFFFFFF ^^^ 0xFFFFFFFF

end Intake.Crc32
