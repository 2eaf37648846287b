import Intake.Text.Hex
import Intake.Text.Utf8

/-!
# Percent escapes

A percent sign and two hexadecimal digits stand for a byte. A percent sign that is not followed by
two such digits stands for itself, and so does every other byte.
-/

set_option autoImplicit false
set_option relaxedAutoImplicit false

namespace Intake.Http

/-- The byte of two hexadecimal digits. -/
def hexByte? (high low : UInt8) : Option UInt8 :=
  match Text.hexDigit? high, Text.hexDigit? low with
  | some high, some low => some (high * 16 + low).toUInt8
  | _, _ => none

/-- The bytes that a text with percent escapes stands for. -/
def unescape : Bytes → Bytes
  | [] => []
  | [a] => [a]
  | [a, b] => [a, b]
  | a :: b :: c :: s =>
    if a = '%'.toUInt8 then
      match hexByte? b c with
      | some byte => byte :: unescape s
      | none => a :: unescape (b :: c :: s)
    else a :: unescape (b :: c :: s)

/-- The text that a segment of a path stands for, if that is UTF-8. -/
def segmentText? (segment : Bytes) : Option String :=
  (Utf8.decode? (unescape segment)).map String.ofList

end Intake.Http
