import Intake.Json.Escape
import Intake.Text.Utf8

/-!
# JSON strings

A string stands between quotation marks. Between them no control character is allowed, and what they
enclose has to be UTF-8, which is looked at only when the second mark has been found.
-/

set_option autoImplicit false
set_option relaxedAutoImplicit false

namespace Intake.Json

namespace Quote

/-- The bytes up to the second quotation mark, with escapes undone, behind those in the reversed
list `read`. The text that is read lies in `source`. -/
def bytesOnto (source read s : Bytes) (h : s.length ≤ source.length) :
    Except Fault (Taken source Bytes) :=
  match s with
  | [] => .error (.here .endOfString [])
  | b :: rest =>
    if b = '"'.toUInt8 then .ok ⟨read.reverse, rest, h⟩
    else if b = '\\'.toUInt8 then
      match Escape.character rest with
      | .error e => .error e
      | .ok ⟨c, rest, _⟩ =>
        bytesOnto source ((String.utf8EncodeChar c).reverseAux read) rest
          (by simp only [List.length_cons] at h; omega)
    else if b < 0x20 then .error (.here .control (b :: rest))
    else bytesOnto source (b :: read) rest (by simp only [List.length_cons] at h; omega)
termination_by s.length

/-- A string, from behind the first quotation mark. Bytes that are no UTF-8 count as unread from the
first such byte on. -/
def read : Reader String := fun s ↦
  match bytesOnto s [] s (length_le_self s) with
  | .error e => .error e
  | .ok ⟨bytes, rest, shorter⟩ =>
    match Utf8.wellFormed bytes with
    | (text, []) => .ok ⟨String.ofList text, rest, shorter⟩
    | (_, bad) => .error ⟨.syntactic .codePoint, .fromEnd rest.length bad.length⟩

/-- A control character in two hexadecimal digits. -/
def control (c : Char) : List Char :=
  ['\\', 'u', '0', '0', Nat.digitChar (c.toNat / 16), Nat.digitChar (c.toNat % 16)]

/-- One character of a string as it is written. -/
def char (c : Char) : List Char :=
  match c with
  | '"' => ['\\', '"']
  | '\\' => ['\\', '\\']
  | '\x08' => ['\\', 'b']
  | '\t' => ['\\', 't']
  | '\n' => ['\\', 'n']
  | '\x0c' => ['\\', 'f']
  | '\r' => ['\\', 'r']
  | c => if c.toNat < 0x20 then control c else [c]

/-- The text of a string, between its quotation marks, behind `out`. -/
def onto (out : String) (text : String) : String :=
  (text.toList.foldl (fun out c ↦ (char c).foldl String.push out) (out.push '"')).push '"'

end Quote

end Intake.Json
