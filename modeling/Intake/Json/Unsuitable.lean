import Intake.Json.Numeral.Reader
import Intake.Json.Quote

/-!
# Texts of another type

Where a value of one type is expected and another one stands, the fault names what stands there. A
word, a number or a string is read for that purpose, so its own fault comes first, and the place is
behind it. A list or an object is not looked into, and the place is in front of it.
-/

set_option autoImplicit false
set_option relaxedAutoImplicit false

namespace Intake.Json

/-- How a fault speaks of a number. -/
def Found.ofNumeral (n : Numeral) : Found :=
  if n.isWord then .integer n.text else .number

/-- What a text without blanks in front begins with, and what follows that. -/
def found : Bytes → Except Fault (Found × Bytes)
  | [] => .error (.here .endOfValue [])
  | b :: s =>
    if b = 'n'.toUInt8 then (word ['u', 'l', 'l'] s).map (.null, ·)
    else if b = 't'.toUInt8 then (word ['r', 'u', 'e'] s).map (.bool true, ·)
    else if b = 'f'.toUInt8 then (word ['a', 'l', 's', 'e'] s).map (.bool false, ·)
    else if Numeral.begins b then
      match Numeral.read (b :: s) with
      | .error broken => .error broken.fault
      | .ok (n, rest) => .ok (.ofNumeral n, rest)
    else if b = '"'.toUInt8 then (Quote.read s).map fun t ↦ (.string t.value, t.rest)
    else if b = '['.toUInt8 then .ok (.list, b :: s)
    else if b = '\x7b'.toUInt8 then .ok (.object, b :: s)
    else .error (.here .value (b :: s))

/-- The fault of a text without blanks in front that begins with something else than expected. -/
def unsuitable (expected : String) (s : Bytes) : Fault :=
  match found s with
  | .error e => e
  | .ok (found, rest) => .before (.wrongType found expected) rest

/-- A string that has to stand at the front of a text. -/
def stringFor (expected : String) : Reader String := fun s ↦
  match h : skipBlanks s with
  | [] => .error (.here .endOfValue [])
  | b :: rest =>
    if b = '"'.toUInt8 then
      (Quote.read rest).map (Taken.widen · (length_lt_of_skipBlanks h))
    else .error (unsuitable expected (b :: rest))

/-- A list that has to stand at the front of a text. -/
def listFor {α : Type} (item : Reader α) : Reader (List α) := fun s ↦
  match h : skipBlanks s with
  | [] => .error (.here .endOfValue [])
  | b :: rest =>
    if b = '['.toUInt8 then
      (list item rest).map (Taken.widen · (length_lt_of_skipBlanks h))
    else .error (unsuitable "a sequence" (b :: rest))

end Intake.Json
