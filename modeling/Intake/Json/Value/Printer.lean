import Intake.Json.Quote
import Intake.Json.Value

/-!
# Writing a JSON value

The text of a value has no blanks between its tokens. It is written behind what has been written
before, so that a list of any length takes no more room than its text.
-/

set_option autoImplicit false
set_option relaxedAutoImplicit false

namespace Intake.Json

namespace Value

mutual

/-- The text of a value, behind `out`. -/
def onto (out : String) : Value → String
  | null => out ++ "null"
  | bool true => out ++ "true"
  | bool false => out ++ "false"
  | number n => out ++ n.text
  | string text => Quote.onto out text
  | list [] => out ++ "[]"
  | list (x :: xs) => (itemsOnto (x.onto (out.push '[')) xs).push ']'
  | object [] => out ++ "\x7b\x7d"
  | object ((key, x) :: members) =>
    (membersOnto (x.onto ((Quote.onto (out.push '\x7b') key).push ':')) members).push '\x7d'

/-- The texts of values with a comma in front of each, behind `out`. -/
def itemsOnto (out : String) : List Value → String
  | [] => out
  | x :: xs => itemsOnto (x.onto (out.push ',')) xs

/-- The texts of members with a comma in front of each, behind `out`. -/
def membersOnto (out : String) : List (String × Value) → String
  | [] => out
  | (key, x) :: members =>
    membersOnto (x.onto ((Quote.onto (out.push ',') key).push ':')) members

end

def text (v : Value) : String :=
  v.onto ""

/-- The text in UTF-8. -/
def bytes (v : Value) : Bytes :=
  Utf8.encode v.text.toList

end Value

end Intake.Json
