import Intake.Json.Numeral.Reader
import Intake.Json.Value.Reader

/-!
# Skipping a JSON value

A value that nobody asks for is passed over. Its syntax is looked at all the same, though not the
characters of its strings, and it may be nested to any depth: what is kept is the list of the lists
and objects that are still open.
-/

set_option autoImplicit false
set_option relaxedAutoImplicit false

namespace Intake.Json

/-- A string, from behind its first quotation mark, that lies in `source`. Its bytes need not be
UTF-8, and units of UTF-16 need not be in pairs. -/
def skipStringOnto (source s : Bytes) (h : s.length ≤ source.length) :
    Except Fault (Taken source Unit) :=
  match s with
  | [] => .error (.here .endOfString [])
  | b :: rest =>
    if b = '"'.toUInt8 then .ok ⟨(), rest, h⟩
    else if b = '\\'.toUInt8 then
      match Escape.read rest with
      | .error e => .error e
      | .ok ⟨_, rest, _⟩ => skipStringOnto source rest (by simp only [List.length_cons] at h; omega)
    else if b < 0x20 then .error (.before (.syntactic .control) (b :: rest))
    else skipStringOnto source rest (by simp only [List.length_cons] at h; omega)
termination_by s.length

def skipString : Reader Unit := fun s ↦
  skipStringOnto s s (length_le_self s)

/-- A list or an object that is still open. -/
inductive Enclosing
  | list
  | object
  deriving DecidableEq, Repr

namespace Enclosing

/-- The byte that ends it. -/
def closer : Enclosing → UInt8
  | list => ']'.toUInt8
  | object => '\x7d'.toUInt8

/-- The problem of a text that ends in it. -/
def endOf : Enclosing → Problem
  | list => .endOfList
  | object => .endOfObject

/-- The problem of something other than a comma or the end behind a value in it. -/
def comma : Enclosing → Problem
  | list => .listComma
  | object => .objectComma

end Enclosing

/-- A key and the colon behind it. -/
def skipKey : Reader Unit := fun s ↦
  match h : skipBlanks s with
  | [] => .error (.here .endOfObject [])
  | b :: rest =>
    if b = '"'.toUInt8 then
      match skipString rest with
      | .error e => .error e
      | .ok ⟨_, after, h₁⟩ =>
        (colon after).map (Taken.widen · (length_lt_of_rest h₁ (length_lt_of_skipBlanks h)))
    else .error (.here .key (b :: rest))

section Steps

variable {source : Bytes}

/-- What stands in front of the next value of an open list or object. -/
def toNext (top : Enclosing) (stack : List Enclosing) (s : Bytes) (h : s.length < source.length) :
    Except Fault (Taken source (List Enclosing)) :=
  match top with
  | .list => .ok ⟨top :: stack, s, h⟩
  | .object =>
    (skipKey s).map fun t ↦ (t.widen h).map fun _ ↦ top :: stack

/-- What follows a value: the ends of some of those that are open, and a comma unless all are
ended. -/
def skipEnds (stack : List Enclosing) (s : Bytes) (h : s.length < source.length) :
    Except Fault (Taken source (List Enclosing)) :=
  match stack with
  | [] => .ok ⟨[], s, h⟩
  | top :: stack =>
    match hs : skipBlanks s with
    | [] => .error (.here top.endOf [])
    | b :: rest =>
      have hrest := length_lt_of_rest (length_lt_of_skipBlanks hs) h
      if b = ','.toUInt8 then toNext top stack rest hrest
      else if b = top.closer then skipEnds stack rest hrest
      else .error (.here top.comma (b :: rest))

/-- What follows the opening of a list or an object. -/
def skipOpening (top : Enclosing) (stack : List Enclosing) (s : Bytes)
    (h : s.length < source.length) : Except Fault (Taken source (List Enclosing)) :=
  match hs : skipBlanks s with
  | [] => .error (.here top.endOf [])
  | b :: rest =>
    have hrest := length_lt_of_skipBlanks hs
    if b = top.closer then skipEnds stack rest (length_lt_of_rest hrest h)
    else toNext top stack (b :: rest) (Nat.lt_of_le_of_lt hrest h)

end Steps

/-- A value inside those that are open, or the beginning of a list or an object, and what follows
it. What is left open then is waiting for its next value. -/
def skipStep (stack : List Enclosing) : Reader (List Enclosing) := fun s ↦
  match hs : skipBlanks s with
  | [] => .error (.here .endOfValue [])
  | b :: rest =>
    have hrest := length_lt_of_skipBlanks hs
    let constant (letters : List Char) : Except Fault (Taken s (List Enclosing)) :=
      match hword : word letters rest with
      | .error e => .error e
      | .ok after => skipEnds stack after (Nat.lt_of_le_of_lt (length_word_le hword) hrest)
    if b = 'n'.toUInt8 then constant ['u', 'l', 'l']
    else if b = 't'.toUInt8 then constant ['r', 'u', 'e']
    else if b = 'f'.toUInt8 then constant ['a', 'l', 's', 'e']
    else if Numeral.begins b then
      match hread : Numeral.read (b :: rest) with
      | .error broken => .error (.here .number broken.rest)
      | .ok (_, after) =>
        skipEnds stack after (Numeral.length_lt_of_read hread hrest)
    else if b = '"'.toUInt8 then
      match skipString rest with
      | .error e => .error e
      | .ok ⟨_, after, hafter⟩ => skipEnds stack after (length_lt_of_rest hafter hrest)
    else if b = '['.toUInt8 then skipOpening .list stack rest hrest
    else if b = '\x7b'.toUInt8 then skipOpening .object stack rest hrest
    else .error (.here .value (b :: rest))

/-- The values up to the end of all that is open, in `source`. -/
def skipOnto (source : Bytes) (stack : List Enclosing) (s : Bytes) (h : s.length ≤ source.length) :
    Except Fault (Taken source Unit) :=
  match skipStep stack s with
  | .error e => .error e
  | .ok ⟨[], rest, shorter⟩ => .ok ⟨(), rest, Nat.lt_of_lt_of_le shorter h⟩
  | .ok ⟨top :: stack, rest, shorter⟩ => skipOnto source (top :: stack) rest (by omega)
termination_by s.length

/-- A value of any kind. -/
def skip : Reader Unit := fun s ↦
  skipOnto s [] s (length_le_self s)

end Intake.Json
