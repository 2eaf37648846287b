import Intake.Ack
import Intake.Json.Skip
import Intake.Json.Word

/-!
# Reading acknowledgements

An acknowledgement is an object with a status, or a list of a status alone. Other members of the
object are passed over, and the status has to be there exactly once. A status that occurs again is
found before its value is read, and one that is missing is found at the end of the object.
-/

set_option autoImplicit false
set_option relaxedAutoImplicit false

namespace Intake.Ack

open Json (Taken skipBlanks length_lt_of_skipBlanks)

/-- The name of an acknowledgement in faults. -/
def typeName : String := "struct EventAck"

/-- The end of a list that may have no more elements. -/
def endOfList : Json.Reader Unit := fun s ↦
  match h : skipBlanks s with
  | [] => .error (.here .endOfList [])
  | b :: rest =>
    if b = ']'.toUInt8 then .ok ⟨(), rest, length_lt_of_skipBlanks h⟩
    else if b = ','.toUInt8 then
      let next := skipBlanks rest
      if next.head? = some ']'.toUInt8 then .error (.here .trailingComma next)
      else .error (.here .trailing next)
    else .error (.here .trailing (b :: rest))

/-- An acknowledgement that is a list, from behind the opening bracket. -/
def readList : Json.Reader Ack := fun s ↦
  match h : skipBlanks s with
  | [] => .error (.here .endOfList [])
  | b :: rest =>
    have hrest := length_lt_of_skipBlanks h
    if b = ']'.toUInt8 then
      .error (.before (.wrongLength 0 (typeName ++ " with 1 element")) rest)
    else
      match Json.word16 (b :: rest) with
      | .error e => .error e
      | .ok ⟨status, after, h₁⟩ =>
        match endOfList after with
        | .error e => .error e
        | .ok ⟨_, behind, h₂⟩ =>
          .ok ⟨⟨status⟩, behind, Nat.lt_trans h₂ (Nat.lt_of_lt_of_le h₁ hrest)⟩

/-- Where a fault of an object counts as found: behind its end, if that comes next. -/
def behindEnd (s : Bytes) : Bytes :=
  match skipBlanks s with
  | [] => []
  | b :: rest => if b = '\x7d'.toUInt8 then rest else b :: rest

/-- The status in the value of a member, or the one that was read before. -/
def readMember (status : Option UInt16) (key : String) : Json.Reader (Option UInt16) := fun s ↦
  if key = statusKey then
    if status.isSome then .error (.before (.duplicate statusKey) (behindEnd s))
    else
      match Json.colon s with
      | .error e => .error e
      | .ok ⟨_, after, h⟩ =>
        (Json.word16 after).map fun t ↦ (t.widen h).map some
  else
    match Json.colon s with
    | .error e => .error e
    | .ok ⟨_, after, h⟩ =>
      (Json.skip after).map fun t ↦ (t.widen h).map fun _ ↦ status

/-- The acknowledgement with the status that was read, in front of `rest`. -/
def ofStatus {source : Bytes} (status : Option UInt16) (rest : Bytes)
    (h : rest.length < source.length) : Except Json.Fault (Taken source Ack) :=
  match status with
  | none => .error (.before (.missing statusKey) rest)
  | some status => .ok ⟨⟨status⟩, rest, h⟩

/-- The members up to the closing brace, from behind the key of the first of them. -/
def membersOnto (source : Bytes) (status : Option UInt16) (key : String) (s : Bytes)
    (h : s.length ≤ source.length) : Except Json.Fault (Taken source Ack) :=
  match readMember status key s with
  | .error e => .error e
  | .ok ⟨status, s₁, h₁⟩ =>
    match hend : skipBlanks s₁ with
    | [] => .error (.here .endOfObject [])
    | b :: s₂ =>
      have h₂ := length_lt_of_skipBlanks hend
      if b = '\x7d'.toUInt8 then ofStatus status s₂ (by omega)
      else if b = ','.toUInt8 then
        match hnext : skipBlanks s₂ with
        | [] => .error (.here .endOfValue [])
        | c :: s₃ =>
          have h₃ := length_lt_of_skipBlanks hnext
          if c = '"'.toUInt8 then
            match Json.Quote.read s₃ with
            | .error e => .error e
            | .ok ⟨next, s₄, h₄⟩ => membersOnto source status next s₄ (by omega)
          else if c = '\x7d'.toUInt8 then .error (.here .trailingComma (c :: s₃))
          else .error (.here .key (c :: s₃))
      else .error (.here .objectComma (b :: s₂))
termination_by s.length

/-- An acknowledgement that is an object, from behind the opening brace. -/
def readObject : Json.Reader Ack := fun s ↦
  match h : skipBlanks s with
  | [] => .error (.here .endOfObject [])
  | b :: rest =>
    have hrest := length_lt_of_skipBlanks h
    if b = '\x7d'.toUInt8 then ofStatus none rest hrest
    else if b = '"'.toUInt8 then
      match Json.Quote.read rest with
      | .error e => .error e
      | .ok ⟨key, after, h₁⟩ => membersOnto s none key after (Nat.le_of_lt (Nat.lt_trans h₁ hrest))
    else .error (.here .key (b :: rest))

def read : Json.Reader Ack := fun s ↦
  match h : skipBlanks s with
  | [] => .error (.here .endOfValue [])
  | b :: rest =>
    have hrest := length_lt_of_skipBlanks h
    if b = '['.toUInt8 then (readList rest).map (Taken.widen · hrest)
    else if b = '\x7b'.toUInt8 then (readObject rest).map (Taken.widen · hrest)
    else .error (Json.unsuitable typeName (b :: rest))

/-- The acknowledgements that a JSON text lists. -/
def listOfJson (text : Bytes) : Except Json.Error (List Ack) :=
  Json.whole (Json.listFor read) text

end Intake.Ack
