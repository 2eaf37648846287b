import Intake.Json.Unsuitable
import Intake.Json.Value

/-!
# Reading a JSON value

Lists and objects may be nested up to a given depth, and `valueIn` is a recursion on that depth. Two
keys are set apart. An object whose first member has one of them has no other members, and it is not
an object but a number, or any value, whose text the member holds as a string. That text is one to
itself: positions in it are counted from its own beginning, and so is the depth.
-/

set_option autoImplicit false
set_option relaxedAutoImplicit false

namespace Intake.Json

/-- The colon between a key and its value. -/
def colon : Reader Unit := fun s ↦
  match h : skipBlanks s with
  | [] => .error (.here .endOfObject [])
  | b :: rest =>
    if b = ':'.toUInt8 then .ok ⟨(), rest, length_lt_of_skipBlanks h⟩
    else .error (.here .colon (b :: rest))

section Members

variable {α : Type} (item : Reader α) {source : Bytes}

/-- The members up to the closing brace, behind those in the reversed list `read`, from behind the
key of the first of them. -/
def membersOnto (read : List (String × α)) (key : String) (s : Bytes)
    (h : s.length ≤ source.length) : Except Fault (Taken source (List (String × α))) :=
  match colon s with
  | .error e => .error e
  | .ok ⟨_, s₁, h₁⟩ =>
    match item s₁ with
    | .error e => .error e
    | .ok ⟨x, s₂, h₂⟩ =>
      match hend : skipBlanks s₂ with
      | [] => .error (.here .endOfObject [])
      | b :: s₃ =>
        have h₃ := length_lt_of_skipBlanks hend
        if b = '\x7d'.toUInt8 then .ok ⟨((key, x) :: read).reverse, s₃, by omega⟩
        else if b = ','.toUInt8 then
          match hnext : skipBlanks s₃ with
          | [] => .error (.here .endOfValue [])
          | c :: s₄ =>
            have h₄ := length_lt_of_skipBlanks hnext
            if c = '"'.toUInt8 then
              match Quote.read s₄ with
              | .error e => .error e
              | .ok ⟨next, s₅, h₅⟩ => membersOnto ((key, x) :: read) next s₅ (by omega)
            else if c = '\x7d'.toUInt8 then .error (.here .trailingComma (c :: s₄))
            else .error (.here .key (c :: s₄))
        else .error (.here .objectComma (b :: s₃))
termination_by s.length

end Members

/-- The end of an object that may have no more members. -/
def closing : Reader Unit := fun s ↦
  match h : skipBlanks s with
  | [] => .error (.here .endOfObject [])
  | b :: rest =>
    if b = '\x7d'.toUInt8 then .ok ⟨(), rest, length_lt_of_skipBlanks h⟩
    else if b = ','.toUInt8 then .error (.here .trailingComma (b :: rest))
    else .error (.here .trailing (b :: rest))

/-- The value that an object with a single member stands for, from behind its key. The member is a
string, and `meaning` says what the text in it stands for. -/
def soleMember (expected : String) (meaning : Bytes → Except Error Value) : Reader Value := fun s ↦
  match colon s with
  | .error e => .error e
  | .ok ⟨_, s₁, h₁⟩ =>
    match stringFor expected s₁ with
    | .error e => .error e
    | .ok ⟨text, s₂, h₂⟩ =>
      match meaning (Utf8.encode text.toList) with
      | .error e => .error e.embedded
      | .ok v =>
        match closing s₂ with
        | .error e => .error e
        | .ok ⟨_, s₃, h₃⟩ => .ok ⟨v, s₃, by omega⟩

/-- The key under which an object is read as the number that its member holds. -/
def numberKey : String := "$serde_json::private::Number"

/-- The key under which an object is read as the value whose text its member holds. -/
def textKey : String := "$serde_json::private::RawValue"

section Objects

variable (embedded : Bytes → Except Error Value)

/-- An object, from behind its opening brace. -/
def object (item : Reader Value) : Reader Value := fun s ↦
  match h : skipBlanks s with
  | [] => .error (.here .endOfObject [])
  | b :: rest =>
    have hrest := length_lt_of_skipBlanks h
    if b = '\x7d'.toUInt8 then .ok ⟨.object [], rest, hrest⟩
    else if b = '"'.toUInt8 then
      match Quote.read rest with
      | .error e => .error e
      | .ok ⟨key, after, shorter⟩ =>
        have hafter := length_lt_of_rest shorter hrest
        if key = numberKey then
          (soleMember "string containing a number" (fun text ↦ (Numeral.ofText text).map .number)
            after).map (Taken.widen · hafter)
        else if key = textKey then
          (soleMember "raw value" embedded after).map (Taken.widen · hafter)
        else (membersOnto item [] key after (Nat.le_of_lt hafter)).map (Taken.map .ofMembers)
    else .error (.here .key (b :: rest))

/-- A word that stands for a value, from behind its first letter. -/
def constant {source : Bytes} (v : Value) (letters : List Char) (s : Bytes)
    (h : s.length < source.length) : Except Fault (Taken source Value) :=
  match hword : word letters s with
  | .error e => .error e
  | .ok rest => .ok ⟨v, rest, Nat.lt_of_le_of_lt (length_word_le hword) h⟩

/-- A value whose elements or members are read by `inner`, or which has none where none are
allowed. -/
def valueOf (inner : Option (Reader Value)) : Reader Value := fun s ↦
  match h : skipBlanks s with
  | [] => .error (.here .endOfValue [])
  | b :: rest =>
    have hrest := length_lt_of_skipBlanks h
    if b = 'n'.toUInt8 then constant .null ['u', 'l', 'l'] rest hrest
    else if b = 't'.toUInt8 then constant (.bool true) ['r', 'u', 'e'] rest hrest
    else if b = 'f'.toUInt8 then constant (.bool false) ['a', 'l', 's', 'e'] rest hrest
    else if Numeral.begins b then
      match hread : Numeral.read (b :: rest) with
      | .error broken => .error broken.fault
      | .ok (n, after) =>
        .ok ⟨.number n, after, Numeral.length_lt_of_read hread hrest⟩
    else if b = '"'.toUInt8 then
      (Quote.read rest).map fun t ↦ (t.widen hrest).map .string
    else if b = '['.toUInt8 then
      match inner with
      | none => .error (.here .depth (b :: rest))
      | some item => (list item rest).map fun t ↦ (t.widen hrest).map .list
    else if b = '\x7b'.toUInt8 then
      match inner with
      | none => .error (.here .depth (b :: rest))
      | some item => (object embedded item rest).map (Taken.widen · hrest)
    else .error (.here .value (b :: rest))

/-- A value with lists and objects in it up to this depth, where `embedded` says what the texts of
values stand for that are held by strings. -/
def valueIn : (depth : Nat) → Reader Value
  | 0 => valueOf embedded none
  | depth + 1 => valueOf embedded (some (valueIn depth))

end Objects

/-- How deep lists and objects may be nested in one another in a text. -/
def depthLimit : Nat := 127

/-- The value that a whole text stands for. A text in it that is no shorter than itself is refused,
and there is none. -/
def document (text : Bytes) : Except Error Value :=
  whole (valueIn (fun inner ↦
    if _h : inner.length < text.length then document inner
    else .error (.ofFault inner (.here .depth inner))) depthLimit) text
termination_by text.length

/-- A value with lists and objects in it up to this depth. -/
def value (depth : Nat) : Reader Value :=
  valueIn document depth

end Intake.Json
