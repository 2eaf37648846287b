import Intake.Json.Escape
import Intake.Json.Value

/-!
# The grammar of JSON

A `Tree` is a value as it is written: every blank, every escape and the spelling of every number are
part of it, and `Tree.chars` is its text. The texts of trees between blanks are the texts of RFC
8259. Nothing here looks at a text from its front, so the grammar says what a reader has to do
without saying how.

A tree need not stand for anything, since half of a surrogate pair is a well-formed escape.
`unescaped` is the text between two quotation marks where there is one, and `Tree.meaning` the value
of a tree. It leaves open which keys are set apart: an object whose first key is one of them has a
single member, and stands for whatever the string in it is said to hold.
-/

set_option autoImplicit false
set_option relaxedAutoImplicit false

namespace Intake.Json

/-- Characters that may stand between tokens. -/
structure Blanks where
  chars : List Char
  blank : ∀ c ∈ chars, c = ' ' ∨ c = '\n' ∨ c = '\t' ∨ c = '\r'

/-! ### Numbers -/

/-- The exponent of a number as it is written, with a letter of either case and a sign or none. -/
structure WrittenExponent where
  capital : Bool
  /-- Whether the sign is a minus, if there is a sign. -/
  sign : Option Bool
  digits : Digits

namespace WrittenExponent

def signChars : Option Bool → List Char
  | none => []
  | some false => ['+']
  | some true => ['-']

def chars (e : WrittenExponent) : List Char :=
  (if e.capital then 'E' else 'e') :: (signChars e.sign ++ e.digits.chars)

/-- The exponent as it is kept. -/
def kept (e : WrittenExponent) : Exponent :=
  ⟨e.sign.getD false, e.digits⟩

def optionalChars : Option WrittenExponent → List Char
  | none => []
  | some e => e.chars

end WrittenExponent

/-- A number as it is written. -/
structure Literal where
  negative : Bool
  whole : Digits
  fraction : Option Digits
  exponent : Option WrittenExponent
  no_leading_zero : whole.first = 0 → whole.more = []

namespace Literal

def chars (l : Literal) : List Char :=
  Numeral.signChars l.negative ++ l.whole.chars ++ Numeral.fractionChars l.fraction ++
    WrittenExponent.optionalChars l.exponent

/-- The number as it is kept, in which the exponent has a small letter and a sign. -/
def numeral (l : Literal) : Numeral where
  negative := l.negative
  whole := l.whole
  fraction := l.fraction
  exponent := l.exponent.map WrittenExponent.kept
  no_leading_zero := l.no_leading_zero

end Literal

/-! ### Strings -/

/-- A hexadecimal digit, which may be written as a capital letter. -/
structure HexDigit where
  value : Fin 16
  capital : Bool

def HexDigit.char (d : HexDigit) : Char :=
  if d.capital then (Nat.digitChar d.value).toUpper else Nat.digitChar d.value

/-- The escapes of a single letter. -/
inductive Short
  | quotationMark
  | reverseSolidus
  | solidus
  | backspace
  | formFeed
  | lineFeed
  | carriageReturn
  | tab

namespace Short

/-- What is written behind the backslash. -/
def letter : Short → Char
  | quotationMark => '"'
  | reverseSolidus => '\\'
  | solidus => '/'
  | backspace => 'b'
  | formFeed => 'f'
  | lineFeed => 'n'
  | carriageReturn => 'r'
  | tab => 't'

/-- What is meant. -/
def char : Short → Char
  | quotationMark => '"'
  | reverseSolidus => '\\'
  | solidus => '/'
  | backspace => '\x08'
  | formFeed => '\x0c'
  | lineFeed => '\n'
  | carriageReturn => '\r'
  | tab => '\t'

end Short

/-- A unit of UTF-16 in four hexadecimal digits. -/
structure HexUnit where
  first : HexDigit
  second : HexDigit
  third : HexDigit
  fourth : HexDigit

namespace HexUnit

def chars (u : HexUnit) : List Char :=
  [u.first.char, u.second.char, u.third.char, u.fourth.char]

def value (u : HexUnit) : Nat :=
  ((u.first.value.val * 16 + u.second.value.val) * 16 + u.third.value.val) * 16 +
    u.fourth.value.val

end HexUnit

/-- A piece of a string: a character that stands for itself, or an escape. -/
inductive Piece
  | plain (c : Char) (h : 0x20 ≤ c.toNat ∧ c ≠ '"' ∧ c ≠ '\\')
  | short (s : Short)
  | unit (u : HexUnit)

def Piece.chars : Piece → List Char
  | plain c _ => [c]
  | short s => ['\\', s.letter]
  | unit u => '\\' :: 'u' :: u.chars

/-- What stands between two quotation marks. -/
abbrev Pieces := List Piece

namespace Pieces

def chars (ps : Pieces) : List Char :=
  ps.flatMap Piece.chars

/-- The pieces between their quotation marks. -/
def quoted (ps : Pieces) : List Char :=
  '"' :: (chars ps ++ ['"'])

/-- The text that pieces stand for. There is none where one half of a surrogate pair stands without
the other. -/
def unescaped : Pieces → Option (List Char)
  | [] => some []
  | .plain c _ :: ps => (unescaped ps).map (c :: ·)
  | .short s :: ps => (unescaped ps).map (s.char :: ·)
  | .unit u :: ps =>
    if Escape.isLow u.value then none
    else if Escape.isHigh u.value then
      match ps with
      | .unit low :: ps =>
        if Escape.isLow low.value then
          (unescaped ps).map (Escape.paired u.value low.value :: ·)
        else none
      | _ => none
    else (unescaped ps).map (Char.ofNat u.value :: ·)

end Pieces

/-! ### Values -/

/-- Something between blanks. -/
structure Padded (α : Type) where
  before : Blanks
  value : α
  after : Blanks

/-- A member of an object, with the blanks around its key and around its value. -/
structure Member (α : Type) where
  before : Blanks
  key : Pieces
  between : Blanks
  behind : Blanks
  value : α
  after : Blanks

/-- A value as it is written. The blanks of a list or an object are those behind its opening
bracket. -/
inductive Tree
  | null
  | bool (b : Bool)
  | number (l : Literal)
  | string (ps : Pieces)
  | list (inner : Blanks) (items : List (Padded Tree))
  | object (inner : Blanks) (members : List (Member Tree))

namespace Tree

mutual

/-- The text of a tree. -/
def chars : Tree → List Char
  | null => ['n', 'u', 'l', 'l']
  | bool true => ['t', 'r', 'u', 'e']
  | bool false => ['f', 'a', 'l', 's', 'e']
  | number l => l.chars
  | string ps => ps.quoted
  | list inner items => '[' :: (inner.chars ++ [','].intercalate (itemTexts items) ++ [']'])
  | object inner members =>
    '\x7b' :: (inner.chars ++ [','].intercalate (memberTexts members) ++ ['\x7d'])

def itemTexts : List (Padded Tree) → List (List Char)
  | [] => []
  | ⟨before, t, after⟩ :: items => (before.chars ++ chars t ++ after.chars) :: itemTexts items

def memberTexts : List (Member Tree) → List (List Char)
  | [] => []
  | ⟨before, key, between, behind, t, after⟩ :: members =>
    (before.chars ++ key.quoted ++ between.chars ++ ':' :: (behind.chars ++ chars t ++ after.chars))
      :: memberTexts members

end

mutual

/-- How many brackets and braces are open at once at most. -/
def depth : Tree → Nat
  | list _ items => itemsDepth items + 1
  | object _ members => membersDepth members + 1
  | _ => 0

def itemsDepth : List (Padded Tree) → Nat
  | [] => 0
  | ⟨_, t, _⟩ :: items => max (depth t) (itemsDepth items)

def membersDepth : List (Member Tree) → Nat
  | [] => 0
  | ⟨_, _, _, _, t, _⟩ :: members => max (depth t) (membersDepth members)

end

/-- The keys that are set apart, and what a text stands for that is held under such a key. -/
abbrev Apart := String → Option (List Char → Option Value)

/-- The text in the first member of an object, if that is a string and there are no other members.
-/
def soleText : Tree → List (Member Tree) → Option (List Char)
  | string ps, [] => ps.unescaped
  | _, _ => none

mutual

/-- The value of a tree, if it has one. -/
def meaning (apart : Apart) : Tree → Option Value
  | null => some .null
  | bool b => some (.bool b)
  | number l => some (.number l.numeral)
  | string ps => ps.unescaped.map fun text ↦ .string (String.ofList text)
  | list _ items => (itemsMeaning apart items).map .list
  | object _ [] => some (.object [])
  | object _ (⟨_, key, _, _, t, _⟩ :: members) =>
    key.unescaped.bind fun key ↦
      match apart (String.ofList key) with
      | some held => (soleText t members).bind held
      | none =>
        (meaning apart t).bind fun v ↦
          (membersMeaning apart members).map fun entries ↦
            .ofMembers ((String.ofList key, v) :: entries)

def itemsMeaning (apart : Apart) : List (Padded Tree) → Option (List Value)
  | [] => some []
  | ⟨_, t, _⟩ :: items =>
    (meaning apart t).bind fun v ↦ (itemsMeaning apart items).map (v :: ·)

def membersMeaning (apart : Apart) : List (Member Tree) → Option (List (String × Value))
  | [] => some []
  | ⟨_, key, _, _, t, _⟩ :: members =>
    key.unescaped.bind fun key ↦
      (meaning apart t).bind fun v ↦
        (membersMeaning apart members).map ((String.ofList key, v) :: ·)

end

end Tree

end Intake.Json
