import Intake.Json.Reader
import Intake.Text.Hex

/-!
# Escapes of a JSON string

Behind a backslash stands one of eight characters, or the letter `u` and four hexadecimal digits.
The digits are a unit of UTF-16, so a character beyond U+FFFF takes two such escapes: one unit from
D800 to DBFF, and straight behind it one from DC00 to DFFF.
-/

set_option autoImplicit false
set_option relaxedAutoImplicit false

namespace Intake.Json

/-- What is escaped: a character, or a unit of UTF-16. -/
inductive Escape
  | char (c : Char)
  | unit (n : Nat)
  deriving DecidableEq, Repr

namespace Escape

/-- The character that a single byte behind the backslash stands for. -/
def short? (b : UInt8) : Option Char :=
  if b = '"'.toUInt8 then some '"'
  else if b = '\\'.toUInt8 then some '\\'
  else if b = '/'.toUInt8 then some '/'
  else if b = 'b'.toUInt8 then some '\x08'
  else if b = 'f'.toUInt8 then some '\x0c'
  else if b = 'n'.toUInt8 then some '\n'
  else if b = 'r'.toUInt8 then some '\r'
  else if b = 't'.toUInt8 then some '\t'
  else none

/-- The number of four hexadecimal digits. -/
def hexUnit? (a b c d : UInt8) : Option Nat := do
  let a ← Text.hexDigit? a
  let b ← Text.hexDigit? b
  let c ← Text.hexDigit? c
  let d ← Text.hexDigit? d
  return ((a * 16 + b) * 16 + c) * 16 + d

/-- A unit of UTF-16 in four hexadecimal digits. -/
def hexUnit : Reader Nat
  | a :: b :: c :: d :: rest =>
    match hexUnit? a b c d with
    | some n => .ok ⟨n, rest, by simp only [List.length_cons]; omega⟩
    | none => .error (.before (.syntactic .escape) rest)
  | _ => .error (.here .endOfString [])

/-- An escape, from behind the backslash. -/
def read : Reader Escape
  | [] => .error (.here .endOfString [])
  | b :: rest =>
    match short? b with
    | some c => .ok ⟨.char c, rest, Nat.lt_succ_self _⟩
    | none =>
      if b = 'u'.toUInt8 then
        (hexUnit rest).map fun t ↦ (t.widen (Nat.lt_succ_self _)).map .unit
      else .error (.here .escape (b :: rest))

def isHigh (n : Nat) : Bool :=
  0xD800 ≤ n && n ≤ 0xDBFF

def isLow (n : Nat) : Bool :=
  0xDC00 ≤ n && n ≤ 0xDFFF

/-- The character of two units. -/
def paired (high low : Nat) : Char :=
  Char.ofNat (0x10000 + (high - 0xD800) * 0x400 + (low - 0xDC00))

/-- The second unit of a pair, escaped in its turn. -/
def lowUnit : Reader Nat
  | [] => .error (.here .endOfString [])
  | b :: rest =>
    if b = '\\'.toUInt8 then
      match rest with
      | [] => .error (.here .endOfString [])
      | c :: rest =>
        if c = 'u'.toUInt8 then
          match hexUnit rest with
          | .error e => .error e
          | .ok t =>
            if isLow t.value then
              .ok (t.widen (Nat.lt_succ_of_lt (Nat.lt_succ_self _)))
            else .error (.before (.syntactic .surrogate) t.rest)
        else .error (.here .hexEnd (c :: rest))
    else .error (.here .hexEnd (b :: rest))

/-- The character that is escaped, from behind the backslash. -/
def character : Reader Char := fun s ↦
  match read s with
  | .error e => .error e
  | .ok ⟨.char c, rest, shorter⟩ => .ok ⟨c, rest, shorter⟩
  | .ok ⟨.unit n, rest, shorter⟩ =>
    if isLow n then .error (.before (.syntactic .surrogate) rest)
    else if isHigh n then
      match lowUnit rest with
      | .error e => .error e
      | .ok t => .ok ((t.widen shorter).map (paired n))
    else .ok ⟨Char.ofNat n, rest, shorter⟩

end Escape

end Intake.Json
