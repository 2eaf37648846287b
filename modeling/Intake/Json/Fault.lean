import Intake.Bytes
import Intake.Text.Quoted

/-!
# Faults of a JSON text

A fault is a problem and the place where it was found. While a text is read the place is known by
the number of bytes behind it; `Position.after` turns that into a line and a column, which is the
number of bytes between the last line feed and the place.
-/

set_option autoImplicit false
set_option relaxedAutoImplicit false

namespace Intake.Json

/-- A line, counted from one, and the number of its bytes in front of a place. -/
structure Position where
  line : Nat
  column : Nat
  deriving DecidableEq, Repr

namespace Position

def start : Position := ⟨1, 0⟩

/-- The position one byte further. -/
def step (p : Position) (b : UInt8) : Position :=
  if b = '\n'.toUInt8 then ⟨p.line + 1, 0⟩ else ⟨p.line, p.column + 1⟩

/-- The position behind the first `count` bytes of a text. -/
def after (count : Nat) (text : Bytes) : Position :=
  (text.take count).foldl step start

end Position

/-- A problem with the syntax of a text. -/
inductive Problem
  | endOfList
  | endOfObject
  | endOfString
  | endOfValue
  | colon
  | listComma
  | objectComma
  | word
  | value
  | escape
  | number
  | range
  | codePoint
  | control
  | key
  | surrogate
  | hexEnd
  | trailingComma
  | trailing
  | depth
  deriving DecidableEq, Repr

namespace Problem

def message : Problem → String
  | endOfList => "EOF while parsing a list"
  | endOfObject => "EOF while parsing an object"
  | endOfString => "EOF while parsing a string"
  | endOfValue => "EOF while parsing a value"
  | colon => "expected `:`"
  | listComma => "expected `,` or `]`"
  | objectComma => "expected `,` or `\x7d`"
  | word => "expected ident"
  | value => "expected value"
  | escape => "invalid escape"
  | number => "invalid number"
  | range => "number out of range"
  | codePoint => "invalid unicode code point"
  | control => "control character (\\u0000-\\u001F) found while parsing a string"
  | key => "key must be a string"
  | surrogate => "lone leading surrogate in hex escape"
  | hexEnd => "unexpected end of hex escape"
  | trailingComma => "trailing comma"
  | trailing => "trailing characters"
  | depth => "recursion limit exceeded"

/-- Whether the text ended too early. -/
def isEnd : Problem → Bool
  | endOfList | endOfObject | endOfString | endOfValue => true
  | _ => false

end Problem

/-- What stands where something else was expected. -/
inductive Found
  | null
  | bool (b : Bool)
  | integer (text : String)
  | number
  | float (text : String)
  | string (text : String)
  | list
  | object
  deriving DecidableEq, Repr

def Found.message : Found → String
  | null => "null"
  | bool b => "boolean `" ++ (if b then "true" else "false") ++ "`"
  | integer text => "integer `" ++ text ++ "`"
  | number => "number"
  | float text => "floating point `" ++ text ++ "`"
  | string text => "string " ++ Text.quoted text
  | list => "sequence"
  | object => "map"

/-- What is wrong with a text. -/
inductive Cause
  /-- The text breaks the syntax. -/
  | syntactic (problem : Problem)
  /-- A string has to hold the text of a value, and that text is at fault. -/
  | embedded (cause : Cause)
  | wrongType (found : Found) (expected : String)
  | wrongValue (found : Found) (expected : String)
  | wrongLength (length : Nat) (expected : String)
  | missing (field : String)
  | duplicate (field : String)
  deriving DecidableEq, Repr

namespace Cause

def message : Cause → String
  | syntactic problem => problem.message
  | embedded cause => cause.message
  | wrongType found expected => "invalid type: " ++ found.message ++ ", expected " ++ expected
  | wrongValue found expected => "invalid value: " ++ found.message ++ ", expected " ++ expected
  | wrongLength length expected => "invalid length " ++ toString length ++ ", expected " ++ expected
  | missing field => "missing field `" ++ field ++ "`"
  | duplicate field => "duplicate field `" ++ field ++ "`"

end Cause

/-- Where a text is at fault. -/
inductive Place
  /-- So many bytes from its end, and then so many bytes further left in the line. -/
  | fromEnd (behind back : Nat)
  /-- At this position of a text that a string in it holds. -/
  | inside (position : Position)
  deriving DecidableEq, Repr

def Place.position (text : Bytes) : Place → Position
  | fromEnd behind back =>
    let p := Position.after (text.length - behind) text
    ⟨p.line, p.column - back⟩
  | inside position => position

/-- What is wrong with a text, and where. -/
structure Fault where
  cause : Cause
  place : Place
  deriving DecidableEq, Repr

namespace Fault

/-- The problem that the first of these bytes poses, or the end of the text if there are none. The
place is behind that byte. -/
def here (problem : Problem) (s : Bytes) : Fault :=
  ⟨.syntactic problem, .fromEnd s.tail.length 0⟩

/-- The cause, found in front of these bytes. -/
def before (cause : Cause) (s : Bytes) : Fault :=
  ⟨cause, .fromEnd s.length 0⟩

end Fault

/-- The kinds of reason for which a text is refused. -/
inductive Refusal
  /-- The text goes on where it ends. -/
  | cutShort
  | malformed
  /-- The text is JSON, but does not say what it should. -/
  | unsuitable
  deriving DecidableEq, Repr

def Cause.refusal : Cause → Refusal
  | syntactic problem => if problem.isEnd then .cutShort else .malformed
  | _ => .unsuitable

/-- A fault of a whole text. -/
structure Error where
  cause : Cause
  position : Position
  deriving DecidableEq, Repr

namespace Error

def message (e : Error) : String :=
  e.cause.message ++ " at line " ++ toString e.position.line ++ " column " ++
    toString e.position.column

/-- The error that a fault of this text is. -/
def ofFault (text : Bytes) (fault : Fault) : Error :=
  ⟨fault.cause, fault.place.position text⟩

/-- The fault of a text that a string holds. -/
def embedded (e : Error) : Fault :=
  ⟨.embedded e.cause, .inside e.position⟩

end Error

end Intake.Json
