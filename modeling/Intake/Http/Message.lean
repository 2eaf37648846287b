import Intake.Json.Value.Printer
import Intake.Text.Blank

/-!
# Requests and responses

A response names the length of its body, unless it is an answer to a path that there is none for.
-/

set_option autoImplicit false
set_option relaxedAutoImplicit false

namespace Intake.Http

/-- A request. The target is its path with everything behind it. -/
structure Request where
  method : String
  target : Bytes
  headers : List (String × Bytes)
  body : Bytes
  deriving DecidableEq, Repr

namespace Request

/-- The part of the target in front of a query or a fragment. -/
def path (request : Request) : Bytes :=
  request.target.takeWhile fun b ↦ b != '?'.toUInt8 && b != '#'.toUInt8

/-- The value of the first header of this name, in any letter case. -/
def header? (request : Request) (name : String) : Option Bytes :=
  (request.headers.find? fun header ↦ Text.sameLetters header.1 name).map Prod.snd

/-- Whether a header may be taken as text. -/
def isPlain (b : UInt8) : Bool :=
  (0x20 ≤ b && b ≤ 0x7E) || b == '\t'.toUInt8

/-- The first content-encoding header, which counts as missing if it is no plain text. -/
def contentEncoding (request : Request) : Option String :=
  match request.header? "content-encoding" with
  | some value =>
    if value.all isPlain then some (String.ofList (value.map fun b ↦ Char.ofNat b.toNat)) else none
  | none => none

end Request

/-- A response, with its headers in ascending order of their names. -/
structure Response where
  status : Nat
  headers : List (String × String)
  body : Bytes
  deriving DecidableEq, Repr

namespace Response

/-- The header that names the length of a body. -/
def lengthHeader (body : Bytes) : String × String :=
  ("content-length", toString body.length)

/-- A response whose body is of this type. -/
def ofBody (status : Nat) (type : String) (body : Bytes) : Response :=
  ⟨status, [lengthHeader body, ("content-type", type)], body⟩

def json (v : Json.Value) : Response :=
  ofBody 200 "application/json" v.bytes

/-- The answer to a segment of a path that is not UTF-8. -/
def badSegment : Response :=
  ofBody 400 "text/plain; charset=utf-8"
    (Utf8.encode "Invalid URL: Invalid UTF-8 in `dataset`".toList)

/-- The answer to a path that leads nowhere. -/
def notFound : Response := ⟨404, [], []⟩

/-- The answer to a method that is not one of those allowed. -/
def notAllowed (allowed : String) : Response :=
  ⟨405, [("allow", allowed), lengthHeader []], []⟩

/-- The answer to a request that failed. -/
def failure : Response := ⟨500, [lengthHeader []], []⟩

/-- The response without its body. Its headers still speak of the body. -/
def withoutBody (response : Response) : Response :=
  { response with body := [] }

end Response

end Intake.Http
