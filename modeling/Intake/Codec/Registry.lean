import Intake.Codec
import Intake.Text.Blank
import Intake.Text.Quoted

/-!
# The codecs that are offered

A registry lists the codecs that a collector offers. A header names one of them, up to blanks around
the name and the case of its letters; a missing header and any other name stand for the identity
codec, so a body in a coding that is not offered is taken as it is.
-/

set_option autoImplicit false
set_option relaxedAutoImplicit false

namespace Intake

/-- The codecs that are offered, in order of preference. -/
structure Registry where
  codecs : List Codec
  deriving DecidableEq, Repr

namespace Registry

/-- The registry that decodes nothing. -/
def identityOnly : Registry := ⟨[]⟩

/-- The registry of every compression there is. -/
def full : Registry := ⟨[.gzip, .zstd]⟩

/-- The registry with one more codec behind those it has. -/
def withCodec (registry : Registry) (codec : Codec) : Registry :=
  ⟨registry.codecs ++ [codec]⟩

/-- A name that is none of a codec, as it was compared: without blanks around it and in lower
case. -/
structure UnknownCodec where
  name : String
  deriving DecidableEq, Repr

def UnknownCodec.message (e : UnknownCodec) : String :=
  "unknown codec " ++ Text.quoted e.name ++ ", supported: gzip, zstd"

/-- A name as it is compared. -/
def normalName (name : String) : String :=
  Text.lower (Text.trim name)

/-- The registry with the codec of one more name. The identity codec, also under the empty name, is
there in any case. -/
def withName (registry : Registry) (name : String) : Except UnknownCodec Registry :=
  match normalName name with
  | "" => .ok registry
  | "identity" => .ok registry
  | "gzip" => .ok (registry.withCodec .gzip)
  | "zstd" => .ok (registry.withCodec .zstd)
  | other => .error ⟨other⟩

/-- The registry of the codecs with these names, or the first name that is none. -/
def ofNames (names : List String) : Except UnknownCodec Registry :=
  names.foldlM withName identityOnly

/-- The names of the codecs that are offered. -/
def names (registry : Registry) : List String :=
  registry.codecs.map Codec.name

/-- The codec of a body sent under a content-encoding header. -/
def resolve (registry : Registry) : (header : Option String) → Codec
  | none => .identity
  | some header =>
    let encoding := Text.trim header
    (registry.codecs.find? fun codec ↦ Text.sameLetters codec.name encoding).getD .identity

/-- The names between brackets. -/
def text (registry : Registry) : String :=
  Text.quotedList registry.names

end Registry

end Intake
