import Intake.Gzip.Member
import Intake.Zstd.Body

/-!
# Content codecs

A codec undoes one content coding of a request body. The identity codec leaves every body as it is,
so it is the only one that never fails.
-/

set_option autoImplicit false
set_option relaxedAutoImplicit false

namespace Intake

/-- A content coding that bodies are sent in. -/
inductive Codec
  | identity
  | gzip
  | zstd
  deriving DecidableEq, Repr

namespace Codec

/-- The name of a coding in a content-encoding header. -/
def name : Codec → String
  | identity => "identity"
  | gzip => "gzip"
  | zstd => "zstd"

/-- Why a body could not be decoded. -/
inductive Fault
  | gzip (fault : Gzip.Fault)
  | zstd (fault : Zstd.Fault)
  deriving DecidableEq, Repr

/-- The bytes that a body stands for. -/
def decode : Codec → Bytes → Except Fault Bytes
  | identity, body => .ok body
  | gzip, body => (Gzip.decode body).mapError .gzip
  | zstd, body => (Zstd.decode body).mapError .zstd

end Codec

def Gzip.Fault.message : Gzip.Fault → String
  | .endOfFile => "unexpected end of file"
  | .header => "invalid gzip header"
  | .fieldTooLong => "gzip header field too long"
  | .incomplete => "incomplete deflate stream"
  | .corrupt => "corrupt deflate stream"
  | .mismatch => "corrupt gzip stream does not have a matching checksum"

def Zstd.Fault.message : Zstd.Fault → String
  | .incomplete => "incomplete frame"
  | .unknownFrame => "Unknown frame descriptor"
  | .unsupported => "Unsupported frame parameter"
  | .windowTooLarge => "Frame requires too much memory for decoding"
  | .dictionary => "Dictionary mismatch"
  | .checksum => "Restored data doesn't match checksum"
  | .corrupted => "Data corruption detected"
  | .noRoom => "Destination buffer is too small"
  | .wrongSize => "Src size is incorrect"
  | .tooFewLiterals => "Header of Literals' block doesn't respect format specification"
  | .noEarlierCode => "Dictionary is corrupted"

namespace Codec.Fault

def message : Fault → String
  | gzip fault => fault.message
  | zstd fault => fault.message

/-- The codec that a fault comes from. -/
def codec : Fault → Codec
  | gzip _ => .gzip
  | zstd _ => .zstd

end Codec.Fault

/-- A fault of decoding is one of the codec that was used. -/
theorem Codec.codec_of_decode {codec : Codec} {body : Bytes} {fault : Fault}
    (h : codec.decode body = .error fault) : fault.codec = codec := by
  cases codec with
  | identity => simp [decode] at h
  | gzip =>
    rw [decode] at h
    cases hbody : Gzip.decode body with
    | ok raw => simp [hbody] at h
    | error inner =>
      rw [hbody] at h
      exact Except.error.inj h ▸ rfl
  | zstd =>
    rw [decode] at h
    cases hbody : Zstd.decode body with
    | ok raw => simp [hbody] at h
    | error inner =>
      rw [hbody] at h
      exact Except.error.inj h ▸ rfl

end Intake
