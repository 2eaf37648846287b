import Intake.Zstd.Frame

/-!
# Zstandard bodies

A body is one frame after the other, at least one, up to its last byte. Skippable frames stand for
nothing. A frame that declares its size is decoded in one pass if its content fits into the room
that is offered and all of its bytes are in one portion of the body; any other frame is decoded in
pieces, and only then is its window limited.

For the bytes of a frame the decoder looks where the portion begins in which the header ends, if
that is not in front of the frame. So if a portion ends inside a header, the decoder looks at the
rest of the header, and if that begins like a frame of which all bytes are there, it takes this
frame in place of the one that it had read the header of.
-/

set_option autoImplicit false
set_option relaxedAutoImplicit false

namespace Intake.Zstd

variable [Release]

/-- How many bytes of a header of `width` bytes are in the portion in front of the one in which it
ends, where `place` is where the header begins in the body. -/
def behindBorder (place width : Nat) : Nat :=
  if ahead place < width then ahead place else 0

/-- Whether a frame with this header, of `width` bytes, is decoded in one pass, or another one in
its place. -/
def takesWhole (place : Nat) (h : Header) (width : Nat) (s : Bytes) : Bool :=
  let skipped := behindBorder place width
  h.size.any (· ≤ offered) &&
    (frameSize? (s.drop skipped)).any (· ≤ ahead (place + skipped))

/-- A decoder between two frames: how many bytes of the body it has read, and its buffers. -/
structure Decoder where
  place : Nat
  buffers : Buffers
  deriving DecidableEq, Repr

namespace Decoder

def initial : Decoder := ⟨0, .initial⟩

/-- The decoder when these bytes are left of those that it is given. -/
def advance (decoder : Decoder) (s rest : Bytes) : Decoder :=
  { decoder with place := decoder.place + (s.length - rest.length) }

end Decoder

/-- The content of the frame that a byte string begins with, decoded in one pass, and the bytes
behind it. -/
def readOnePass (s : Bytes) : Except Fault (Bytes × Bytes) :=
  match readStart s with
  | .error e => .error e
  | .ok (.skippable size, rest) => (part size rest).map fun (_, rest) ↦ ([], rest)
  | .ok (.frame h, rest) =>
    if h.dictionary ≠ 0 then .error .dictionary
    else (readWhole h offered .initial #[] rest).map fun (output, rest) ↦ (output.toList, rest)

namespace Decoder

/-- The decoder after the next frame, the content of the frame, and the bytes behind it. -/
def next (decoder : Decoder) (s : Bytes) : Except Fault (Decoder × Bytes × Bytes) :=
  match readStart s with
  | .error e => .error e
  | .ok (.skippable size, rest) =>
    let buffers := decoder.buffers.forSkippable size
    (part size rest).map fun (_, rest) ↦ ({ decoder.advance s rest with buffers }, [], rest)
  | .ok (.frame h, rest) =>
    let width := s.length - rest.length
    if takesWhole decoder.place h width s then
      (readOnePass (s.drop (behindBorder decoder.place width))).map fun (content, rest) ↦
        (decoder.advance s rest, content, rest)
    else if h.dictionary ≠ 0 then .error .dictionary
    else if longestWindow < h.window then .error .windowTooLarge
    else
      let buffers := decoder.buffers.forFrame h
      (readPieces h buffers.output (decoder.place + width) .initial rest).map fun (p, rest) ↦
        ({ decoder.advance s rest with buffers }, p.output.toList, rest)

end Decoder

theorem length_readOnePass {s content rest : Bytes} (h : readOnePass s = .ok (content, rest)) :
    rest.length < s.length := by
  unfold readOnePass at h
  split at h
  · simp at h
  · obtain ⟨⟨skipped, tail⟩, hpart, heq⟩ := map_eq_ok.1 h
    obtain ⟨-, rfl⟩ := Prod.mk.inj heq
    have := length_readStart ‹_›
    have := length_part hpart
    omega
  · split at h
    · simp at h
    · obtain ⟨⟨output, tail⟩, hread, heq⟩ := map_eq_ok.1 h
      obtain ⟨-, rfl⟩ := Prod.mk.inj heq
      have := length_readStart ‹_›
      have := length_readWhole hread
      omega

theorem Decoder.length_next {decoder after : Decoder} {s content rest : Bytes}
    (h : decoder.next s = .ok (after, content, rest)) : rest.length < s.length := by
  unfold next at h
  split at h
  · simp at h
  · obtain ⟨⟨skipped, tail⟩, hpart, heq⟩ := map_eq_ok.1 h
    simp only [Prod.mk.injEq] at heq
    obtain ⟨-, -, rfl⟩ := heq
    have := length_readStart ‹_›
    have := length_part hpart
    omega
  · have := length_readStart ‹_›
    dsimp only at h
    split at h
    · obtain ⟨⟨output, tail⟩, hread, heq⟩ := map_eq_ok.1 h
      simp only [Prod.mk.injEq] at heq
      obtain ⟨-, -, rfl⟩ := heq
      have := length_readOnePass hread
      rw [List.length_drop] at this
      omega
    · split at h
      · simp at h
      · split at h
        · simp at h
        · obtain ⟨⟨p, tail⟩, hread, heq⟩ := map_eq_ok.1 h
          simp only [Prod.mk.injEq] at heq
          obtain ⟨-, -, rfl⟩ := heq
          have := length_readPieces hread
          omega

/-- The contents of all frames behind those in the reversed list `read`. -/
def framesOnto (decoder : Decoder) (read : List Bytes) (s : Bytes) : Except Fault (List Bytes) :=
  match _h : decoder.next s with
  | .error e => .error e
  | .ok (_, content, []) => .ok (content :: read).reverse
  | .ok (decoder, content, rest) => framesOnto decoder (content :: read) rest
termination_by s.length
decreasing_by exact Decoder.length_next ‹_›

/-- The bytes that a Zstandard body stands for. -/
def decode (body : Bytes) : Except Fault Bytes :=
  (framesOnto .initial [] body).map List.flatten

end Intake.Zstd
