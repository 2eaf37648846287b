import Intake.Checksum.XxHash64
import Intake.Zstd.Header
import Intake.Zstd.Portion
import Intake.Zstd.Sequences

/-!
# Frames of a Zstandard body

A frame is a header, blocks, and a checksum of the content where the header says so. A block is
bytes as they are, one repeated byte, or compressed.

A frame is decoded in one pass (`readWhole`) or in pieces (`readPieces`). In one pass the content
goes where it is wanted. In pieces it goes through a buffer of limited size, from whose end the
decoder returns to the beginning: a block has as much room as there is up to the end of the buffer,
and a copy reaches back to where the decoder returned the last time but one. Bytes as they are go
into the buffer as soon as they are there, so a block of them that lies across the end of a portion
goes into it in two parts.
-/

set_option autoImplicit false
set_option relaxedAutoImplicit false

namespace Intake.Zstd

/-- How the content of a block is written. -/
inductive BlockKind
  | raw
  | repeated
  | compressed
  | reserved
  deriving DecidableEq, Repr

/-- The header of a block. The size of a repeated byte is that of its content. -/
structure BlockHeader where
  last : Bool
  kind : BlockKind
  size : Nat
  deriving DecidableEq, Repr

def BlockHeader.ofNumber (n : Nat) : BlockHeader where
  last := n % 2 = 1
  kind :=
    match n / 2 % 4 with
    | 0 => .raw
    | 1 => .repeated
    | 2 => .compressed
    | _ => .reserved
  size := n / 8

/-- How many bytes follow the header of a block. -/
def BlockHeader.stored (b : BlockHeader) : Nat :=
  if b.kind = .repeated then 1 else b.size

def readBlockHeader (s : Bytes) : Except Fault (BlockHeader × Bytes) :=
  (part 3 s).map fun (n, s) ↦ (.ofNumber (Bytes.littleEndian n), s)

/-- The four bytes that the checksum of a frame with this content has. -/
def contentChecksum (content : Bytes) : Nat :=
  (XxHash64.hash content).toNat % 2 ^ 32

/-- How many bytes hold the checksum. -/
def Header.checksumWidth (h : Header) : Nat :=
  if h.hasChecksum then 4 else 0

/-- What follows the last block. -/
def readChecksum (h : Header) (content : Bytes) (s : Bytes) : Except Fault Bytes :=
  if h.hasChecksum then do
    let (sum, s) ← part 4 s
    if Bytes.littleEndian sum = contentChecksum content then .ok s else .error .checksum
  else .ok s

/-- Whether the content of a frame has the size that its header declares, if it does. -/
def Header.fits (h : Header) (size : Nat) : Bool :=
  h.size.all (· = size)

theorem length_readBlockHeader {s rest : Bytes} {b : BlockHeader}
    (h : readBlockHeader s = .ok (b, rest)) : rest.length < s.length := by
  obtain ⟨⟨n, tail⟩, hpart, heq⟩ := map_eq_ok.1 h
  obtain ⟨-, rfl⟩ := Prod.mk.inj heq
  have := length_part hpart
  omega

theorem length_readChecksum {h : Header} {content s rest : Bytes}
    (hread : readChecksum h content s = .ok rest) : rest.length ≤ s.length := by
  unfold readChecksum at hread
  split at hread
  · obtain ⟨⟨sum, tail⟩, hpart, hread⟩ := bind_eq_ok.1 hread
    have := length_part hpart
    dsimp only at hread
    split at hread
    · obtain rfl := Except.ok.inj hread
      omega
    · simp at hread
  · obtain rfl := Except.ok.inj hread
    exact Nat.le_refl _

/-- The size of a frame from a block on, if all of its bytes are there. -/
def blocksSize? (h : Header) (s : Bytes) : Option Nat :=
  match _h : readBlockHeader s with
  | .error _ => none
  | .ok (b, rest) =>
    if b.kind = .reserved then none
    else
      match _h : part b.stored rest with
      | .error _ => none
      | .ok (_, rest) =>
        if b.last then
          match part h.checksumWidth rest with
          | .error _ => none
          | .ok _ => some (3 + b.stored + h.checksumWidth)
        else (blocksSize? h rest).map (3 + b.stored + ·)
termination_by s.length
decreasing_by
  have := length_readBlockHeader ‹readBlockHeader s = _›
  have := length_part ‹part _ _ = _›
  omega

/-- The size of the frame that a byte string begins with, if all of its bytes are there. -/
def frameSize? (s : Bytes) : Option Nat :=
  match readStart s with
  | .error _ => none
  | .ok (.skippable size, rest) =>
    match part size rest with
    | .error _ => none
    | .ok _ => some (s.length - rest.length + size)
  | .ok (.frame h, rest) => (blocksSize? h rest).map (s.length - rest.length + ·)

/-- The content of a frame after a block that is not compressed. -/
def runPlain (room : Nat) (b : BlockHeader) (output : Array UInt8) (payload : Bytes) :
    Except Fault (Array UInt8) :=
  if room < b.size then .error .noRoom
  else if b.kind = .repeated then
    .ok (output ++ List.replicate b.size (payload.headD 0))
  else .ok (output ++ payload)

variable [Release]

/-- The content of a frame decoded in one pass, from a block on, where `room` is offered. -/
def readWhole (h : Header) (room : Nat) (memory : Memory) (output : Array UInt8) (s : Bytes) :
    Except Fault (Array UInt8 × Bytes) :=
  match _h : readBlockHeader s with
  | .error e => .error e
  | .ok (b, rest) =>
    match _h : part b.stored rest with
    | .error e => .error e
    | .ok (payload, rest) =>
      let left := room - output.size
      match
        if b.kind = .reserved then .error .corrupted
        else if b.kind ≠ .compressed then
          (runPlain left b output payload).map (·, memory)
        else if h.compressedLimit < b.size then .error .wrongSize
        else runCompressed ⟨h.compressedLimit, left, true⟩ .initial memory output payload with
      | .error e => .error e
      | .ok (output, memory) =>
        if b.last then
          if h.fits output.size then (readChecksum h output.toList rest).map (output, ·)
          else .error .corrupted
        else readWhole h room memory output rest
termination_by s.length
decreasing_by
  have := length_readBlockHeader ‹readBlockHeader s = _›
  have := length_part ‹part _ _ = _›
  omega

/-- The sizes of the buffers of a decoder. They are kept from frame to frame. -/
structure Buffers where
  input : Nat
  output : Nat
  /-- How many frames there have been, one behind the other, for which they are far too large. -/
  excess : Nat
  deriving DecidableEq, Repr

namespace Buffers

def initial : Buffers := ⟨0, 0, 0⟩

/-- How much of the content the decoder keeps of a frame with this window, of which a block may have
this much. -/
def ring (window blockLimit : Nat) : Nat :=
  let window := max window 1024
  if Release.strict then window + 2 * blockLimit + 64
  else window + min window longestBlock + longestBlock + 64

/-- The buffers after they have been fitted to a frame. Larger ones replace them if they are too
small, and smaller ones if for 128 frames they have been three times too large. -/
def fit (buffers : Buffers) (input output : Nat) : Buffers :=
  let isLarge := 3 * (input + output) ≤ buffers.input + buffers.output
  let excess := if isLarge then buffers.excess + 1 else 0
  if buffers.input < input ∨ buffers.output < output ∨ 128 ≤ excess then ⟨input, output, excess⟩
  else { buffers with excess }

/-- The buffers for a frame. -/
def forFrame (buffers : Buffers) (h : Header) : Buffers :=
  let ring := ring h.window h.blockLimit
  buffers.fit (max h.blockLimit 4) (h.size.elim ring (min · ring))

/-- The buffers for a skippable frame. -/
def forSkippable (buffers : Buffers) (size : Nat) : Buffers :=
  buffers.fit 4 (min size (ring 0 0))

end Buffers

/-- A frame that is being decoded in pieces. -/
structure Pieces where
  memory : Memory
  /-- The content so far. -/
  output : Array UInt8
  /-- How much of the buffer has been filled since the decoder returned to its beginning. -/
  filled : Nat
  history : History

namespace Pieces

def initial : Pieces := ⟨.initial, #[], 0, .initial⟩

/-- The frame after some content has been put into the buffer. -/
def add (p : Pieces) (h : Header) (buffer : Nat) (memory : Memory) (output : Array UInt8) :
    Pieces :=
  let filled := p.filled + (output.size - p.output.size)
  if output.size = p.output.size then { p with memory, output }
  else if (h.size.all (buffer < ·)) ∧ buffer < filled + h.blockLimit then
    { memory, output, filled := 0, history := ⟨output.size, p.history.turn⟩ }
  else { p with memory, output, filled }

/-- The frame after bytes as they are. -/
def store (p : Pieces) (h : Header) (buffer : Nat) (bytes : Bytes) : Except Fault Pieces :=
  if buffer - p.filled < bytes.length then .error .noRoom
  else .ok (p.add h buffer p.memory (p.output ++ bytes))

/-- The frame after a block of which the bytes have to be there all at once. -/
def run (p : Pieces) (h : Header) (buffer : Nat) (b : BlockHeader) (payload : Bytes) :
    Except Fault Pieces := do
  let room := buffer - p.filled
  let (output, memory) ←
    if b.kind = .repeated then (runPlain room b p.output payload).map (·, p.memory)
    else runCompressed ⟨h.compressedLimit, room, false⟩ p.history p.memory p.output payload
  if h.blockLimit < output.size - p.output.size then .error .corrupted
  else return p.add h buffer memory output

/-- The frame after a block, and the bytes behind it, where `place` is where the bytes behind the
header of the block begin in the body. -/
def readBlock (p : Pieces) (h : Header) (buffer place : Nat) (b : BlockHeader) (s : Bytes) :
    Except Fault (Pieces × Bytes) :=
  if b.kind = .raw then do
    let bytes := s.take b.stored
    let p ← p.store h buffer (bytes.take (ahead place))
    let p ← p.store h buffer (bytes.drop (ahead place))
    let (_, rest) ← part b.stored s
    return (p, rest)
  else do
    let (payload, rest) ← part b.stored s
    let p ← p.run h buffer b payload
    return (p, rest)

theorem length_readBlock {p q : Pieces} {h : Header} {buffer place : Nat} {b : BlockHeader}
    {s rest : Bytes} (hread : p.readBlock h buffer place b s = .ok (q, rest)) :
    rest.length ≤ s.length := by
  unfold readBlock at hread
  split at hread
  · simp only [bind_eq_ok, Prod.exists] at hread
    obtain ⟨_, -, _, -, _, _, hpart, heq⟩ := hread
    obtain ⟨-, rfl⟩ := Prod.mk.inj (Except.ok.inj heq)
    have := length_part hpart
    omega
  · simp only [bind_eq_ok, Prod.exists] at hread
    obtain ⟨_, _, hpart, _, -, heq⟩ := hread
    obtain ⟨-, rfl⟩ := Prod.mk.inj (Except.ok.inj heq)
    have := length_part hpart
    omega

end Pieces

/-- The frame decoded in pieces, from a block on, and the bytes behind it, where `place` is where
the block begins in the body. The size of the content is not checked when the last block is
empty. -/
def readPieces (h : Header) (buffer place : Nat) (p : Pieces) (s : Bytes) :
    Except Fault (Pieces × Bytes) :=
  match _h : readBlockHeader s with
  | .error e => .error e
  | .ok (b, rest) =>
    if b.kind = .reserved ∨ h.blockLimit < b.stored then .error .corrupted
    else if b.stored = 0 then
      if b.last then (readChecksum h p.output.toList rest).map (p, ·)
      else readPieces h buffer (place + 3) p rest
    else
      match _h : p.readBlock h buffer (place + 3) b rest with
      | .error e => .error e
      | .ok (p, rest) =>
        if b.last then
          if h.fits p.output.size then (readChecksum h p.output.toList rest).map (p, ·)
          else .error .corrupted
        else readPieces h buffer (place + 3 + b.stored) p rest
termination_by s.length
decreasing_by
  · exact length_readBlockHeader ‹_›
  · have := length_readBlockHeader ‹readBlockHeader s = _›
    have := Pieces.length_readBlock ‹Pieces.readBlock _ _ _ _ _ _ = _›
    omega

theorem length_readWhole {h : Header} {room : Nat} {memory : Memory} {output content : Array UInt8}
    {s rest : Bytes} (hread : readWhole h room memory output s = .ok (content, rest)) :
    rest.length < s.length := by
  fun_induction readWhole h room memory output s with
  | case1 | case2 | case3 | case5 => simp at hread
  | case4 memory output s b s₁ hblock payload s₂ hpart left output' memory' hrun hlast hfits =>
    obtain ⟨tail, hsum, heq⟩ := map_eq_ok.1 hread
    obtain ⟨-, rfl⟩ := Prod.mk.inj heq
    have := length_readBlockHeader hblock
    have := length_part hpart
    have := length_readChecksum hsum
    omega
  | case6 memory output s b s₁ hblock payload s₂ hpart left output' memory' hrun hlast ih =>
    have := length_readBlockHeader hblock
    have := length_part hpart
    have := ih hread
    omega

theorem length_readPieces {h : Header} {buffer place : Nat} {p q : Pieces} {s rest : Bytes}
    (hread : readPieces h buffer place p s = .ok (q, rest)) : rest.length < s.length := by
  fun_induction readPieces h buffer place p s with
  | case1 | case2 | case5 | case7 => simp at hread
  | case3 place p s b s₁ hblock =>
    obtain ⟨tail, hsum, heq⟩ := map_eq_ok.1 hread
    obtain ⟨-, rfl⟩ := Prod.mk.inj heq
    have := length_readBlockHeader hblock
    have := length_readChecksum hsum
    omega
  | case4 place p s b s₁ hblock _ _ _ ih =>
    have := length_readBlockHeader hblock
    have := ih hread
    omega
  | case6 place p s b s₁ hblock _ _ p' s₂ hpart =>
    obtain ⟨tail, hsum, heq⟩ := map_eq_ok.1 hread
    obtain ⟨-, rfl⟩ := Prod.mk.inj heq
    have := length_readBlockHeader hblock
    have := Pieces.length_readBlock hpart
    have := length_readChecksum hsum
    omega
  | case8 place p s b s₁ hblock _ _ p' s₂ hpart _ ih =>
    have := length_readBlockHeader hblock
    have := Pieces.length_readBlock hpart
    have := ih hread
    omega

end Intake.Zstd
