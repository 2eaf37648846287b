import Intake.Proofs.Gzip.Writing

/-!
# Bytes stored in a gzip member

A byte string can be sent as a gzip body without being coded. It is cut into pieces of at most 65535
bytes, and each piece is stored as it is in a block of its own. All of these blocks begin with whole
bytes, so none of them depends on its place (`bits_block`), and they are a stream that stands for
the pieces put together again (`bytes_stored`). How the byte string is cut and what the header of
the member says has no part in what is read (`decode_stored`).
-/

set_option autoImplicit false
set_option relaxedAutoImplicit false

namespace Intake

namespace Deflate

/-- A piece of a byte string that is stored in a block of its own. -/
structure Piece where
  bytes : Bytes
  /-- The five bits up to the next byte are those of this number. -/
  filling : Nat

namespace Piece

/-- The mark of the last block and the bits up to the next byte, the size of the piece, its
complement, and the piece. -/
def block (piece : Piece) (last : Bool) : Bytes :=
  (last.toNat + 8 * piece.filling).toUInt8 ::
    (Bytes.ofNumber 2 piece.bytes.length ++ Bytes.ofNumber 2 (65535 - piece.bytes.length) ++
      piece.bytes)

def plan (piece : Piece) : Plan :=
  .stored piece.filling piece.bytes

/-- The blocks of pieces, of which the last one is marked. -/
def blocks : List Piece → Bytes
  | [] => []
  | piece :: pieces => piece.block pieces.isEmpty ++ blocks pieces

/-- The pieces put together. -/
def joined (pieces : List Piece) : Bytes :=
  pieces.flatMap bytes

end Piece

/-- The first byte of a block: its mark, its kind, and the bits up to the next byte. -/
theorem lowBits_mark (last : Bool) (filling : Nat) :
    lowBits 8 (last.toNat + 8 * filling).toUInt8.toNat =
      last :: (lowBits 2 0 ++ lowBits 5 filling) := by
  let bits : List Bool := last :: false :: false :: lowBits 5 filling
  have hlength : bits.length = 8 := by
    simp [bits, BitStream.length_lowBits]
  have hvalue : (last.toNat + 8 * filling).toUInt8.toNat = ofLowBits bits := by
    simp only [bits, ofLowBits, ofLowBits_lowBits, Bool.toNat_false, Nat.toUInt8_eq,
      UInt8.toNat_ofNat']
    have := last.toNat_le
    omega
  have hbits := lowBits_ofLowBits bits
  rw [hlength] at hbits
  rw [hvalue, hbits]
  rfl

/-- A block that begins with a whole byte has the bits of its plan. -/
theorem Piece.bits_block (piece : Piece) (last : Bool) {position : Nat} (h : 8 ∣ position) :
    (piece.block last).bits = piece.plan.text position last := by
  have hpadding : paddingText (position + 3) piece.filling = lowBits 5 piece.filling := by
    have hwidth : (8 - (position + 3) % 8) % 8 = 5 := by omega
    rw [paddingText, hwidth]
  rw [block, Bytes.bits_cons, lowBits_mark, plan, Plan.text, Plan.body, hpadding, Plan.kind]
  simp only [List.cons_append, List.append_assoc]

theorem Piece.bits_blocks (pieces : List Piece) {position : Nat} (h : 8 ∣ position) :
    (blocks pieces).bits = text position (pieces.map plan) := by
  induction pieces generalizing position with
  | nil => rfl
  | cons piece pieces ih =>
    have hbits := piece.bits_block pieces.isEmpty h
    have hnext : 8 ∣ position + (piece.plan.text position pieces.isEmpty).length := by
      rw [← hbits, Bytes.length_bits]
      omega
    rw [blocks, Bytes.bits_append, hbits, ih hnext, List.map_cons, text, List.isEmpty_map]

/-- The blocks of pieces fill whole bytes, and they are the stream of their plans. -/
theorem bytes_stored (pieces : List Piece) :
    bytes (pieces.map Piece.plan) 0 = Piece.blocks pieces := by
  have htext := Piece.bits_blocks pieces (Nat.dvd_zero 8)
  have hwhole : (text 0 (pieces.map Piece.plan)).length % 8 = 0 := by
    rw [← htext, Bytes.length_bits]
    omega
  have hpadding : paddingText (text 0 (pieces.map Piece.plan)).length 0 = [] := by
    rw [paddingText, hwhole]
    rfl
  apply Bytes.bits_injective
  rw [bytes, hpadding, List.append_nil, Bytes.bits_ofBits (Nat.dvd_of_mod_eq_zero hwhole), htext]

theorem areLegal_stored {pieces : List Piece} (h : ∀ piece ∈ pieces, piece.bytes.length ≤ 65535)
    (before : Bytes) : AreLegal before (pieces.map Piece.plan) := by
  induction pieces generalizing before with
  | nil => trivial
  | cons piece pieces ih =>
    obtain ⟨hpiece, hpieces⟩ := List.forall_mem_cons.mp h
    exact ⟨hpiece, ih hpieces _⟩

theorem output_stored (pieces : List Piece) :
    output (pieces.map Piece.plan) = Piece.joined pieces := by
  have hfold : ∀ before : Bytes, (pieces.map Piece.plan).foldl Plan.output before =
      before ++ Piece.joined pieces := by
    induction pieces with
    | nil => simp [Piece.joined]
    | cons piece pieces ih =>
      intro before
      rw [List.map_cons, List.foldl_cons, ih]
      simp [Piece.plan, Plan.output, Piece.joined]
  exact hfold []

end Deflate

namespace Gzip

open Deflate

/-- A member that is all of a body. -/
theorem decode_of_member {s content : Bytes} (h : member s = .ok (content, [])) :
    decode s = .ok content := by
  rw [decode, membersOnto_eq, h]
  simp [Except.map]

/-- A byte string that is stored in a member is read from it as it is, wherever it has been cut and
whatever the header of the member says. -/
theorem decode_stored {header : Header} (hheader : header.IsLegal) {raw : Bytes}
    {pieces : List Piece} (hraw : raw = Piece.joined pieces) (hpieces : pieces ≠ [])
    (hsize : ∀ piece ∈ pieces, piece.bytes.length ≤ 65535) :
    decode (header.bytes ++ Piece.blocks pieces ++
      (Bytes.ofNumber 4 (Crc32.checksum raw).toNat ++
        Bytes.ofNumber 4 raw.length.toUInt32.toNat)) = .ok raw := by
  have hplans : pieces.map Piece.plan ≠ [] := by simpa using hpieces
  have hfew : ∀ plan ∈ pieces.map Piece.plan, plan.FewDistances := by
    intro plan hplan
    obtain ⟨piece, -, rfl⟩ := List.mem_map.mp hplan
    trivial
  have hmember := member_memberBytes hheader hplans (areLegal_stored hsize []) hfew 0
  have htrailer : Bytes.ofNumber 4 raw.length.toUInt32.toNat = Bytes.ofNumber 4 raw.length := by
    rw [Nat.toUInt32_eq, UInt32.toNat_ofNat']
    exact Bytes.ofNumber_mod 4 raw.length
  rw [memberBytes, bytes_stored, output_stored, ← hraw, trailerBytes, ← htrailer] at hmember
  exact decode_of_member hmember

/-- A header with every field there is. -/
def fullHeader : Header where
  isText := true
  time := 0x66AABBCC
  extraFlags := 4
  system := 255
  extra := some [0, 0, 0x78]
  name := some [0x62, 0x2E, 0x6A]
  comment := some [0xFF]
  isChecked := true

/-- Two pieces with an empty one between them. -/
def threePieces : List Piece :=
  [⟨[0x5B, 0x31], 31⟩, ⟨[], 0⟩, ⟨[0x5D], 9⟩]

theorem decode_stored_threePieces :
    fullHeader.IsLegal ∧ [0x5B, 0x31, 0x5D] = Piece.joined threePieces ∧ threePieces ≠ [] ∧
      (∀ piece ∈ threePieces, piece.bytes.length ≤ 65535) ∧
      decode (fullHeader.bytes ++ Piece.blocks threePieces ++
        (Bytes.ofNumber 4 (Crc32.checksum [0x5B, 0x31, 0x5D]).toNat ++
          Bytes.ofNumber 4 (3 : Nat).toUInt32.toNat)) = .ok [0x5B, 0x31, 0x5D] := by
  have hheader : fullHeader.IsLegal := ⟨by decide, by decide, by decide⟩
  have hsize : ∀ piece ∈ threePieces, piece.bytes.length ≤ 65535 := by decide
  exact ⟨hheader, rfl, by simp [threePieces], hsize,
    decode_stored hheader rfl (by simp [threePieces]) hsize⟩

end Gzip

end Intake
