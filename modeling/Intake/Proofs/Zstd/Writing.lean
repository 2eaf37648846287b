import Intake.Proofs.Bytes
import Intake.Proofs.Zstd.Frames

/-!
# Writing Zstandard frames

A byte string can be written as a frame of blocks that are not compressed: bytes as they are, and
one byte that is repeated. The header of the frame says how large the window is, or that the content
is a single segment, and it may declare the size of the content in a field of one of four widths
(`Layout`). A header that is written is read (`readStart_bytes`) and so are the blocks
(`blocks_written`), so a frame that is written keeps to the limits of the format if its window does
(`frame_written`).
-/

set_option autoImplicit false
set_option relaxedAutoImplicit false

namespace Intake.Zstd

/-! ### Blocks -/

/-- A block that is not compressed. -/
inductive PlainBlock
  | stored (bytes : Bytes)
  | repeated (count : Nat) (byte : UInt8)

namespace PlainBlock

def content : PlainBlock → Bytes
  | stored bytes => bytes
  | repeated count byte => List.replicate count byte

/-- The bytes behind the header of a block. -/
def payload : PlainBlock → Bytes
  | stored bytes => bytes
  | repeated _ byte => [byte]

def kind : PlainBlock → BlockKind
  | stored _ => .raw
  | repeated .. => .repeated

def header (block : PlainBlock) (last : Bool) : BlockHeader :=
  ⟨last, block.kind, block.content.length⟩

def kindNumber : PlainBlock → Nat
  | stored _ => 0
  | repeated .. => 1

/-- The mark of the last block, the kind of the block, and the size of its content. -/
def number (block : PlainBlock) (last : Bool) : Nat :=
  last.toNat + 2 * block.kindNumber + 8 * block.content.length

def bytes (block : PlainBlock) (last : Bool) : Bytes :=
  Bytes.ofNumber 3 (block.number last) ++ block.payload

/-- A block of at most `limit` bytes. A byte is repeated at least once. -/
def IsLegal (limit : Nat) : PlainBlock → Prop
  | stored bytes => bytes.length ≤ limit
  | repeated count _ => 1 ≤ count ∧ count ≤ limit

instance (limit : Nat) : DecidablePred (IsLegal limit)
  | stored _ => inferInstanceAs (Decidable (_ ≤ _))
  | repeated .. => inferInstanceAs (Decidable (_ ∧ _))

/-- The blocks of a frame, of which the last one is marked. -/
def written : List PlainBlock → Bytes
  | [] => []
  | block :: blocks => block.bytes blocks.isEmpty ++ written blocks

/-- The contents of blocks put together. -/
def joined (blocks : List PlainBlock) : Bytes :=
  blocks.flatMap content

theorem length_joined_replicate (blocks count : Nat) (byte : UInt8) :
    (joined (List.replicate blocks (.repeated count byte))).length = blocks * count := by
  simp [joined, content]

variable {block : PlainBlock} {limit : Nat}

theorem IsLegal.length_le (h : block.IsLegal limit) : block.content.length ≤ limit := by
  cases block with
  | stored bytes => exact h
  | repeated count byte =>
    rw [content, List.length_replicate]
    exact h.2

theorem length_payload (block : PlainBlock) (last : Bool) :
    block.payload.length = (block.header last).stored := by
  cases block with
  | stored bytes => rfl
  | repeated count byte => rfl

theorem plain_header (block : PlainBlock) (last : Bool) :
    (block.header last).plain block.payload = block.content := by
  cases block with
  | stored bytes => rfl
  | repeated count byte =>
    rw [BlockHeader.plain, header, kind, if_pos rfl, content, List.length_replicate]
    rfl

theorem IsLegal.stored_le (h : block.IsLegal limit) (last : Bool) :
    (block.header last).stored ≤ limit := by
  cases block with
  | stored bytes => exact h
  | repeated count byte => exact Nat.le_trans h.1 h.2

theorem kindNumber_le (block : PlainBlock) : block.kindNumber ≤ 1 := by
  cases block <;> simp [kindNumber]

theorem ofNumber_number (block : PlainBlock) (last : Bool) :
    BlockHeader.ofNumber (block.number last) = block.header last := by
  have hlast := last.toNat_le
  have hkind := block.kindNumber_le
  have hmark : block.number last % 2 = last.toNat := by
    rw [number]
    omega
  have hmiddle : block.number last / 2 % 4 = block.kindNumber := by
    rw [number]
    omega
  have hsize : block.number last / 8 = block.content.length := by
    rw [number]
    omega
  rw [BlockHeader.ofNumber, hmark, hmiddle, hsize]
  cases last <;> cases block <;> rfl

theorem readBlockHeader_bytes (h : block.IsLegal limit) (hlimit : limit ≤ longestBlock)
    (last : Bool) (rest : Bytes) :
    readBlockHeader (block.bytes last ++ rest) =
      .ok (block.header last, block.payload ++ rest) := by
  have hfits : block.number last < 256 ^ 3 := by
    have hlast := last.toNat_le
    have hkind := block.kindNumber_le
    have hlength := Nat.le_trans h.length_le hlimit
    rw [longestBlock] at hlength
    rw [number]
    omega
  have hnumber : Bytes.littleEndian (Bytes.ofNumber 3 (block.number last)) = block.number last := by
    rw [Bytes.littleEndian_ofNumber, Nat.mod_eq_of_lt hfits]
  have hpart : part 3 (block.bytes last ++ rest) =
      .ok (Bytes.ofNumber 3 (block.number last), block.payload ++ rest) :=
    part_eq_ok_iff.mpr ⟨Bytes.length_ofNumber 3 _, by rw [bytes, List.append_assoc]⟩
  refine map_eq_ok.mpr ⟨_, hpart, ?_⟩
  dsimp only
  rw [hnumber, ofNumber_number]

end PlainBlock

/-! ### Headers -/

/-- How the header of a frame is written. -/
structure Layout where
  /-- The descriptor of the window. Without one the content is a single segment. -/
  window : Option UInt8
  /-- Which width the field for the size of the content has. -/
  sizeFlag : Fin 4
  /-- The bit that no decoder looks at. -/
  unused : Bool
  hasChecksum : Bool
  /-- Which width the field for the number of a dictionary has. The number is zero, for none. -/
  dictionaryFlag : Fin 4

namespace Layout

/-- The descriptor byte of a header. -/
def flags (sizeFlag : Fin 4) (single unused hasChecksum : Bool) (dictionaryFlag : Fin 4) : UInt8 :=
  (dictionaryFlag.val + 4 * hasChecksum.toNat + 16 * unused.toNat + 32 * single.toNat +
    64 * sizeFlag.val).toUInt8

def descriptor (layout : Layout) : UInt8 :=
  flags layout.sizeFlag layout.window.isNone layout.unused layout.hasChecksum layout.dictionaryFlag

/-- How many bytes hold the size of the content. A single segment always declares it. -/
def sizeWidths (single : Bool) : Fin 4 → Nat
  | 0 => single.toNat
  | 1 => 2
  | 2 => 4
  | 3 => 8

def sizeWidth (layout : Layout) : Nat :=
  sizeWidths layout.window.isNone layout.sizeFlag

/-- How many bytes hold the number of a dictionary. -/
def dictionaryWidths : Fin 4 → Nat
  | 0 => 0
  | 1 => 1
  | 2 => 2
  | 3 => 4

/-- The field for the size of the content. Two bytes hold the size from 256 on. -/
def sizeBytes (layout : Layout) (n : Nat) : Bytes :=
  Bytes.ofNumber layout.sizeWidth (if layout.sizeWidth = 2 then n - 256 else n)

def bytes (layout : Layout) (n : Nat) : Bytes :=
  frameMark ++ (layout.descriptor :: (layout.window.toList ++
    (List.replicate (dictionaryWidths layout.dictionaryFlag) 0 ++ layout.sizeBytes n)))

/-- The window of a frame with a content of `n` bytes. -/
def windowSize (layout : Layout) (n : Nat) : Nat :=
  layout.window.elim n windowOf

/-- The size of the content can be written in the field for it, if there is one. -/
def HasRoom (layout : Layout) (n : Nat) : Prop :=
  match layout.sizeWidth with
  | 0 => True
  | 2 => 256 ≤ n ∧ n < 256 + 256 ^ 2
  | width => n < 256 ^ width

/-- A header for a content of `n` bytes. -/
structure IsLegal (layout : Layout) (n : Nat) : Prop where
  window : ∀ descriptor ∈ layout.window, windowOf descriptor ≤ 2 ^ 27
  size : layout.HasRoom n

/-- What a header says. -/
def header (layout : Layout) (n : Nat) : Header :=
  ⟨layout.windowSize n, declaredSize (layout.sizeBytes n), layout.hasChecksum, 0⟩

/-- What a descriptor byte says is read from it. -/
theorem read_flags : ∀ (sizeFlag : Fin 4) (single unused hasChecksum : Bool)
    (dictionaryFlag : Fin 4),
    let descriptor := flags sizeFlag single unused hasChecksum dictionaryFlag
    descriptor &&& 0x08 = 0 ∧ (descriptor &&& 0x20 ≠ 0 ↔ single = true) ∧
      decide (descriptor &&& 4 ≠ 0) = hasChecksum ∧
      Zstd.sizeWidth descriptor = sizeWidths single sizeFlag ∧
      dictionaryWidth descriptor = dictionaryWidths dictionaryFlag := by
  decide

theorem sizeWidths_single : ∀ sizeFlag : Fin 4, sizeWidths true sizeFlag ≠ 0 := by
  decide

variable {layout : Layout} {n : Nat}

theorem lt_of_windowOf_le {descriptor : UInt8} (h : windowOf descriptor ≤ 2 ^ 27) :
    descriptor < 0xB0 := by
  by_contra hlarge
  have hnat : 176 ≤ descriptor.toNat := by simpa [UInt8.lt_iff_toNat_lt] using hlarge
  have hpower : 2 ^ 32 ≤ 2 ^ (10 + descriptor.toNat / 8) :=
    Nat.pow_le_pow_right (by decide) (by omega)
  rw [windowOf] at h
  have hbase := Nat.le_trans (Nat.le_add_right _ _) h
  exact absurd (Nat.le_trans hpower hbase) (by decide)

theorem sizeField_sizeBytes (hroom : layout.HasRoom n) (hwidth : layout.sizeWidth ≠ 0) :
    sizeField (layout.sizeBytes n) = n := by
  rw [sizeField, sizeBytes, Bytes.length_ofNumber, Bytes.littleEndian_ofNumber]
  rw [HasRoom] at hroom
  split at hroom
  · exact absurd ‹_› hwidth
  · rename_i htwo
    simp only [htwo, if_true]
    omega
  · rename_i htwo
    rw [if_neg htwo, if_neg htwo, Nat.mod_eq_of_lt hroom]

/-- A content of the size that is written fits the header. -/
theorem fits_header (hroom : layout.HasRoom n) : (layout.header n).fits n = true := by
  by_cases hwidth : layout.sizeWidth = 0
  · have hnil : layout.sizeBytes n = [] := by rw [sizeBytes, hwidth, Bytes.ofNumber]
    simp [header, Header.fits, declaredSize, hnil]
  · rw [header, Header.fits, declaredSize, sizeField_sizeBytes hroom hwidth]
    split <;> simp

theorem ofFields_written (hlegal : layout.IsLegal n) :
    Header.ofFields layout.descriptor layout.window.toList
      (List.replicate (dictionaryWidths layout.dictionaryFlag) 0) (layout.sizeBytes n) =
        .ok (layout.header n) := by
  obtain ⟨hreserved, -, hchecksum, -⟩ := read_flags layout.sizeFlag layout.window.isNone
    layout.unused layout.hasChecksum layout.dictionaryFlag
  rw [← descriptor] at hreserved hchecksum
  cases hwindow : layout.window with
  | none =>
    have hwidth : layout.sizeWidth ≠ 0 := by
      rw [sizeWidth, hwindow]
      exact sizeWidths_single layout.sizeFlag
    have hsize := sizeField_sizeBytes hlegal.size hwidth
    rw [Option.toList_none, Header.ofFields, if_neg (not_not.mpr hreserved), hchecksum,
      Bytes.littleEndian_replicate_zero, hsize, header, windowSize, hwindow, Option.elim_none]
  | some window =>
    have hsmall := lt_of_windowOf_le (hlegal.window window hwindow)
    rw [Option.toList_some, Header.ofFields, if_neg (not_not.mpr hreserved), hchecksum,
      Bytes.littleEndian_replicate_zero, if_neg (UInt8.not_le.mpr hsmall), header, windowSize,
      hwindow, Option.elim_some]

/-- A header that is written is read. -/
theorem readStart_bytes (hlegal : layout.IsLegal n) (rest : Bytes) :
    readStart (layout.bytes n ++ rest) = .ok (.frame (layout.header n), rest) := by
  obtain ⟨-, hsingle, -, hsize, hdictionary⟩ := read_flags layout.sizeFlag layout.window.isNone
    layout.unused layout.hasChecksum layout.dictionaryFlag
  rw [← descriptor] at hsingle hsize hdictionary
  have hfields : readFields layout.descriptor (layout.window.toList ++
      (List.replicate (dictionaryWidths layout.dictionaryFlag) 0 ++
        (layout.sizeBytes n ++ rest))) = .ok (layout.header n, rest) := by
    simp only [readFields, bind_eq_ok, Prod.exists]
    refine ⟨_, _, part_eq_ok_iff.mpr ⟨?_, rfl⟩, _, _, part_eq_ok_iff.mpr ⟨?_, rfl⟩, _, _,
      part_eq_ok_iff.mpr ⟨?_, rfl⟩, _, ofFields_written hlegal, rfl⟩
    · rw [if_congr hsingle rfl rfl]
      cases layout.window <;> rfl
    · rw [List.length_replicate, hdictionary]
    · rw [sizeBytes, Bytes.length_ofNumber, hsize, sizeWidth]
  refine readStart_eq_ok_iff.mpr ⟨frameMark, _, part_eq_ok_iff.mpr ⟨rfl, ?_⟩, .inl ⟨rfl,
    [layout.descriptor], _, _, part_eq_ok_iff.mpr ⟨rfl, rfl⟩, hfields, rfl⟩⟩
  simp [bytes]

end Layout

/-! ### Frames -/

/-- The largest content of a block of the frame. -/
def Layout.blockLimit (layout : Layout) (n : Nat) : Nat :=
  min (layout.windowSize n) (2 ^ 17)

/-- What follows the last block. -/
def Layout.checksum (layout : Layout) (raw : Bytes) : Bytes :=
  if layout.hasChecksum then Bytes.ofNumber 4 (contentChecksum raw) else []

/-- A frame of blocks that are not compressed. -/
def Layout.frame (layout : Layout) (blocks : List PlainBlock) : Bytes :=
  let raw := PlainBlock.joined blocks
  layout.bytes raw.length ++ (PlainBlock.written blocks ++ layout.checksum raw)

section Written

variable {layout : Layout} {blocks : List PlainBlock} {raw : Bytes}

theorem readChecksum_checksum (layout : Layout) (raw : Bytes) (n : Nat) :
    readChecksum (layout.header n) raw (layout.checksum raw) = .ok [] := by
  have hsmall : contentChecksum raw < 256 ^ 4 := Nat.mod_lt _ (by decide)
  refine readChecksum_eq_ok_iff.mpr
    ⟨layout.checksum raw, part_eq_ok_iff.mpr ⟨?_, (List.append_nil _).symm⟩, fun hthere ↦ ?_⟩
  · rw [Layout.checksum, Header.checksumWidth, Layout.header]
    dsimp only
    split
    · exact Bytes.length_ofNumber 4 _
    · rfl
  · have hchecksum : layout.hasChecksum = true := hthere
    rw [Layout.checksum, if_pos hchecksum, Bytes.littleEndian_ofNumber, Nat.mod_eq_of_lt hsmall]

variable [Release]

/-- A block adds its content, and keeps to the limits. -/
theorem PlainBlock.isBlock_header {h : Header} {block : PlainBlock}
    (hlegal : block.IsLegal h.blockLimit) (last : Bool) (memory : Memory) (output : Array UInt8) :
    IsBlock h (block.header last) block.payload memory output memory
      (output ++ block.content) where
  adds := by
    have hkind : (block.header last).kind = .raw ∨ (block.header last).kind = .repeated := by
      cases block with
      | stored => exact .inl rfl
      | repeated => exact .inr rfl
    rw [← plain_header block last]
    exact .plain hkind
  stored := hlegal.stored_le last
  content := by
    rw [size_appendBytes, Nat.add_sub_cancel_left]
    exact hlegal.length_le

/-- Blocks that are written are read, and add their contents. -/
theorem blocks_written {h : Header} {blocks : List PlainBlock} (hne : blocks ≠ [])
    (hlegal : ∀ block ∈ blocks, block.IsLegal h.blockLimit) (memory : Memory)
    (output : Array UInt8) (rest : Bytes) :
    Blocks h memory output (PlainBlock.written blocks ++ rest)
      (output ++ PlainBlock.joined blocks) rest := by
  induction blocks generalizing output with
  | nil => exact absurd rfl hne
  | cons block blocks ih =>
    obtain ⟨hblock, hblocks⟩ := List.forall_mem_cons.mp hlegal
    have hheader := PlainBlock.readBlockHeader_bytes hblock (Nat.min_le_right _ _) blocks.isEmpty
      (PlainBlock.written blocks ++ rest)
    have hpart : part (block.header blocks.isEmpty).stored
        (block.payload ++ (PlainBlock.written blocks ++ rest)) =
          .ok (block.payload, PlainBlock.written blocks ++ rest) :=
      part_eq_ok_iff.mpr ⟨block.length_payload _, rfl⟩
    have hadds := PlainBlock.isBlock_header hblock blocks.isEmpty memory output
    rw [PlainBlock.written, List.append_assoc]
    cases blocks with
    | nil =>
      simpa [PlainBlock.joined, PlainBlock.written] using
        Blocks.last hheader hpart rfl hadds
    | cons next blocks =>
      have hmore := ih (List.cons_ne_nil _ _) hblocks (output ++ block.content)
      have hjoined : output ++ block.content ++ PlainBlock.joined (next :: blocks) =
          output ++ PlainBlock.joined (block :: next :: blocks) := by
        apply Array.toList_inj.mp
        simp [PlainBlock.joined]
      rw [hjoined] at hmore
      exact .more hheader hpart rfl hadds hmore

/-- A frame that is written keeps to the limits if its window is not too large. -/
theorem frame_written (hraw : raw = PlainBlock.joined blocks) (hlegal : layout.IsLegal raw.length)
    (hne : blocks ≠ []) (hblocks : ∀ block ∈ blocks, block.IsLegal (layout.blockLimit raw.length))
    (hwindow : layout.windowSize raw.length ≤ longestWindow) :
    Frame (layout.frame blocks) raw [] := by
  subst hraw
  let raw := PlainBlock.joined blocks
  let header := layout.header raw.length
  let output : Array UInt8 := (#[] : Array UInt8) ++ raw
  have hcontent : output.toList = raw := by simp [output]
  have hlimit : ∀ block ∈ blocks, block.IsLegal header.blockLimit := hblocks
  have hread : Blocks header .initial #[] (PlainBlock.written blocks ++ layout.checksum raw)
      output (layout.checksum raw) := blocks_written hne hlimit .initial #[] _
  have hsum : readChecksum header output.toList (layout.checksum raw) = .ok [] := by
    rw [hcontent]
    exact readChecksum_checksum layout raw raw.length
  have hfits : header.fits output.size = true := by
    rw [← Array.length_toList, hcontent]
    exact Layout.fits_header hlegal.size
  have hframe := Frame.content (Layout.readStart_bytes hlegal _) rfl hwindow hread hfits hsum
  rwa [hcontent] at hframe

end Written

end Intake.Zstd
