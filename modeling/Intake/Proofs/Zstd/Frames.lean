import Intake.Proofs.Zstd.Local
import Intake.Proofs.Zstd.Room

/-!
# Frames that keep to the limits of the format

Whether a frame is decoded, in one pass or in pieces, may depend on where it is in the body and on
the frames in front of it. `Frame` says, without a decoder, what a frame stands for that keeps to
the limits of the format: its window is not too large, its content has the declared size, no block
is too large, and no copy reaches further back than the window. Such a frame is decoded as that in
one pass (`readWhole_of_blocks`) and in pieces (`exists_readPieces_of_blocks`), so by every decoder
that takes nothing else for it (`exists_next_of_frame`).
-/

set_option autoImplicit false
set_option relaxedAutoImplicit false

namespace Intake.Zstd

variable {h : Header} {b : BlockHeader} {payload : Bytes} {memory memory' : Memory}
  {output output' : Array UInt8}

theorem BlockHeader.stored_of_ne (hkind : b.kind ≠ .repeated) : b.stored = b.size :=
  if_neg hkind

theorem BlockHeader.length_plain (hlength : payload.length = b.stored) :
    (b.plain payload).length = b.size := by
  rw [plain]
  split
  · exact List.length_replicate
  · rename_i hkind
    rw [hlength, stored_of_ne hkind]

/-! ### Buffers -/

@[simp] theorem Pieces.memory_add (p : Pieces) (h : Header) (buffer : Nat) (memory : Memory)
    (output : Array UInt8) : (p.add h buffer memory output).memory = memory := by
  simp only [add]
  split
  · rfl
  · split <;> rfl

@[simp] theorem Pieces.output_add (p : Pieces) (h : Header) (buffer : Nat) (memory : Memory)
    (output : Array UInt8) : (p.add h buffer memory output).output = output := by
  simp only [add]
  split
  · rfl
  · split <;> rfl

/-- The decoder returns to the beginning of the buffer before its end. -/
def Header.wraps (h : Header) (buffer : Nat) : Prop :=
  h.size.all (buffer < ·) = true

theorem Buffers.le_output_fit (buffers : Buffers) (input output : Nat) :
    output ≤ (buffers.fit input output).output := by
  unfold fit
  dsimp only
  generalize (if 3 * (input + output) ≤ buffers.input + buffers.output then
    buffers.excess + 1 else 0) = excess
  split
  · exact Nat.le_refl _
  · rename_i hlarge
    dsimp only
    omega

variable [Release]

/-- Where the decoder is in a buffer that is large enough. If it returns to the beginning, there
is room for a block, and whatever it writes for the block, the window in front of it will still be
there. Otherwise it has not returned. -/
structure Pieces.Fits (p : Pieces) (h : Header) (buffer : Nat) : Prop where
  filled : p.history.turn + p.filled = p.output.size
  history : p.history = .initial ∨
    p.history.earliest + h.window + h.compressedLimit + 64 ≤ p.history.turn
  room : h.wraps buffer → p.filled + h.blockLimit ≤ buffer ∧
    h.window + h.compressedLimit + 64 + h.blockLimit ≤ buffer
  once : ¬ h.wraps buffer → p.history = .initial

namespace Pieces.Fits

variable {p : Pieces} {buffer : Nat}

/-- All that a block may copy is there. -/
theorem keeps (hfits : p.Fits h buffer) :
    p.history.Keeps (p.output.size - h.window) (p.output.size + h.compressedLimit + 64) := by
  have hfilled := hfits.filled
  obtain hinitial | hearlier := hfits.history
  · rw [hinitial]
    exact History.keeps_initial _ _
  · exact ⟨by omega, .inr (by omega)⟩

/-- The decoder has room for what keeps to the limits. -/
theorem le_room {size total : Nat} (hfits : p.Fits h buffer) (hlimit : size ≤ h.blockLimit)
    (htotal : p.output.size + size ≤ total) (hdeclared : h.fits total = true) :
    size ≤ buffer - p.filled := by
  by_cases hwraps : h.wraps buffer
  · have := (hfits.room hwraps).1
    omega
  · have hfilled := hfits.filled
    rw [hfits.once hwraps, History.initial] at hfilled
    rw [Header.wraps] at hwraps
    cases hsize : h.size with
    | none => simp [hsize] at hwraps
    | some declared =>
      simp only [hsize, Option.all_some, decide_eq_true_eq, Nat.not_lt] at hwraps
      simp only [Header.fits, hsize, Option.all_some, decide_eq_true_eq] at hdeclared
      omega

/-- The decoder stays inside the buffer. -/
theorem add (hfits : p.Fits h buffer) (hgrows : p.output.size ≤ output.size) :
    (p.add h buffer memory output).Fits h buffer := by
  obtain ⟨hfilled, hhistory, hroom, honce⟩ := hfits
  simp only [Pieces.add]
  split
  · rename_i hempty
    exact ⟨by simp only; omega, hhistory, hroom, honce⟩
  · split
    · rename_i hturn
      obtain ⟨hwraps, hend⟩ := hturn
      obtain ⟨-, hbuffer⟩ := hroom hwraps
      refine ⟨rfl, .inr ?_, fun _ ↦ ⟨?_, hbuffer⟩, fun hnot ↦ absurd hwraps hnot⟩
      · simp only
        omega
      · simp only
        omega
    · rename_i hturn
      refine ⟨?_, hhistory, fun hwraps ↦ ⟨?_, (hroom hwraps).2⟩, honce⟩
      · simp only
        omega
      · have hend : ¬ buffer < p.filled + (output.size - p.output.size) + h.blockLimit :=
          fun hend ↦ hturn ⟨hwraps, hend⟩
        simp only
        omega

end Pieces.Fits

/-- Bytes as they are may go into the buffer in parts. -/
theorem exists_store (bytes : Bytes) {p : Pieces} {buffer total : Nat} (hfits : p.Fits h buffer)
    (hlimit : bytes.length ≤ h.blockLimit) (htotal : p.output.size + bytes.length ≤ total)
    (hdeclared : h.fits total = true) :
    ∃ q, p.store h buffer bytes = .ok q ∧ q.memory = p.memory ∧ q.output = p.output ++ bytes ∧
      q.Fits h buffer := by
  have hroom := hfits.le_room hlimit htotal hdeclared
  have hsize := size_appendBytes p.output bytes
  exact ⟨_, Pieces.store_eq_ok_iff.mpr ⟨hroom, rfl⟩, by simp, by simp,
    hfits.add (by omega)⟩

/-! ### Blocks -/

/-- What a block adds to the content of its frame. No copy reaches further back than the window in
front of the block. -/
inductive Adds (h : Header) (b : BlockHeader) (payload : Bytes) (memory : Memory)
    (output : Array UInt8) : Memory → Array UInt8 → Prop
  | plain (hkind : b.kind = .raw ∨ b.kind = .repeated) :
    Adds h b payload memory output memory (output ++ b.plain payload)
  | compressed {memory' : Memory} {output' : Array UInt8} (hkind : b.kind = .compressed)
    (hread : runCompressed ⟨h.compressedLimit, output'.size - output.size, false⟩
      ⟨0, output.size - h.window⟩ memory output payload = .ok (output', memory')) :
    Adds h b payload memory output memory' output'

/-- A block that is not too large, before or behind decompression. -/
structure IsBlock (h : Header) (b : BlockHeader) (payload : Bytes) (memory : Memory)
    (output : Array UInt8) (memory' : Memory) (output' : Array UInt8) : Prop where
  adds : Adds h b payload memory output memory' output'
  stored : b.stored ≤ h.blockLimit
  content : output'.size - output.size ≤ h.blockLimit

/-- The content of a frame from a block on, and the bytes behind its last block. -/
inductive Blocks (h : Header) : Memory → Array UInt8 → Bytes → Array UInt8 → Bytes → Prop
  | last {memory memory' : Memory} {output output' : Array UInt8} {s s₁ payload rest : Bytes}
    {b : BlockHeader} (hheader : readBlockHeader s = .ok (b, s₁))
    (hpart : part b.stored s₁ = .ok (payload, rest)) (hlast : b.last = true)
    (hblock : IsBlock h b payload memory output memory' output') :
    Blocks h memory output s output' rest
  | more {memory memory' : Memory} {output output' content : Array UInt8}
    {s s₁ payload s₂ rest : Bytes} {b : BlockHeader} (hheader : readBlockHeader s = .ok (b, s₁))
    (hpart : part b.stored s₁ = .ok (payload, s₂)) (hlast : b.last = false)
    (hblock : IsBlock h b payload memory output memory' output')
    (hmore : Blocks h memory' output' s₂ content rest) : Blocks h memory output s content rest

/-- What keeps to the limit for blocks keeps to the one for compressed blocks. -/
theorem Header.blockLimit_le_compressedLimit (h : Header) : h.blockLimit ≤ h.compressedLimit := by
  rw [compressedLimit]
  split
  · exact Nat.le_refl _
  · exact Nat.min_le_right _ _

theorem Adds.ne_reserved (hadds : Adds h b payload memory output memory' output') :
    b.kind ≠ .reserved := by
  cases hadds with
  | plain hkind => obtain hkind | hkind := hkind <;> simp [hkind]
  | compressed hkind => simp [hkind]

theorem Adds.size_le (hadds : Adds h b payload memory output memory' output') :
    output.size ≤ output'.size := by
  cases hadds with
  | plain =>
    rw [size_appendBytes]
    exact Nat.le_add_right _ _
  | compressed hkind hread => exact size_le_of_runCompressed hread

/-- A block that stores no byte is one of bytes as they are, and adds nothing. -/
theorem Adds.of_stored_eq_zero (hadds : Adds h b payload memory output memory' output')
    (hlength : payload.length = b.stored) (hempty : b.stored = 0) :
    memory' = memory ∧ output' = output := by
  obtain rfl : payload = [] := List.length_eq_zero_iff.mp (hlength.trans hempty)
  cases hadds with
  | plain =>
    have hkind : b.kind ≠ .repeated := fun hkind ↦ by simp [BlockHeader.stored, hkind] at hempty
    rw [BlockHeader.plain, if_neg hkind, Array.appendList_nil]
    exact ⟨rfl, rfl⟩
  | compressed hkind hread => exact absurd hread not_runCompressed_nil

theorem Blocks.size_le {content : Array UInt8} {s rest : Bytes}
    (hblocks : Blocks h memory output s content rest) : output.size ≤ content.size := by
  induction hblocks with
  | last _ _ _ hblock => exact hblock.adds.size_le
  | more _ _ _ hblock _ ih => exact Nat.le_trans hblock.adds.size_le ih

/-- The blocks of a frame are the same in front of any bytes. -/
theorem Blocks.exists_used {content : Array UInt8} {s rest : Bytes}
    (hblocks : Blocks h memory output s content rest) :
    ∃ used, s = used ++ rest ∧ ∀ t, Blocks h memory output (used ++ t) content t := by
  induction hblocks with
  | last hheader hpart hlast hblock =>
    obtain ⟨used₁, rfl, hused₁⟩ := isLocal_readBlockHeader hheader
    obtain ⟨used₂, rfl, hused₂⟩ := isLocal_part _ hpart
    refine ⟨used₁ ++ used₂, by rw [List.append_assoc], fun t ↦ ?_⟩
    rw [List.append_assoc]
    exact .last (hused₁ _) (hused₂ t) hlast hblock
  | more hheader hpart hlast hblock _ ih =>
    obtain ⟨used₁, rfl, hused₁⟩ := isLocal_readBlockHeader hheader
    obtain ⟨used₂, rfl, hused₂⟩ := isLocal_part _ hpart
    obtain ⟨used₃, rfl, hused₃⟩ := ih
    refine ⟨used₁ ++ used₂ ++ used₃, by simp only [List.append_assoc], fun t ↦ ?_⟩
    simp only [List.append_assoc]
    exact .more (hused₁ _) (hused₂ _) hlast hblock (hused₃ t)

/-! ### In one pass -/

/-- In one pass a block needs the room of what it adds. -/
theorem runsWhole_of_isBlock {room : Nat} (hlength : payload.length = b.stored)
    (hblock : IsBlock h b payload memory output memory' output') (hroom : output'.size ≤ room) :
    RunsWhole h room b payload memory output memory' output' := by
  obtain ⟨hadds, hstored, hcontent⟩ := hblock
  have hlimit := h.blockLimit_le_compressedLimit
  cases hadds with
  | plain hkind =>
    have hother : b.kind ≠ .compressed := by obtain hkind | hkind := hkind <;> simp [hkind]
    rw [size_appendBytes, BlockHeader.length_plain hlength] at hroom
    exact .inl ⟨hother, by omega, rfl, rfl⟩
  | compressed hkind hread =>
    rw [BlockHeader.stored_of_ne (by simp [hkind])] at hstored
    have hwithin := Limits.within_block true (Nat.sub_le_sub_right hroom output.size)
      (Nat.le_trans hcontent hlimit)
    exact .inr ⟨hkind, Nat.le_trans hstored hlimit,
      runCompressed_mono hread hwithin (History.keeps_initial _ _)⟩

/-- What a block adds in one pass is what it adds by itself. -/
theorem Adds.eq_of_runsWhole {room : Nat} {memory'' : Memory} {output'' : Array UInt8}
    (hadds : Adds h b payload memory output memory' output')
    (hruns : RunsWhole h room b payload memory output memory'' output'') :
    memory'' = memory' ∧ output'' = output' := by
  cases hadds with
  | plain hkind =>
    obtain ⟨-, -, rfl, rfl⟩ | ⟨hcompressed, -⟩ := hruns
    · exact ⟨rfl, rfl⟩
    · simp [hcompressed] at hkind
  | compressed hkind hread =>
    obtain ⟨hother, -⟩ | ⟨-, -, hread'⟩ := hruns
    · exact absurd hkind hother
    · have hwide := runCompressed_mono hread
        (Limits.within_pieces (Nat.le_max_left _ (room - output.size)))
        (History.keeps_initial _ _)
      have hwide' := runCompressed_mono hread'
        (Limits.within_pieces (Nat.le_max_right (output'.size - output.size) _))
        (History.keeps_initial _ _)
      obtain ⟨rfl, rfl⟩ := Prod.mk.inj (Except.ok.inj (hwide'.symm.trans hwide))
      exact ⟨rfl, rfl⟩

theorem readWhole_of_blocks {room : Nat} {content : Array UInt8} {s behind rest : Bytes}
    (hblocks : Blocks h memory output s content behind) (hroom : content.size ≤ room)
    (hfits : h.fits content.size = true) (hsum : readChecksum h content.toList behind = .ok rest) :
    readWhole h room memory output s = .ok (content, rest) := by
  induction hblocks with
  | last hheader hpart hlast hblock =>
    have hruns := runsWhole_of_isBlock (part_eq_ok_iff.mp hpart).1 hblock hroom
    exact readWhole_eq_ok_iff.mpr ⟨_, _, _, _, _, _, hheader, hpart, hblock.adds.ne_reserved, hruns,
      .inl ⟨hlast, hfits, rfl, hsum⟩⟩
  | more hheader hpart hlast hblock hmore ih =>
    have hruns := runsWhole_of_isBlock (part_eq_ok_iff.mp hpart).1 hblock
      (Nat.le_trans hmore.size_le hroom)
    exact readWhole_eq_ok_iff.mpr ⟨_, _, _, _, _, _, hheader, hpart, hblock.adds.ne_reserved, hruns,
      .inr ⟨hlast, ih hroom hfits hsum⟩⟩

/-- What is decoded in one pass is what the blocks stand for. -/
theorem Blocks.eq_of_readWhole {room : Nat} {content found : Array UInt8} {s behind rest : Bytes}
    (hblocks : Blocks h memory output s content behind)
    (hread : readWhole h room memory output s = .ok (found, rest)) :
    found = content ∧ readChecksum h content.toList behind = .ok rest := by
  induction hblocks with
  | last hheader hpart hlast hblock =>
    obtain ⟨b, s₁, payload, s₂, memory', output', hheader', hpart', -, hruns, hrest⟩ :=
      readWhole_eq_ok_iff.mp hread
    obtain ⟨rfl, rfl⟩ := Prod.mk.inj (Except.ok.inj (hheader.symm.trans hheader'))
    obtain ⟨rfl, rfl⟩ := Prod.mk.inj (Except.ok.inj (hpart.symm.trans hpart'))
    obtain ⟨rfl, rfl⟩ := hblock.adds.eq_of_runsWhole hruns
    obtain ⟨-, -, rfl, hsum⟩ | ⟨hmore, -⟩ := hrest
    · exact ⟨rfl, hsum⟩
    · simp [hlast] at hmore
  | more hheader hpart hlast hblock _ ih =>
    obtain ⟨b, s₁, payload, s₂, memory', output', hheader', hpart', -, hruns, hrest⟩ :=
      readWhole_eq_ok_iff.mp hread
    obtain ⟨rfl, rfl⟩ := Prod.mk.inj (Except.ok.inj (hheader.symm.trans hheader'))
    obtain ⟨rfl, rfl⟩ := Prod.mk.inj (Except.ok.inj (hpart.symm.trans hpart'))
    obtain ⟨rfl, rfl⟩ := hblock.adds.eq_of_runsWhole hruns
    obtain ⟨hend, -⟩ | ⟨-, hread⟩ := hrest
    · simp [hlast] at hend
    · exact ih hread

/-! ### In pieces -/

/-- The decoder keeps a window of a frame, what it may write for a block, and one more block. -/
theorem Buffers.le_ring (h : Header) :
    h.window + h.compressedLimit + 64 + h.blockLimit ≤ ring h.window h.blockLimit := by
  simp only [ring, Header.compressedLimit, Header.blockLimit]
  split <;> omega

/-- Every buffer that a frame is decoded with is large enough at its beginning. -/
theorem Pieces.fits_initial (buffers : Buffers) (h : Header) :
    Pieces.initial.Fits h (buffers.forFrame h).output := by
  have hring := Buffers.le_ring h
  have hneeded : h.size.elim (Buffers.ring h.window h.blockLimit)
      (min · (Buffers.ring h.window h.blockLimit)) ≤ (buffers.forFrame h).output :=
    buffers.le_output_fit (max h.blockLimit 4) _
  refine ⟨rfl, .inl rfl, fun hwraps ↦ ?_, fun _ ↦ rfl⟩
  have hbuffer : Buffers.ring h.window h.blockLimit ≤ (buffers.forFrame h).output := by
    rw [Header.wraps] at hwraps
    cases hsize : h.size with
    | none => simpa [hsize] using hneeded
    | some declared =>
      simp only [hsize, Option.all_some, decide_eq_true_eq] at hwraps
      simp only [hsize, Option.elim_some] at hneeded
      omega
  have hfilled : Pieces.initial.filled = 0 := rfl
  exact ⟨by omega, by omega⟩

theorem exists_readBlock {p : Pieces} {buffer place total : Nat} {s rest : Bytes}
    (hpart : part b.stored s = .ok (payload, rest))
    (hblock : IsBlock h b payload p.memory p.output memory' output') (hfits : p.Fits h buffer)
    (htotal : output'.size ≤ total) (hdeclared : h.fits total = true) :
    ∃ q, p.readBlock h buffer place b s = .ok (q, rest) ∧ q.memory = memory' ∧
      q.output = output' ∧ q.Fits h buffer := by
  obtain ⟨hadds, -, hlimit⟩ := hblock
  have hgrows := hadds.size_le
  have hroom := hfits.le_room hlimit (by omega) hdeclared
  have hrun : b.kind ≠ .raw → p.run h buffer b payload = .ok (p.add h buffer memory' output') := by
    intro hraw
    refine Pieces.run_eq_ok_iff.mpr ⟨output', memory', ?_, hlimit, rfl⟩
    cases hadds with
    | plain hkind =>
      rw [size_appendBytes, BlockHeader.length_plain (part_eq_ok_iff.mp hpart).1] at hroom
      exact .inl ⟨hkind.resolve_left hraw, by omega, rfl, rfl⟩
    | compressed hkind hread =>
      have hwithin := Limits.within_block false hroom
        (Nat.le_trans hlimit h.blockLimit_le_compressedLimit)
      exact .inr ⟨by simp [hkind], runCompressed_mono hread hwithin hfits.keeps⟩
  by_cases hraw : b.kind = .raw
  · obtain ⟨rfl, rfl⟩ : memory' = p.memory ∧ output' = p.output ++ payload := by
      cases hadds with
      | plain => exact ⟨rfl, by rw [BlockHeader.plain, if_neg (by simp [hraw])]⟩
      | compressed hkind => simp [hraw] at hkind
    rw [size_appendBytes] at hlimit htotal
    have hsplit : (payload.take (ahead place)).length + (payload.drop (ahead place)).length =
        payload.length := by
      rw [← List.length_append, List.take_append_drop]
    obtain ⟨middle, hfirst, hmemory, houtput, hmiddle⟩ :=
      exists_store (payload.take (ahead place)) hfits (by omega) (by omega) hdeclared
    have hsize : middle.output.size = p.output.size + (payload.take (ahead place)).length := by
      rw [houtput, size_appendBytes]
    obtain ⟨q, hsecond, hmemory', houtput', hq⟩ :=
      exists_store (payload.drop (ahead place)) hmiddle (by omega) (by omega) hdeclared
    refine ⟨q, Pieces.readBlock_eq_ok_iff.mpr ⟨payload, hpart, .inl ⟨hraw, middle, hfirst,
      hsecond⟩⟩, hmemory'.trans hmemory, ?_, hq⟩
    rw [houtput', houtput]
    apply Array.toList_inj.mp
    simp
  · exact ⟨_, Pieces.readBlock_eq_ok_iff.mpr ⟨payload, hpart, .inr ⟨hraw, hrun hraw⟩⟩, by simp,
      by simp, hfits.add hgrows⟩

/-- In pieces blocks that keep to the limits are decoded wherever the decoder is in its buffer and
in the body. -/
theorem exists_readPieces_of_blocks (place : Nat) {buffer : Nat} {p : Pieces}
    {content : Array UInt8} {s behind rest : Bytes}
    (hblocks : Blocks h memory output s content behind) (hmemory : p.memory = memory)
    (houtput : p.output = output) (hfits : p.Fits h buffer)
    (hdeclared : h.fits content.size = true)
    (hsum : readChecksum h content.toList behind = .ok rest) :
    ∃ q, readPieces h buffer place p s = .ok (q, rest) ∧ q.output = content := by
  induction hblocks generalizing p place with
  | @last memory memory' output output' s s₁ payload behind b hheader hpart hlast hblock =>
    subst hmemory houtput
    have hreserved := hblock.adds.ne_reserved
    have hlength := (part_eq_ok_iff.mp hpart).1
    by_cases hempty : b.stored = 0
    · obtain ⟨-, rfl⟩ := hblock.adds.of_stored_eq_zero hlength hempty
      obtain ⟨-, rfl⟩ :=
        Prod.mk.inj (Except.ok.inj (hpart.symm.trans (part_of_stored_eq_zero hempty)))
      exact ⟨p, readPieces_eq_ok_iff.mpr ⟨b, _, hheader, hreserved, hblock.stored,
        .inl ⟨hempty, .inl ⟨hlast, rfl, hsum⟩⟩⟩, rfl⟩
    · obtain ⟨q, hread, -, rfl, -⟩ := exists_readBlock hpart hblock hfits (Nat.le_refl _) hdeclared
      exact ⟨q, readPieces_eq_ok_iff.mpr ⟨b, s₁, hheader, hreserved, hblock.stored,
        .inr ⟨hempty, q, behind, hread, .inl ⟨hlast, hdeclared, rfl, hsum⟩⟩⟩, rfl⟩
  | @more memory memory' output output' content s s₁ payload s₂ behind b hheader hpart hlast hblock
      hmore ih =>
    subst hmemory houtput
    have hreserved := hblock.adds.ne_reserved
    have hlength := (part_eq_ok_iff.mp hpart).1
    by_cases hempty : b.stored = 0
    · obtain ⟨rfl, rfl⟩ := hblock.adds.of_stored_eq_zero hlength hempty
      obtain ⟨-, rfl⟩ :=
        Prod.mk.inj (Except.ok.inj (hpart.symm.trans (part_of_stored_eq_zero hempty)))
      obtain ⟨q, hread, hq⟩ := ih _ rfl rfl hfits hdeclared hsum
      exact ⟨q, readPieces_eq_ok_iff.mpr ⟨b, _, hheader, hreserved, hblock.stored,
        .inl ⟨hempty, .inr ⟨hlast, hread⟩⟩⟩, hq⟩
    · obtain ⟨p', hblock', hmemory, houtput, hfits'⟩ :=
        exists_readBlock hpart hblock hfits hmore.size_le hdeclared
      obtain ⟨q, hread, hq⟩ := ih _ hmemory houtput hfits' hdeclared hsum
      exact ⟨q, readPieces_eq_ok_iff.mpr ⟨b, s₁, hheader, hreserved, hblock.stored,
        .inr ⟨hempty, p', s₂, hblock', .inr ⟨hlast, hread⟩⟩⟩, hq⟩

/-! ### Frames -/

/-- What the frame at the beginning of a byte string stands for, and the bytes behind it. -/
inductive Frame : Bytes → Bytes → Bytes → Prop
  | skippable {s s₁ skipped rest : Bytes} {size : Nat}
    (hstart : readStart s = .ok (.skippable size, s₁))
    (hpart : part size s₁ = .ok (skipped, rest)) : Frame s [] rest
  | content {s s₁ behind rest : Bytes} {h : Header} {output : Array UInt8}
    (hstart : readStart s = .ok (.frame h, s₁)) (hdictionary : h.dictionary = 0)
    (hwindow : h.window ≤ longestWindow) (hblocks : Blocks h .initial #[] s₁ output behind)
    (hfits : h.fits output.size = true)
    (hsum : readChecksum h output.toList behind = .ok rest) : Frame s output.toList rest

/-- What the frames of a body stand for, up to its last byte. -/
inductive Frames : Bytes → List Bytes → Prop
  | last {s content : Bytes} (hframe : Frame s content []) : Frames s [content]
  | more {s content rest : Bytes} {contents : List Bytes} (hframe : Frame s content rest)
    (hrest : rest ≠ []) (hmore : Frames rest contents) : Frames s (content :: contents)

theorem Frame.ne_nil {s content rest : Bytes} (hframe : Frame s content rest) : s ≠ [] := by
  rintro rfl
  cases hframe with
  | skippable hstart => exact absurd (length_readStart hstart) (Nat.not_lt_zero _)
  | content hstart => exact absurd (length_readStart hstart) (Nat.not_lt_zero _)

/-- A frame is the same in front of any bytes. -/
theorem Frame.exists_used {s content rest : Bytes} (hframe : Frame s content rest) :
    ∃ used, s = used ++ rest ∧ ∀ t, Frame (used ++ t) content t := by
  cases hframe with
  | skippable hstart hpart =>
    obtain ⟨used₁, rfl, hused₁⟩ := isLocal_readStart hstart
    obtain ⟨used₂, rfl, hused₂⟩ := isLocal_part _ hpart
    refine ⟨used₁ ++ used₂, by rw [List.append_assoc], fun t ↦ ?_⟩
    rw [List.append_assoc]
    exact .skippable (hused₁ _) (hused₂ t)
  | content hstart hdictionary hwindow hblocks hfits hsum =>
    obtain ⟨used₁, rfl, hused₁⟩ := isLocal_readStart hstart
    obtain ⟨used₂, rfl, hused₂⟩ := hblocks.exists_used
    obtain ⟨used₃, rfl, hused₃⟩ := exists_of_readChecksum hsum
    refine ⟨used₁ ++ used₂ ++ used₃, by simp only [List.append_assoc], fun t ↦ ?_⟩
    simp only [List.append_assoc]
    exact .content (hused₁ _) hdictionary hwindow (hused₂ _) hfits (hused₃ t)

/-- What is decoded in one pass is decoded as what the frame stands for, if it keeps to the
limits. -/
theorem Frame.eq_of_readOnePass {s content rest found behind : Bytes}
    (hframe : Frame s content rest) (hread : readOnePass s = .ok (found, behind)) :
    found = content ∧ behind = rest := by
  obtain ⟨size, s₁, skipped, hstart', hpart', rfl⟩ | ⟨h', s₁, output', hstart', -, hwhole, rfl⟩ :=
    readOnePass_eq_ok_iff.mp hread
  · cases hframe with
    | skippable hstart hpart =>
      simp only [hstart, Except.ok.injEq, Prod.mk.injEq, Start.skippable.injEq] at hstart'
      obtain ⟨rfl, rfl⟩ := hstart'
      exact ⟨rfl, (Prod.mk.inj (Except.ok.inj (hpart'.symm.trans hpart))).2⟩
    | content hstart => simp [hstart] at hstart'
  · cases hframe with
    | skippable hstart => simp [hstart] at hstart'
    | @content _ _ _ h output hstart hdictionary hwindow hblocks hfits hsum =>
      simp only [hstart, Except.ok.injEq, Prod.mk.injEq, Start.frame.injEq] at hstart'
      obtain ⟨rfl, rfl⟩ := hstart'
      obtain ⟨rfl, hsum'⟩ := hblocks.eq_of_readWhole hwhole
      exact ⟨rfl, Except.ok.inj (hsum'.symm.trans hsum)⟩

/-- Where something else would be taken for the frame at the beginning of a byte string: a portion
ends inside its header, and the decoder is to look for a frame that is there from the next portion
on. -/
def IsMistaken (place : Nat) (s : Bytes) : Prop :=
  ∃ h rest, readStart s = .ok (.frame h, rest) ∧ behindBorder place (s.length - rest.length) ≠ 0 ∧
    takesWhole place h (s.length - rest.length) s = true

/-- A frame that keeps to the limits is decoded in either way, so by every decoder that takes
nothing else for it. -/
theorem exists_next_of_frame {s content rest : Bytes} (hframe : Frame s content rest)
    {decoder : Decoder} (hclear : ¬ IsMistaken decoder.place s) :
    ∃ after, decoder.next s = .ok (after, content, rest) := by
  cases hframe with
  | skippable hstart hpart =>
    exact ⟨_, Decoder.next_eq_ok_iff.mpr (.inl ⟨_, _, _, hstart, hpart, rfl, rfl⟩)⟩
  | @content s₁ behind _ h output hstart hdictionary hwindow hblocks hfits hsum =>
    cases htakes : takesWhole decoder.place h (s.length - s₁.length) s with
    | true =>
      have hborder : behindBorder decoder.place (s.length - s₁.length) = 0 := by
        by_contra hborder
        exact hclear ⟨h, s₁, hstart, hborder, htakes⟩
      have hroom : output.size ≤ offered := by
        rw [takesWhole, Bool.and_eq_true] at htakes
        cases hsize : h.size with
        | none => simp [hsize] at htakes
        | some declared =>
          simp only [hsize, Option.any_some, decide_eq_true_eq] at htakes
          simp only [Header.fits, hsize, Option.all_some, decide_eq_true_eq] at hfits
          exact hfits ▸ htakes.1
      have hread : readOnePass s = .ok (output.toList, rest) := readOnePass_eq_ok_iff.mpr (.inr
        ⟨h, s₁, output, hstart, hdictionary, readWhole_of_blocks hblocks hroom hfits hsum, rfl⟩)
      refine ⟨_, Decoder.next_eq_ok_iff.mpr (.inr ⟨h, s₁, hstart, .inl ⟨htakes, ?_, rfl⟩⟩)⟩
      rw [hborder, List.drop_zero]
      exact hread
    | false =>
      obtain ⟨q, hpieces, rfl⟩ := exists_readPieces_of_blocks
        (decoder.place + (s.length - s₁.length)) hblocks rfl rfl
        (Pieces.fits_initial decoder.buffers h) hfits hsum
      exact ⟨_, Decoder.next_eq_ok_iff.mpr (.inr ⟨h, s₁, hstart, .inr
        ⟨htakes, hdictionary, hwindow, q, hpieces, rfl, rfl⟩⟩)⟩

end Intake.Zstd
