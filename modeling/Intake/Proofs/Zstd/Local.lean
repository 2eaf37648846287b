import Intake.Proofs.Local
import Intake.Proofs.Zstd.Steps

/-!
# Zstandard frames end where they say

A frame that is decoded, in one pass or in pieces, is decoded alike in front of any bytes, and has
the size that is found without decoding it (`frameSize?_of_readOnePass`,
`blocksSize?_of_readPieces`).
-/

set_option autoImplicit false
set_option relaxedAutoImplicit false

namespace Intake.Zstd

variable {h : Header} {s rest : Bytes}

theorem isLocal_part (n : Nat) : IsLocal (part n) := by
  intro s read rest hread
  obtain ⟨hlength, rfl⟩ := part_eq_ok_iff.mp hread
  exact ⟨read, rfl, fun t ↦ part_eq_ok_iff.mpr ⟨hlength, rfl⟩⟩

/-! ### Headers -/

theorem isLocal_readFields (descriptor : UInt8) : IsLocal (readFields descriptor) := by
  intro s header rest hread
  simp only [readFields, bind_eq_ok, Prod.exists] at hread
  obtain ⟨window, s₁, h₁, dictionary, s₂, h₂, size, s₃, h₃, found, hfields, heq⟩ := hread
  obtain ⟨rfl, rfl⟩ := Prod.mk.inj (Except.ok.inj heq)
  obtain ⟨used₁, rfl, hused₁⟩ := isLocal_part _ h₁
  obtain ⟨used₂, rfl, hused₂⟩ := isLocal_part _ h₂
  obtain ⟨used₃, rfl, hused₃⟩ := isLocal_part _ h₃
  refine ⟨used₁ ++ used₂ ++ used₃, by simp only [List.append_assoc], fun t ↦ ?_⟩
  simp only [List.append_assoc, readFields, bind_eq_ok, Prod.exists]
  exact ⟨window, _, hused₁ _, dictionary, _, hused₂ _, size, _, hused₃ t, found, hfields, rfl⟩

theorem isLocal_readStart : IsLocal readStart := by
  intro s start rest hread
  obtain ⟨mark, s₁, hmark, ⟨hframe, descriptor, s₂, header, hdescriptor, hfields, rfl⟩ |
    ⟨hother, hskips, size, hsize, rfl⟩⟩ := readStart_eq_ok_iff.mp hread
  · obtain ⟨used₁, rfl, hused₁⟩ := isLocal_part 4 hmark
    obtain ⟨used₂, rfl, hused₂⟩ := isLocal_part 1 hdescriptor
    obtain ⟨used₃, rfl, hused₃⟩ := isLocal_readFields _ hfields
    refine ⟨used₁ ++ used₂ ++ used₃, by simp only [List.append_assoc], fun t ↦ ?_⟩
    simp only [List.append_assoc]
    exact readStart_eq_ok_iff.mpr ⟨mark, _, hused₁ _,
      .inl ⟨hframe, descriptor, _, header, hused₂ _, hused₃ t, rfl⟩⟩
  · obtain ⟨used₁, rfl, hused₁⟩ := isLocal_part 4 hmark
    obtain ⟨used₂, rfl, hused₂⟩ := isLocal_part 4 hsize
    refine ⟨used₁ ++ used₂, by simp only [List.append_assoc], fun t ↦ ?_⟩
    simp only [List.append_assoc]
    exact readStart_eq_ok_iff.mpr ⟨mark, _, hused₁ _, .inr ⟨hother, hskips, size, hused₂ t, rfl⟩⟩

/-! ### Blocks -/

theorem isLocal_readBlockHeader : IsLocal readBlockHeader := by
  intro s b rest hread
  obtain ⟨⟨n, tail⟩, hpart, heq⟩ := map_eq_ok.mp hread
  obtain ⟨rfl, rfl⟩ := Prod.mk.inj heq
  obtain ⟨used, hs, hused⟩ := isLocal_part 3 hpart
  exact ⟨used, hs, fun t ↦ map_eq_ok.mpr ⟨_, hused t, rfl⟩⟩

theorem exists_of_readChecksum {content : Bytes} (hread : readChecksum h content s = .ok rest) :
    ∃ used, s = used ++ rest ∧ ∀ t, readChecksum h content (used ++ t) = .ok t := by
  obtain ⟨sum, hpart, hsum⟩ := readChecksum_eq_ok_iff.mp hread
  obtain ⟨used, hs, hused⟩ := isLocal_part _ hpart
  exact ⟨used, hs, fun t ↦ readChecksum_eq_ok_iff.mpr ⟨sum, hused t, hsum⟩⟩

/-! ### Sizes -/

theorem length_header {b : BlockHeader} (hheader : readBlockHeader s = .ok (b, rest)) :
    s.length = rest.length + 3 := by
  obtain ⟨⟨n, tail⟩, hpart, heq⟩ := map_eq_ok.mp hheader
  obtain ⟨-, rfl⟩ := Prod.mk.inj heq
  exact (length_part hpart).symm

theorem length_checksum {content : Bytes} (hsum : readChecksum h content s = .ok rest) :
    s.length = rest.length + h.checksumWidth := by
  obtain ⟨sum, hpart, -⟩ := readChecksum_eq_ok_iff.mp hsum
  exact (length_part hpart).symm

/-- The size of blocks is found alike in front of any bytes. -/
theorem blocksSize?_append {n : Nat} (hsize : blocksSize? h s = some n) (t : Bytes) :
    blocksSize? h (s ++ t) = some n := by
  fun_induction blocksSize? h s generalizing n with
  | case1 | case2 | case3 | case4 => simp at hsize
  | case5 s b s₁ hheader hreserved payload s₂ hpart hlast sum hsum =>
    obtain rfl := Option.some.inj hsize
    obtain ⟨used₁, rfl, hused₁⟩ := isLocal_readBlockHeader hheader
    obtain ⟨used₂, rfl, hused₂⟩ := isLocal_part _ hpart
    obtain ⟨used₃, rfl, hused₃⟩ := isLocal_part _ hsum
    simp only [List.append_assoc]
    exact blocksSize?_eq_some_iff.mpr ⟨b, _, payload, _, hused₁ _, hreserved, hused₂ _,
      .inl ⟨hlast, ⟨_, _, hused₃ _⟩, rfl⟩⟩
  | case6 s b s₁ hheader hreserved payload s₂ hpart hlast ih =>
    obtain ⟨more, hmore, rfl⟩ := Option.map_eq_some_iff.mp hsize
    obtain ⟨used₁, rfl, hused₁⟩ := isLocal_readBlockHeader hheader
    obtain ⟨used₂, rfl, hused₂⟩ := isLocal_part _ hpart
    simp only [List.append_assoc]
    exact blocksSize?_eq_some_iff.mpr ⟨b, _, payload, _, hused₁ _, hreserved, hused₂ _,
      .inr ⟨Bool.eq_false_iff.mpr hlast, more, ih hmore, rfl⟩⟩

theorem frameSize?_append {n : Nat} (hsize : frameSize? s = some n) (t : Bytes) :
    frameSize? (s ++ t) = some n := by
  obtain ⟨size, s₁, skipped, rest, hstart, hpart, rfl⟩ | ⟨h, s₁, blocks, hstart, hblocks, rfl⟩ :=
    frameSize?_eq_some_iff.mp hsize
  · obtain ⟨used₁, rfl, hused₁⟩ := isLocal_readStart hstart
    obtain ⟨used₂, rfl, hused₂⟩ := isLocal_part _ hpart
    rw [List.append_assoc]
    refine frameSize?_eq_some_iff.mpr (.inl ⟨size, _, skipped, rest ++ t, hused₁ _, ?_, ?_⟩)
    · rw [List.append_assoc]
      exact hused₂ _
    · simp only [List.length_append]
      omega
  · obtain ⟨used₁, rfl, hused₁⟩ := isLocal_readStart hstart
    rw [List.append_assoc]
    refine frameSize?_eq_some_iff.mpr
      (.inr ⟨h, _, blocks, hused₁ _, blocksSize?_append hblocks t, ?_⟩)
    simp only [List.length_append]
    omega

theorem frameSize?_of_blocks {s₁ : Bytes} (hstart : readStart s = .ok (.frame h, s₁))
    (hsize : blocksSize? h s₁ = some (s₁.length - rest.length)) (hrest : rest.length ≤ s₁.length) :
    frameSize? s = some (s.length - rest.length) := by
  have := length_readStart hstart
  exact frameSize?_eq_some_iff.mpr (.inr ⟨h, s₁, _, hstart, hsize, by omega⟩)

theorem frameSize?_of_skippable {s₁ skipped : Bytes} {size : Nat}
    (hstart : readStart s = .ok (.skippable size, s₁))
    (hpart : part size s₁ = .ok (skipped, rest)) :
    frameSize? s = some (s.length - rest.length) := by
  have := length_readStart hstart
  have := length_part hpart
  exact frameSize?_eq_some_iff.mpr (.inl ⟨size, s₁, skipped, rest, hstart, hpart, by omega⟩)

/-! ### In one pass and in pieces -/

variable [Release]

theorem isLocal_readWhole (h : Header) (room : Nat) (memory : Memory) (output : Array UInt8) :
    IsLocal (readWhole h room memory output) := by
  intro s content rest hread
  fun_induction readWhole h room memory output s with
  | case1 | case2 | case3 | case5 => simp at hread
  | case4 memory output s b s₁ hheader payload s₂ hpart left output' memory' hrun hlast hfits =>
    obtain ⟨hreserved, hruns⟩ := runsWhole_iff.mp hrun
    obtain ⟨tail, hsum, heq⟩ := map_eq_ok.mp hread
    obtain ⟨rfl, rfl⟩ := Prod.mk.inj heq
    obtain ⟨used₁, rfl, hused₁⟩ := isLocal_readBlockHeader hheader
    obtain ⟨used₂, rfl, hused₂⟩ := isLocal_part _ hpart
    obtain ⟨used₃, rfl, hused₃⟩ := exists_of_readChecksum hsum
    refine ⟨used₁ ++ used₂ ++ used₃, by simp only [List.append_assoc], fun t ↦ ?_⟩
    simp only [List.append_assoc]
    exact readWhole_eq_ok_iff.mpr ⟨b, _, payload, _, memory', output', hused₁ _, hused₂ _,
      hreserved, hruns, .inl ⟨hlast, hfits, rfl, hused₃ t⟩⟩
  | case6 memory output s b s₁ hheader payload s₂ hpart left output' memory' hrun hlast ih =>
    obtain ⟨hreserved, hruns⟩ := runsWhole_iff.mp hrun
    obtain ⟨used₁, rfl, hused₁⟩ := isLocal_readBlockHeader hheader
    obtain ⟨used₂, rfl, hused₂⟩ := isLocal_part _ hpart
    obtain ⟨used₃, rfl, hused₃⟩ := ih hread
    refine ⟨used₁ ++ used₂ ++ used₃, by simp only [List.append_assoc], fun t ↦ ?_⟩
    simp only [List.append_assoc]
    exact readWhole_eq_ok_iff.mpr ⟨b, _, payload, _, memory', output', hused₁ _, hused₂ _,
      hreserved, hruns, .inr ⟨Bool.eq_false_iff.mpr hlast, hused₃ t⟩⟩

theorem isLocal_readBlock (p : Pieces) (h : Header) (buffer place : Nat) (b : BlockHeader) :
    IsLocal (p.readBlock h buffer place b) := by
  intro s q rest hread
  obtain ⟨payload, hpart, hrun⟩ := Pieces.readBlock_eq_ok_iff.mp hread
  obtain ⟨used, hs, hused⟩ := isLocal_part _ hpart
  exact ⟨used, hs, fun t ↦ Pieces.readBlock_eq_ok_iff.mpr ⟨payload, hused t, hrun⟩⟩

theorem isLocal_readPieces (h : Header) (buffer place : Nat) (p : Pieces) :
    IsLocal (readPieces h buffer place p) := by
  intro s q rest hread
  fun_induction readPieces h buffer place p s with
  | case1 | case2 | case5 | case7 => simp at hread
  | case3 place p s b s₁ hheader hkeeps hempty hlast =>
    obtain ⟨hreserved, hstored⟩ := not_or.mp hkeeps
    obtain ⟨tail, hsum, heq⟩ := map_eq_ok.mp hread
    obtain ⟨rfl, rfl⟩ := Prod.mk.inj heq
    obtain ⟨used₁, rfl, hused₁⟩ := isLocal_readBlockHeader hheader
    obtain ⟨used₂, rfl, hused₂⟩ := exists_of_readChecksum hsum
    refine ⟨used₁ ++ used₂, by simp only [List.append_assoc], fun t ↦ ?_⟩
    simp only [List.append_assoc]
    exact readPieces_eq_ok_iff.mpr ⟨b, _, hused₁ _, hreserved, Nat.not_lt.mp hstored,
      .inl ⟨hempty, .inl ⟨hlast, rfl, hused₂ t⟩⟩⟩
  | case4 place p s b s₁ hheader hkeeps hempty hlast ih =>
    obtain ⟨hreserved, hstored⟩ := not_or.mp hkeeps
    obtain ⟨used₁, rfl, hused₁⟩ := isLocal_readBlockHeader hheader
    obtain ⟨used₂, rfl, hused₂⟩ := ih hread
    refine ⟨used₁ ++ used₂, by simp only [List.append_assoc], fun t ↦ ?_⟩
    simp only [List.append_assoc]
    exact readPieces_eq_ok_iff.mpr ⟨b, _, hused₁ _, hreserved, Nat.not_lt.mp hstored,
      .inl ⟨hempty, .inr ⟨Bool.eq_false_iff.mpr hlast, hused₂ t⟩⟩⟩
  | case6 place p s b s₁ hheader hkeeps hempty p' s₂ hblock hlast hfits =>
    obtain ⟨hreserved, hstored⟩ := not_or.mp hkeeps
    obtain ⟨tail, hsum, heq⟩ := map_eq_ok.mp hread
    obtain ⟨rfl, rfl⟩ := Prod.mk.inj heq
    obtain ⟨used₁, rfl, hused₁⟩ := isLocal_readBlockHeader hheader
    obtain ⟨used₂, rfl, hused₂⟩ := isLocal_readBlock _ _ _ _ _ hblock
    obtain ⟨used₃, rfl, hused₃⟩ := exists_of_readChecksum hsum
    refine ⟨used₁ ++ used₂ ++ used₃, by simp only [List.append_assoc], fun t ↦ ?_⟩
    simp only [List.append_assoc]
    exact readPieces_eq_ok_iff.mpr ⟨b, _, hused₁ _, hreserved, Nat.not_lt.mp hstored,
      .inr ⟨hempty, p', _, hused₂ _, .inl ⟨hlast, hfits, rfl, hused₃ t⟩⟩⟩
  | case8 place p s b s₁ hheader hkeeps hempty p' s₂ hblock hlast ih =>
    obtain ⟨hreserved, hstored⟩ := not_or.mp hkeeps
    obtain ⟨used₁, rfl, hused₁⟩ := isLocal_readBlockHeader hheader
    obtain ⟨used₂, rfl, hused₂⟩ := isLocal_readBlock _ _ _ _ _ hblock
    obtain ⟨used₃, rfl, hused₃⟩ := ih hread
    refine ⟨used₁ ++ used₂ ++ used₃, by simp only [List.append_assoc], fun t ↦ ?_⟩
    simp only [List.append_assoc]
    exact readPieces_eq_ok_iff.mpr ⟨b, _, hused₁ _, hreserved, Nat.not_lt.mp hstored,
      .inr ⟨hempty, p', _, hused₂ _, .inr ⟨Bool.eq_false_iff.mpr hlast, hused₃ t⟩⟩⟩

theorem blocksSize?_of_readWhole {room : Nat} {memory : Memory} {output content : Array UInt8}
    (hread : readWhole h room memory output s = .ok (content, rest)) :
    blocksSize? h s = some (s.length - rest.length) := by
  fun_induction readWhole h room memory output s with
  | case1 | case2 | case3 | case5 => simp at hread
  | case4 memory output s b s₁ hheader payload s₂ hpart left output' memory' hrun hlast hfits =>
    obtain ⟨tail, hsum, heq⟩ := map_eq_ok.mp hread
    obtain ⟨rfl, rfl⟩ := Prod.mk.inj heq
    obtain ⟨sum, hfound, -⟩ := readChecksum_eq_ok_iff.mp hsum
    have := length_header hheader
    have := length_part hpart
    have := length_checksum hsum
    exact blocksSize?_eq_some_iff.mpr ⟨b, s₁, payload, s₂, hheader, (runsWhole_iff.mp hrun).1,
      hpart, .inl ⟨hlast, ⟨sum, tail, hfound⟩, by omega⟩⟩
  | case6 memory output s b s₁ hheader payload s₂ hpart left output' memory' hrun hlast ih =>
    have := length_header hheader
    have := length_part hpart
    have := length_readWhole hread
    exact blocksSize?_eq_some_iff.mpr ⟨b, s₁, payload, s₂, hheader, (runsWhole_iff.mp hrun).1,
      hpart, .inr ⟨Bool.eq_false_iff.mpr hlast, _, ih hread, by omega⟩⟩

theorem blocksSize?_of_readPieces {buffer place : Nat} {p q : Pieces}
    (hread : readPieces h buffer place p s = .ok (q, rest)) :
    blocksSize? h s = some (s.length - rest.length) := by
  fun_induction readPieces h buffer place p s with
  | case1 | case2 | case5 | case7 => simp at hread
  | case3 place p s b s₁ hheader hkeeps hempty hlast =>
    obtain ⟨tail, hsum, heq⟩ := map_eq_ok.mp hread
    obtain ⟨rfl, rfl⟩ := Prod.mk.inj heq
    obtain ⟨sum, hfound, -⟩ := readChecksum_eq_ok_iff.mp hsum
    have := length_header hheader
    have := length_checksum hsum
    exact blocksSize?_eq_some_iff.mpr ⟨b, s₁, [], s₁, hheader, (not_or.mp hkeeps).1,
      part_of_stored_eq_zero hempty, .inl ⟨hlast, ⟨sum, tail, hfound⟩, by omega⟩⟩
  | case4 place p s b s₁ hheader hkeeps hempty hlast ih =>
    have := length_header hheader
    have := length_readPieces hread
    exact blocksSize?_eq_some_iff.mpr ⟨b, s₁, [], s₁, hheader, (not_or.mp hkeeps).1,
      part_of_stored_eq_zero hempty, .inr ⟨Bool.eq_false_iff.mpr hlast, _, ih hread, by omega⟩⟩
  | case6 place p s b s₁ hheader hkeeps hempty p' s₂ hblock hlast hfits =>
    obtain ⟨tail, hsum, heq⟩ := map_eq_ok.mp hread
    obtain ⟨rfl, rfl⟩ := Prod.mk.inj heq
    obtain ⟨payload, hpart, -⟩ := Pieces.readBlock_eq_ok_iff.mp hblock
    obtain ⟨sum, hfound, -⟩ := readChecksum_eq_ok_iff.mp hsum
    have := length_header hheader
    have := length_part hpart
    have := length_checksum hsum
    exact blocksSize?_eq_some_iff.mpr ⟨b, s₁, payload, s₂, hheader, (not_or.mp hkeeps).1, hpart,
      .inl ⟨hlast, ⟨sum, tail, hfound⟩, by omega⟩⟩
  | case8 place p s b s₁ hheader hkeeps hempty p' s₂ hblock hlast ih =>
    obtain ⟨payload, hpart, -⟩ := Pieces.readBlock_eq_ok_iff.mp hblock
    have := length_header hheader
    have := length_part hpart
    have := length_readPieces hread
    exact blocksSize?_eq_some_iff.mpr ⟨b, s₁, payload, s₂, hheader, (not_or.mp hkeeps).1, hpart,
      .inr ⟨Bool.eq_false_iff.mpr hlast, _, ih hread, by omega⟩⟩

theorem frameSize?_of_readOnePass {content : Bytes} (hread : readOnePass s = .ok (content, rest)) :
    frameSize? s = some (s.length - rest.length) := by
  obtain ⟨size, s₁, skipped, hstart, hpart, -⟩ | ⟨h, s₁, output, hstart, -, hwhole, -⟩ :=
    readOnePass_eq_ok_iff.mp hread
  · exact frameSize?_of_skippable hstart hpart
  · exact frameSize?_of_blocks hstart (blocksSize?_of_readWhole hwhole)
      (Nat.le_of_lt (length_readWhole hwhole))

end Intake.Zstd
