import Intake.Zstd.Body
import Mathlib.Tactic.Common

/-!
# Steps of a Zstandard decoder

For each part of a frame: the steps that lead to its result, in one pass and in pieces. A block that
is not compressed stands for `BlockHeader.plain`, which both ways have in common.
-/

set_option autoImplicit false
set_option relaxedAutoImplicit false

namespace Intake.Zstd

variable {h : Header} {b : BlockHeader} {s rest : Bytes}

theorem part_eq_ok_iff {n : Nat} {read : Bytes} :
    part n s = .ok (read, rest) ↔ read.length = n ∧ s = read ++ rest := by
  rw [← Bytes.split?_eq_some_iff, part]
  cases Bytes.split? n s with
  | none => simp
  | some found => simp

/-- A header is that of a frame or that of a skippable one. -/
theorem readStart_eq_ok_iff {start : Start} :
    readStart s = .ok (start, rest) ↔
      ∃ mark s₁, part 4 s = .ok (mark, s₁) ∧
        (mark = frameMark ∧ (∃ descriptor s₂ header, part 1 s₁ = .ok (descriptor, s₂) ∧
            readFields (descriptor.headD 0) s₂ = .ok (header, rest) ∧ start = .frame header) ∨
          mark ≠ frameMark ∧ startsSkippable mark = true ∧ ∃ size,
            part 4 s₁ = .ok (size, rest) ∧ start = .skippable (Bytes.littleEndian size)) := by
  rw [readStart]
  cases hmark : Bytes.split? 4 s with
  | none =>
    have hpart : part 4 s = .error .incomplete := by rw [part, hmark]
    dsimp only
    split <;> simp [hpart]
  | some found =>
    obtain ⟨mark, s₁⟩ := found
    have hpart : part 4 s = .ok (mark, s₁) := by rw [part, hmark]
    simp only [hpart, Except.ok.injEq, Prod.mk.injEq]
    constructor
    · intro hread
      refine ⟨mark, s₁, ⟨rfl, rfl⟩, ?_⟩
      split at hread
      · rename_i hframe
        simp only [bind_eq_ok, Prod.exists] at hread
        obtain ⟨descriptor, s₂, hdescriptor, header, s₃, hfields, heq⟩ := hread
        obtain ⟨rfl, rfl⟩ := Prod.mk.inj (Except.ok.inj heq)
        exact .inl ⟨hframe, descriptor, s₂, header, hdescriptor, hfields, rfl⟩
      · rename_i hother
        split at hread
        · rename_i hskips
          simp only [bind_eq_ok, Prod.exists] at hread
          obtain ⟨size, s₂, hsize, heq⟩ := hread
          obtain ⟨rfl, rfl⟩ := Prod.mk.inj (Except.ok.inj heq)
          exact .inr ⟨hother, hskips, size, hsize, rfl⟩
        · simp at hread
    · rintro ⟨_, _, ⟨rfl, rfl⟩, ⟨hframe, descriptor, s₂, header, hdescriptor, hfields, rfl⟩ |
        ⟨hother, hskips, size, hsize, rfl⟩⟩
      · rw [if_pos hframe]
        simp only [bind_eq_ok, Prod.exists]
        exact ⟨descriptor, s₂, hdescriptor, header, rest, hfields, rfl⟩
      · rw [if_neg hother, if_pos hskips]
        simp only [bind_eq_ok, Prod.exists]
        exact ⟨size, rest, hsize, rfl⟩

/-! ### Blocks -/

theorem part_of_stored_eq_zero (hempty : b.stored = 0) : part b.stored s = .ok ([], s) :=
  part_eq_ok_iff.mpr ⟨hempty.symm, rfl⟩

/-- The content of a block that is not compressed. -/
def BlockHeader.plain (b : BlockHeader) (payload : Bytes) : Bytes :=
  if b.kind = .repeated then List.replicate b.size (payload.headD 0) else payload

theorem runPlain_eq_ok_iff {room : Nat} {output content : Array UInt8} {payload : Bytes} :
    runPlain room b output payload = .ok content ↔
      b.size ≤ room ∧ content = output ++ b.plain payload := by
  rw [runPlain, BlockHeader.plain]
  by_cases hroom : room < b.size
  · simp only [hroom, if_true]
    simp; omega
  · by_cases hkind : b.kind = .repeated
    · simp only [hroom, hkind, if_true, if_false, Except.ok.injEq]
      exact ⟨fun heq ↦ ⟨Nat.not_lt.mp hroom, heq.symm⟩, fun ⟨_, heq⟩ ↦ heq.symm⟩
    · simp only [hroom, hkind, if_false, Except.ok.injEq]
      exact ⟨fun heq ↦ ⟨Nat.not_lt.mp hroom, heq.symm⟩, fun ⟨_, heq⟩ ↦ heq.symm⟩

theorem Pieces.store_eq_ok_iff {p q : Pieces} {buffer : Nat} {bytes : Bytes} :
    p.store h buffer bytes = .ok q ↔
      bytes.length ≤ buffer - p.filled ∧ q = p.add h buffer p.memory (p.output ++ bytes) := by
  rw [store]
  split
  · simp; omega
  · simp only [Except.ok.injEq]
    constructor
    · rintro rfl
      exact ⟨by omega, rfl⟩
    · rintro ⟨-, rfl⟩
      rfl

theorem readChecksum_eq_ok_iff {content : Bytes} :
    readChecksum h content s = .ok rest ↔
      ∃ sum, part h.checksumWidth s = .ok (sum, rest) ∧
        (h.hasChecksum = true → Bytes.littleEndian sum = contentChecksum content) := by
  rw [readChecksum, Header.checksumWidth]
  cases hchecksum : h.hasChecksum with
  | true =>
    simp only [if_true, bind_eq_ok, Prod.exists, true_imp_iff]
    constructor
    · rintro ⟨sum, tail, hpart, hread⟩
      split at hread
      · rename_i hsum
        obtain rfl := Except.ok.inj hread
        exact ⟨sum, hpart, hsum⟩
      · simp at hread
    · rintro ⟨sum, hpart, hsum⟩
      exact ⟨sum, rest, hpart, if_pos hsum⟩
  | false =>
    simp only [Bool.false_eq_true, if_false, false_imp_iff, and_true, part_eq_ok_iff,
      Except.ok.injEq]
    constructor
    · rintro rfl
      exact ⟨[], rfl, rfl⟩
    · rintro ⟨sum, hlength, rfl⟩
      rw [List.length_eq_zero_iff.mp hlength, List.nil_append]

/-! ### Sizes -/

theorem blocksSize?_eq_some_iff {n : Nat} :
    blocksSize? h s = some n ↔
      ∃ b s₁ payload s₂, readBlockHeader s = .ok (b, s₁) ∧ b.kind ≠ .reserved ∧
        part b.stored s₁ = .ok (payload, s₂) ∧
        (b.last = true ∧ (∃ sum rest, part h.checksumWidth s₂ = .ok (sum, rest)) ∧
            n = 3 + b.stored + h.checksumWidth ∨
          b.last = false ∧ ∃ more, blocksSize? h s₂ = some more ∧ n = 3 + b.stored + more) := by
  rw [blocksSize?]
  constructor
  · intro hsize
    split at hsize
    · simp at hsize
    · rename_i b s₁ hheader
      split at hsize
      · simp at hsize
      · rename_i hreserved
        split at hsize
        · simp at hsize
        · rename_i payload s₂ hpart
          refine ⟨b, s₁, payload, s₂, hheader, hreserved, hpart, ?_⟩
          split at hsize
          · rename_i hlast
            split at hsize
            · simp at hsize
            · rename_i sum hsum
              exact .inl ⟨hlast, ⟨sum.1, sum.2, hsum⟩, (Option.some.inj hsize).symm⟩
          · rename_i hlast
            obtain ⟨more, hmore, rfl⟩ := Option.map_eq_some_iff.mp hsize
            exact .inr ⟨Bool.eq_false_iff.mpr hlast, more, hmore, rfl⟩
  · rintro ⟨b, s₁, payload, s₂, hheader, hreserved, hpart, hrest⟩
    split
    · simp_all
    · rename_i heq
      obtain ⟨rfl, rfl⟩ := Prod.mk.inj (Except.ok.inj (heq.symm.trans hheader))
      rw [if_neg hreserved]
      split
      · simp_all
      · rename_i heq
        obtain ⟨rfl, rfl⟩ := Prod.mk.inj (Except.ok.inj (heq.symm.trans hpart))
        obtain ⟨hlast, ⟨sum, rest, hsum⟩, rfl⟩ | ⟨hlast, more, hmore, rfl⟩ := hrest
        · rw [if_pos hlast, hsum]
        · rw [if_neg (by simp [hlast]), hmore]
          rfl

theorem frameSize?_eq_some_iff {n : Nat} :
    frameSize? s = some n ↔
      (∃ size s₁ skipped rest, readStart s = .ok (.skippable size, s₁) ∧
        part size s₁ = .ok (skipped, rest) ∧ n = s.length - s₁.length + size) ∨
      ∃ h s₁ blocks, readStart s = .ok (.frame h, s₁) ∧ blocksSize? h s₁ = some blocks ∧
        n = s.length - s₁.length + blocks := by
  rw [frameSize?]
  constructor
  · intro hsize
    split at hsize
    · simp at hsize
    · rename_i size s₁ hstart
      split at hsize
      · simp at hsize
      · rename_i skipped hpart
        exact .inl ⟨size, s₁, skipped.1, skipped.2, hstart, hpart, (Option.some.inj hsize).symm⟩
    · rename_i h s₁ hstart
      obtain ⟨blocks, hblocks, rfl⟩ := Option.map_eq_some_iff.mp hsize
      exact .inr ⟨h, s₁, blocks, hstart, hblocks, rfl⟩
  · rintro (⟨size, s₁, skipped, rest, hstart, hpart, rfl⟩ | ⟨h, s₁, blocks, hstart, hblocks, rfl⟩)
    · simp only [hstart, hpart]
    · simp only [hstart, hblocks, Option.map_some]

/-! ### In one pass and in pieces -/

variable [Release]

/-- What a block of a frame that is decoded in one pass adds to its content. -/
def RunsWhole (h : Header) (room : Nat) (b : BlockHeader) (payload : Bytes) (memory : Memory)
    (output : Array UInt8) (memory' : Memory) (output' : Array UInt8) : Prop :=
  (b.kind ≠ .compressed ∧ b.size ≤ room - output.size ∧ output' = output ++ b.plain payload ∧
    memory' = memory) ∨
  (b.kind = .compressed ∧ b.size ≤ h.compressedLimit ∧
    runCompressed ⟨h.compressedLimit, room - output.size, true⟩ .initial memory output payload =
      .ok (output', memory'))

theorem runsWhole_iff {room : Nat} {payload : Bytes} {memory memory' : Memory}
    {output output' : Array UInt8} :
    (if b.kind = .reserved then .error .corrupted
      else if b.kind ≠ .compressed then
        (runPlain (room - output.size) b output payload).map (·, memory)
      else if h.compressedLimit < b.size then .error .wrongSize
      else runCompressed ⟨h.compressedLimit, room - output.size, true⟩ .initial memory output
        payload) = .ok (output', memory') ↔
      b.kind ≠ .reserved ∧ RunsWhole h room b payload memory output memory' output' := by
  rw [RunsWhole]
  by_cases hreserved : b.kind = .reserved
  · simp [hreserved]
  · rw [if_neg hreserved]
    by_cases hkind : b.kind = .compressed
    · by_cases hsize : h.compressedLimit < b.size
      · simp [hkind, hsize, Nat.not_le.mpr hsize]
      · simp [hkind, hsize, Nat.not_lt.mp hsize]
    · simp only [ne_eq, hkind, not_false_eq_true, if_true, map_eq_ok, runPlain_eq_ok_iff,
        Prod.mk.injEq]
      constructor
      · rintro ⟨found, ⟨hroom, rfl⟩, rfl, rfl⟩
        exact ⟨hreserved, .inl ⟨trivial, hroom, rfl, rfl⟩⟩
      · rintro ⟨-, ⟨-, hroom, rfl, rfl⟩ | ⟨hfalse, -⟩⟩
        · exact ⟨_, ⟨hroom, rfl⟩, rfl, rfl⟩
        · exact hfalse.elim

theorem readWhole_eq_ok_iff {room : Nat} {memory : Memory} {output content : Array UInt8} :
    readWhole h room memory output s = .ok (content, rest) ↔
      ∃ b s₁ payload s₂ memory' output', readBlockHeader s = .ok (b, s₁) ∧
        part b.stored s₁ = .ok (payload, s₂) ∧ b.kind ≠ .reserved ∧
        RunsWhole h room b payload memory output memory' output' ∧
        (b.last = true ∧ h.fits output'.size = true ∧ content = output' ∧
            readChecksum h output'.toList s₂ = .ok rest ∨
          b.last = false ∧ readWhole h room memory' output' s₂ = .ok (content, rest)) := by
  rw [readWhole]
  constructor
  · intro hread
    split at hread
    · simp at hread
    · rename_i b s₁ hheader
      split at hread
      · simp at hread
      · rename_i payload s₂ hpart
        dsimp only at hread
        split at hread
        · simp at hread
        · rename_i output' memory' hrun
          obtain ⟨hreserved, hruns⟩ := runsWhole_iff.mp hrun
          refine ⟨b, s₁, payload, s₂, memory', output', hheader, hpart, hreserved, hruns, ?_⟩
          split at hread
          · rename_i hlast
            split at hread
            · rename_i hfits
              obtain ⟨tail, hsum, heq⟩ := map_eq_ok.mp hread
              obtain ⟨rfl, rfl⟩ := Prod.mk.inj heq
              exact .inl ⟨hlast, hfits, rfl, hsum⟩
            · simp at hread
          · rename_i hlast
            exact .inr ⟨Bool.eq_false_iff.mpr hlast, hread⟩
  · rintro ⟨b, s₁, payload, s₂, memory', output', hheader, hpart, hreserved, hruns, hrest⟩
    have hrun := runsWhole_iff.mpr ⟨hreserved, hruns⟩
    split
    · simp_all
    · rename_i heq
      obtain ⟨rfl, rfl⟩ := Prod.mk.inj (Except.ok.inj (heq.symm.trans hheader))
      split
      · simp_all
      · rename_i heq
        obtain ⟨rfl, rfl⟩ := Prod.mk.inj (Except.ok.inj (heq.symm.trans hpart))
        dsimp only
        split
        · rename_i heq
          exact absurd (heq.symm.trans hrun) (by simp)
        · rename_i heq
          obtain ⟨rfl, rfl⟩ := Prod.mk.inj (Except.ok.inj (heq.symm.trans hrun))
          obtain ⟨hlast, hfits, rfl, hsum⟩ | ⟨hlast, hread⟩ := hrest
          · rw [if_pos hlast, if_pos hfits]
            exact map_eq_ok.mpr ⟨rest, hsum, rfl⟩
          · rw [if_neg (by simp [hlast])]
            exact hread

theorem Pieces.run_eq_ok_iff {p q : Pieces} {buffer : Nat} {payload : Bytes} :
    p.run h buffer b payload = .ok q ↔
      ∃ output memory,
        (b.kind = .repeated ∧ b.size ≤ buffer - p.filled ∧ output = p.output ++ b.plain payload ∧
            memory = p.memory ∨
          b.kind ≠ .repeated ∧
            runCompressed ⟨h.compressedLimit, buffer - p.filled, false⟩ p.history p.memory
              p.output payload = .ok (output, memory)) ∧
        output.size - p.output.size ≤ h.blockLimit ∧ q = p.add h buffer memory output := by
  unfold run
  dsimp only
  constructor
  · intro hrun
    split at hrun
    · rename_i hkind
      obtain ⟨⟨output, memory⟩, hadded, hrun⟩ := bind_eq_ok.mp hrun
      obtain ⟨found, hplain, heq⟩ := map_eq_ok.mp hadded
      obtain ⟨rfl, rfl⟩ := Prod.mk.inj heq
      obtain ⟨hroom, rfl⟩ := runPlain_eq_ok_iff.mp hplain
      dsimp only at hrun
      split at hrun
      · simp at hrun
      · rename_i hlimit
        obtain rfl := Except.ok.inj hrun
        exact ⟨_, _, .inl ⟨hkind, hroom, rfl, rfl⟩, Nat.not_lt.mp hlimit, rfl⟩
    · rename_i hkind
      obtain ⟨⟨output, memory⟩, hread, hrun⟩ := bind_eq_ok.mp hrun
      dsimp only at hrun
      split at hrun
      · simp at hrun
      · rename_i hlimit
        obtain rfl := Except.ok.inj hrun
        exact ⟨_, _, .inr ⟨hkind, hread⟩, Nat.not_lt.mp hlimit, rfl⟩
  · rintro ⟨output, memory, ⟨hkind, hroom, rfl, rfl⟩ | ⟨hkind, hread⟩, hlimit, rfl⟩
    · rw [if_pos hkind]
      refine bind_eq_ok.mpr ⟨_, map_eq_ok.mpr ⟨_, runPlain_eq_ok_iff.mpr ⟨hroom, rfl⟩, rfl⟩, ?_⟩
      dsimp only
      rw [if_neg (Nat.not_lt.mpr hlimit)]
      rfl
    · rw [if_neg hkind]
      refine bind_eq_ok.mpr ⟨_, hread, ?_⟩
      dsimp only
      rw [if_neg (Nat.not_lt.mpr hlimit)]
      rfl

/-- Bytes as they are go into the buffer in two parts, those up to the end of the portion and those
behind it. -/
theorem Pieces.readBlock_eq_ok_iff {p q : Pieces} {buffer place : Nat} :
    p.readBlock h buffer place b s = .ok (q, rest) ↔
      ∃ payload, part b.stored s = .ok (payload, rest) ∧
        (b.kind = .raw ∧ (∃ middle, p.store h buffer (payload.take (ahead place)) = .ok middle ∧
            middle.store h buffer (payload.drop (ahead place)) = .ok q) ∨
          b.kind ≠ .raw ∧ p.run h buffer b payload = .ok q) := by
  have htake : ∀ {payload : Bytes}, part b.stored s = .ok (payload, rest) →
      s.take b.stored = payload := by
    intro payload hpart
    obtain ⟨hlength, rfl⟩ := part_eq_ok_iff.mp hpart
    exact List.take_left' hlength
  unfold readBlock
  split
  · rename_i hkind
    simp only [bind_eq_ok, Prod.exists]
    constructor
    · rintro ⟨middle, hfirst, q', hsecond, payload, rest', hpart, heq⟩
      obtain ⟨rfl, rfl⟩ := Prod.mk.inj (Except.ok.inj heq)
      rw [htake hpart] at hfirst hsecond
      exact ⟨payload, hpart, .inl ⟨hkind, middle, hfirst, hsecond⟩⟩
    · rintro ⟨payload, hpart, ⟨-, middle, hfirst, hsecond⟩ | ⟨hother, -⟩⟩
      · rw [htake hpart]
        exact ⟨middle, hfirst, q, hsecond, payload, rest, hpart, rfl⟩
      · exact absurd hkind hother
  · rename_i hkind
    simp only [bind_eq_ok, Prod.exists]
    constructor
    · rintro ⟨payload, rest', hpart, q', hrun, heq⟩
      obtain ⟨rfl, rfl⟩ := Prod.mk.inj (Except.ok.inj heq)
      exact ⟨payload, hpart, .inr ⟨hkind, hrun⟩⟩
    · rintro ⟨payload, hpart, ⟨hraw, -⟩ | ⟨-, hrun⟩⟩
      · exact absurd hraw hkind
      · exact ⟨payload, rest, hpart, q, hrun, rfl⟩

theorem readPieces_eq_ok_iff {buffer place : Nat} {p q : Pieces} :
    readPieces h buffer place p s = .ok (q, rest) ↔
      ∃ b s₁, readBlockHeader s = .ok (b, s₁) ∧ b.kind ≠ .reserved ∧ b.stored ≤ h.blockLimit ∧
        (b.stored = 0 ∧
            (b.last = true ∧ q = p ∧ readChecksum h p.output.toList s₁ = .ok rest ∨
              b.last = false ∧ readPieces h buffer (place + 3) p s₁ = .ok (q, rest)) ∨
          b.stored ≠ 0 ∧ ∃ p' s₂, p.readBlock h buffer (place + 3) b s₁ = .ok (p', s₂) ∧
            (b.last = true ∧ h.fits p'.output.size = true ∧ q = p' ∧
                readChecksum h p'.output.toList s₂ = .ok rest ∨
              b.last = false ∧
                readPieces h buffer (place + 3 + b.stored) p' s₂ = .ok (q, rest))) := by
  rw [readPieces]
  constructor
  · intro hread
    split at hread
    · simp at hread
    · rename_i b s₁ hheader
      split at hread
      · simp at hread
      · rename_i hkeeps
        obtain ⟨hreserved, hstored⟩ := not_or.mp hkeeps
        refine ⟨b, s₁, hheader, hreserved, Nat.not_lt.mp hstored, ?_⟩
        split at hread
        · rename_i hempty
          refine .inl ⟨hempty, ?_⟩
          split at hread
          · rename_i hlast
            obtain ⟨tail, hsum, heq⟩ := map_eq_ok.mp hread
            obtain ⟨rfl, rfl⟩ := Prod.mk.inj heq
            exact .inl ⟨hlast, rfl, hsum⟩
          · rename_i hlast
            exact .inr ⟨Bool.eq_false_iff.mpr hlast, hread⟩
        · rename_i hempty
          split at hread
          · simp at hread
          · rename_i p' s₂ hblock
            refine .inr ⟨hempty, p', s₂, hblock, ?_⟩
            split at hread
            · rename_i hlast
              split at hread
              · rename_i hfits
                obtain ⟨tail, hsum, heq⟩ := map_eq_ok.mp hread
                obtain ⟨rfl, rfl⟩ := Prod.mk.inj heq
                exact .inl ⟨hlast, hfits, rfl, hsum⟩
              · simp at hread
            · rename_i hlast
              exact .inr ⟨Bool.eq_false_iff.mpr hlast, hread⟩
  · rintro ⟨b, s₁, hheader, hreserved, hstored, hrest⟩
    split
    · simp_all
    · rename_i heq
      obtain ⟨rfl, rfl⟩ := Prod.mk.inj (Except.ok.inj (heq.symm.trans hheader))
      rw [if_neg (not_or.mpr ⟨hreserved, Nat.not_lt.mpr hstored⟩)]
      obtain ⟨hempty, hrest⟩ | ⟨hempty, p', s₂, hblock, hrest⟩ := hrest
      · rw [if_pos hempty]
        obtain ⟨hlast, rfl, hsum⟩ | ⟨hlast, hread⟩ := hrest
        · rw [if_pos hlast]
          exact map_eq_ok.mpr ⟨rest, hsum, rfl⟩
        · rw [if_neg (by simp [hlast])]
          exact hread
      · rw [if_neg hempty]
        split
        · rename_i heq
          exact absurd (heq.symm.trans hblock) (by simp)
        · rename_i heq
          obtain ⟨rfl, rfl⟩ := Prod.mk.inj (Except.ok.inj (heq.symm.trans hblock))
          obtain ⟨hlast, hfits, rfl, hsum⟩ | ⟨hlast, hread⟩ := hrest
          · rw [if_pos hlast, if_pos hfits]
            exact map_eq_ok.mpr ⟨rest, hsum, rfl⟩
          · rw [if_neg (by simp [hlast])]
            exact hread

/-! ### Frames -/

theorem readOnePass_eq_ok_iff {content : Bytes} :
    readOnePass s = .ok (content, rest) ↔
      (∃ size s₁ skipped, readStart s = .ok (.skippable size, s₁) ∧
        part size s₁ = .ok (skipped, rest) ∧ content = []) ∨
      ∃ h s₁ output, readStart s = .ok (.frame h, s₁) ∧ h.dictionary = 0 ∧
        readWhole h offered .initial #[] s₁ = .ok (output, rest) ∧ content = output.toList := by
  rw [readOnePass]
  constructor
  · intro hread
    split at hread
    · simp at hread
    · rename_i size s₁ hstart
      obtain ⟨⟨skipped, tail⟩, hpart, heq⟩ := map_eq_ok.mp hread
      obtain ⟨rfl, rfl⟩ := Prod.mk.inj heq
      exact .inl ⟨size, s₁, skipped, hstart, hpart, rfl⟩
    · rename_i h s₁ hstart
      split at hread
      · simp at hread
      · rename_i hdictionary
        obtain ⟨⟨output, tail⟩, hwhole, heq⟩ := map_eq_ok.mp hread
        obtain ⟨rfl, rfl⟩ := Prod.mk.inj heq
        exact .inr ⟨h, s₁, output, hstart, not_not.mp hdictionary, hwhole, rfl⟩
  · rintro (⟨size, s₁, skipped, hstart, hpart, rfl⟩ | ⟨h, s₁, output, hstart, hdictionary, hwhole,
      rfl⟩)
    · simp only [hstart]
      exact map_eq_ok.mpr ⟨_, hpart, rfl⟩
    · simp only [hstart, if_neg (not_not.mpr hdictionary)]
      exact map_eq_ok.mpr ⟨_, hwhole, rfl⟩

/-- The next frame is skipped, or taken in one pass, maybe another one in its place, or taken in
pieces. -/
theorem Decoder.next_eq_ok_iff {decoder after : Decoder} {content : Bytes} :
    decoder.next s = .ok (after, content, rest) ↔
      (∃ size s₁ skipped, readStart s = .ok (.skippable size, s₁) ∧
        part size s₁ = .ok (skipped, rest) ∧ content = [] ∧
        after = { decoder.advance s rest with buffers := decoder.buffers.forSkippable size }) ∨
      ∃ h s₁, readStart s = .ok (.frame h, s₁) ∧
        (takesWhole decoder.place h (s.length - s₁.length) s = true ∧
            readOnePass (s.drop (behindBorder decoder.place (s.length - s₁.length))) =
              .ok (content, rest) ∧
            after = decoder.advance s rest ∨
          takesWhole decoder.place h (s.length - s₁.length) s = false ∧ h.dictionary = 0 ∧
            h.window ≤ longestWindow ∧ ∃ p,
            readPieces h (decoder.buffers.forFrame h).output
              (decoder.place + (s.length - s₁.length)) .initial s₁ = .ok (p, rest) ∧
            content = p.output.toList ∧
            after = { decoder.advance s rest with buffers := decoder.buffers.forFrame h }) := by
  rw [next]
  constructor
  · intro hnext
    split at hnext
    · simp at hnext
    · rename_i size s₁ hstart
      obtain ⟨⟨skipped, tail⟩, hpart, heq⟩ := map_eq_ok.mp hnext
      simp only [Prod.mk.injEq] at heq
      obtain ⟨rfl, rfl, rfl⟩ := heq
      exact .inl ⟨size, s₁, skipped, hstart, hpart, rfl, rfl⟩
    · rename_i h s₁ hstart
      refine .inr ⟨h, s₁, hstart, ?_⟩
      dsimp only at hnext
      split at hnext
      · rename_i htakes
        obtain ⟨⟨found, tail⟩, hread, heq⟩ := map_eq_ok.mp hnext
        simp only [Prod.mk.injEq] at heq
        obtain ⟨rfl, rfl, rfl⟩ := heq
        exact .inl ⟨htakes, hread, rfl⟩
      · rename_i htakes
        split at hnext
        · simp at hnext
        · rename_i hdictionary
          split at hnext
          · simp at hnext
          · rename_i hwindow
            obtain ⟨⟨p, tail⟩, hread, heq⟩ := map_eq_ok.mp hnext
            simp only [Prod.mk.injEq] at heq
            obtain ⟨rfl, rfl, rfl⟩ := heq
            exact .inr ⟨Bool.eq_false_iff.mpr htakes, not_not.mp hdictionary,
              Nat.not_lt.mp hwindow, p, hread, rfl, rfl⟩
  · rintro (⟨size, s₁, skipped, hstart, hpart, rfl, rfl⟩ | ⟨h, s₁, hstart,
      ⟨htakes, hread, rfl⟩ | ⟨htakes, hdictionary, hwindow, p, hread, rfl, rfl⟩⟩)
    · simp only [hstart]
      exact map_eq_ok.mpr ⟨_, hpart, rfl⟩
    · simp only [hstart, if_pos htakes]
      exact map_eq_ok.mpr ⟨_, hread, rfl⟩
    · simp only [hstart, htakes, Bool.false_eq_true, if_false]
      rw [if_neg (not_not.mpr hdictionary), if_neg (Nat.not_lt.mpr hwindow)]
      exact map_eq_ok.mpr ⟨_, hread, rfl⟩

/-- A body is read frame by frame. -/
theorem framesOnto_eq (decoder : Decoder) (read : List Bytes) (s : Bytes) :
    framesOnto decoder read s =
      match decoder.next s with
      | .error e => .error e
      | .ok (after, content, rest) =>
        if rest = [] then .ok (content :: read).reverse
        else framesOnto after (content :: read) rest := by
  rw [framesOnto]
  split
  · simp [*]
  · simp [*]
  · rename_i after content rest hrest hnext
    simp only [hnext]
    rw [if_neg hrest]

end Intake.Zstd
