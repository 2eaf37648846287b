import Intake.Proofs.Zstd.Reach

/-!
# Zstandard bodies one behind the other

Behind a body the decoder goes on where the body ends, with the buffers that the body has left it
with (`exists_decoder_behind`). Unless something else is taken for a frame, what it takes are the
frames that can be told apart without decoding them (`AreFrames`). So a body behind another one has
to be one complete frame after the other, and it is decoded as it is decoded alone if it keeps to
the limits of the format (`decode_append_iff`).
-/

set_option autoImplicit false
set_option relaxedAutoImplicit false

namespace Intake.Zstd

/-! ### Headers across the end of a portion -/

/-- A frame begins behind the first `n` bytes, where those in front are told apart without decoding
them. -/
inductive FrameBegins : Bytes → Nat → Prop
  | first (s : Bytes) : FrameBegins s 0
  | next {s : Bytes} {n m : Nat} (hsize : frameSize? s = some n)
    (hnext : FrameBegins (s.drop n) m) : FrameBegins s (n + m)

/-- Of a header across the end of a portion the bytes up to there are behind. -/
theorem behindBorder_of_ne_zero {place width : Nat} (hborder : behindBorder place width ≠ 0) :
    behindBorder place width = ahead place ∧ ahead place < width := by
  rw [behindBorder] at hborder ⊢
  split
  · exact ⟨rfl, ‹_›⟩
  · rename_i hnot
    exact absurd (if_neg hnot) hborder

/-- Nothing else is taken for a frame, where the first one is at `place` in the body. -/
def IsClear (place : Nat) (s : Bytes) : Prop :=
  ∀ n, FrameBegins s n → ¬ IsMistaken (place + n) (s.drop n)

section Clear

variable {place : Nat} {s : Bytes}

theorem IsClear.first (hclear : IsClear place s) : ¬ IsMistaken place s :=
  hclear 0 (.first s)

theorem IsClear.next {used rest : Bytes} (hclear : IsClear place (used ++ rest))
    (hsize : frameSize? (used ++ rest) = some used.length) :
    IsClear (place + used.length) rest := by
  intro n hn
  have hdrop : (used ++ rest).drop (used.length + n) = rest.drop n := by
    rw [← List.drop_drop, List.drop_left]
  have hbegins : FrameBegins (used ++ rest) (used.length + n) :=
    .next hsize (by rwa [List.drop_left])
  have hnot := hclear _ hbegins
  rwa [hdrop, ← Nat.add_assoc] at hnot

/-- What is mistaken is mistaken in front of any bytes. -/
theorem IsMistaken.append (h : IsMistaken place s) (t : Bytes) : IsMistaken place (s ++ t) := by
  obtain ⟨h, rest, hstart, hborder, htakes⟩ := h
  obtain ⟨used, rfl, hused⟩ := isLocal_readStart hstart
  have hwidth : (used ++ rest ++ t).length - (rest ++ t).length =
      (used ++ rest).length - rest.length := by
    simp only [List.length_append]
    omega
  refine ⟨h, rest ++ t, by rw [List.append_assoc]; exact hused _, ?_, ?_⟩
  · rwa [hwidth]
  · rw [hwidth]
    rw [takesWhole, Bool.and_eq_true] at htakes ⊢
    have hskipped : behindBorder place ((used ++ rest).length - rest.length) ≤
        (used ++ rest).length := by
      rw [behindBorder]
      split <;> omega
    rw [List.drop_append_of_le_length hskipped]
    obtain ⟨n, hn, hfits⟩ := (Option.any_eq_true _ _).mp htakes.2
    exact ⟨htakes.1, (Option.any_eq_true _ _).mpr ⟨n, frameSize?_append hn t, hfits⟩⟩

end Clear

/-! ### Skippable frames -/

/-- A skippable frame up to its last byte: its mark, its size, and as many bytes. -/
def IsSkippable (s : Bytes) : Prop :=
  ∃ (first : UInt8) (size skipped : Bytes), 0x50 ≤ first ∧ first ≤ 0x5F ∧ size.length = 4 ∧
    skipped.length = Bytes.littleEndian size ∧ s = first :: (skippableMark ++ size ++ skipped)

theorem startsSkippable_iff {mark : Bytes} (hlength : mark.length = 4) :
    startsSkippable mark = true ↔
      ∃ first : UInt8, 0x50 ≤ first ∧ first ≤ 0x5F ∧ mark = first :: skippableMark := by
  cases mark with
  | nil => simp at hlength
  | cons first more =>
    have hmore : more.length = skippableMark.length := Nat.succ.inj hlength
    have htake : more.take 3 = more := List.take_of_length_le (Nat.le_of_eq hmore)
    have hprefix : more <+: skippableMark ↔ more = skippableMark :=
      ⟨fun h ↦ h.eq_of_length hmore, fun h ↦ h ▸ List.prefix_refl _⟩
    simp [startsSkippable, htake, hprefix, and_assoc]

theorem readStart_skippable {first : UInt8} {size : Bytes} (hlow : 0x50 ≤ first)
    (hhigh : first ≤ 0x5F) (hwidth : size.length = 4) (rest : Bytes) :
    readStart (first :: (skippableMark ++ size ++ rest)) =
      .ok (.skippable (Bytes.littleEndian size), rest) := by
  have hne : first :: skippableMark ≠ frameMark := by
    intro heq
    obtain rfl : first = 0x28 := (List.cons.inj heq).1
    exact absurd hlow (by decide)
  exact readStart_eq_ok_iff.mpr ⟨first :: skippableMark, size ++ rest,
    part_eq_ok_iff.mpr ⟨rfl, by simp⟩, .inr ⟨hne, (startsSkippable_iff rfl).mpr
      ⟨first, hlow, hhigh, rfl⟩, size, part_eq_ok_iff.mpr ⟨hwidth, rfl⟩, rfl⟩⟩

/-- A skippable frame of `n` zeros. -/
def padding (n : Nat) : Bytes :=
  0x50 :: (skippableMark ++ Bytes.ofNumber 4 n ++ List.replicate n 0)

theorem isSkippable_padding {n : Nat} (h : n < 256 ^ 4) : IsSkippable (padding n) := by
  refine ⟨0x50, Bytes.ofNumber 4 n, List.replicate n 0, by decide, by decide,
    Bytes.length_ofNumber 4 n, ?_, rfl⟩
  rw [List.length_replicate, Bytes.littleEndian_ofNumber, Nat.mod_eq_of_lt h]

theorem length_padding (n : Nat) : (padding n).length = n + 8 := by
  simp [padding, skippableMark, Nat.add_comm 4]

section Release

variable [Release]

theorem IsSkippable.frame {s : Bytes} (hs : IsSkippable s) : Frame s [] [] := by
  obtain ⟨first, size, skipped, hlow, hhigh, hwidth, hskipped, rfl⟩ := hs
  exact .skippable (readStart_skippable hlow hhigh hwidth skipped)
    (part_eq_ok_iff.mpr ⟨hskipped, (List.append_nil _).symm⟩)

/-- A skippable frame moves the decoder on, and only its buffers may change. -/
theorem framesOnto_skippable {skippable : Bytes} (hskips : IsSkippable skippable)
    (decoder : Decoder) (read : List Bytes) {s : Bytes} (hs : s ≠ []) :
    framesOnto decoder read (skippable ++ s) =
      framesOnto ⟨decoder.place + skippable.length,
        decoder.buffers.forSkippable (skippable.length - 8)⟩ ([] :: read) s := by
  obtain ⟨first, size, skipped, hlow, hhigh, hwidth, hskipped, rfl⟩ := hskips
  have hlength : (first :: (skippableMark ++ size ++ skipped)).length = skipped.length + 8 := by
    simp [hwidth, skippableMark]
    omega
  have hstart : readStart (first :: (skippableMark ++ size ++ skipped) ++ s) =
      .ok (.skippable skipped.length, skipped ++ s) := by
    rw [hskipped, ← readStart_skippable hlow hhigh hwidth]
    simp
  rw [framesOnto_eq, Decoder.next_eq_ok_iff.mpr (.inl ⟨_, _, skipped, hstart,
    part_eq_ok_iff.mpr ⟨rfl, rfl⟩, rfl, rfl⟩)]
  simp only [if_neg hs]
  rw [Decoder.advance, List.length_append, Nat.add_sub_cancel, hlength, Nat.add_sub_cancel]

/-- Behind a skippable frame the decoder has moved on. -/
theorem decode_padding_append {n : Nat} (h : n < 256 ^ 4) {s : Bytes} (hs : s ≠ []) :
    decode (padding n ++ s) =
      (framesOnto ⟨n + 8, Buffers.initial.forSkippable n⟩ [[]] s).map List.flatten := by
  rw [decode, framesOnto_skippable (isSkippable_padding h) .initial [] hs, length_padding,
    Nat.add_sub_cancel]
  simp [Decoder.initial]

/-! ### Frames one by one -/

/-- Unless it is mistaken, a frame has the size that is told without decoding it, and is decoded
alike in front of any bytes. -/
theorem exists_of_next {decoder after : Decoder} {s content rest : Bytes}
    (hnext : decoder.next s = .ok (after, content, rest)) (hclear : ¬ IsMistaken decoder.place s) :
    ∃ used, s = used ++ rest ∧ (∀ t, frameSize? (used ++ t) = some used.length) ∧
      after.place = decoder.place + used.length ∧
      ∀ t, ¬ IsMistaken decoder.place (used ++ t) →
        decoder.next (used ++ t) = .ok (after, content, t) := by
  have hadvance : ∀ used t : Bytes, decoder.advance (used ++ t) t =
      { decoder with place := decoder.place + used.length } := by
    intro used t
    rw [Decoder.advance, List.length_append, Nat.add_sub_cancel]
  have hplace : ∀ {used : Bytes}, s = used ++ rest → decoder.advance s rest =
      { decoder with place := decoder.place + used.length } := fun hs ↦ hs ▸ hadvance _ rest
  obtain ⟨size, s₁, skipped, hstart, hpart, rfl, rfl⟩ | ⟨h, s₁, hstart, hread⟩ :=
    Decoder.next_eq_ok_iff.mp hnext
  · obtain ⟨used₁, rfl, hused₁⟩ := isLocal_readStart hstart
    obtain ⟨used₂, rfl, hused₂⟩ := isLocal_part _ hpart
    have hs := (List.append_assoc used₁ used₂ rest).symm
    refine ⟨used₁ ++ used₂, hs, fun t ↦ ?_, by rw [hplace hs], fun t _ ↦ ?_⟩
    · rw [List.append_assoc, frameSize?_of_skippable (hused₁ _) (hused₂ t), ← List.append_assoc,
        List.length_append, Nat.add_sub_cancel]
    · rw [hplace hs, ← hadvance (used₁ ++ used₂) t, List.append_assoc]
      exact Decoder.next_eq_ok_iff.mpr (.inl ⟨size, _, skipped, hused₁ _, hused₂ t, rfl, rfl⟩)
  · -- Both ways begin with the same header, and take the blocks behind it.
    obtain ⟨used₁, rfl, hused₁⟩ := isLocal_readStart hstart
    have hwidth : ∀ t : Bytes, (used₁ ++ t).length - t.length = used₁.length := by simp
    rw [hwidth] at hread
    have hmistaken : ∀ t, ¬ IsMistaken decoder.place (used₁ ++ t) →
        takesWhole decoder.place h used₁.length (used₁ ++ t) = true →
          behindBorder decoder.place used₁.length = 0 := by
      intro t hnot htakes
      by_contra hborder
      exact hnot ⟨h, t, hused₁ t, by rwa [hwidth], by rwa [hwidth]⟩
    obtain ⟨htakes, hone, rfl⟩ | ⟨htakes, hdictionary, hwindow, p, hpieces, rfl, rfl⟩ := hread
    · have hborder := hmistaken _ hclear htakes
      rw [hborder, List.drop_zero] at hone
      obtain ⟨size, _, _, hother, -⟩ | ⟨h', _, output, hsame, hdictionary, hwhole, rfl⟩ :=
        readOnePass_eq_ok_iff.mp hone
      · simp [hstart] at hother
      · simp only [hstart, Except.ok.injEq, Prod.mk.injEq, Start.frame.injEq] at hsame
        obtain ⟨rfl, rfl⟩ := hsame
        obtain ⟨used₂, rfl, hused₂⟩ := isLocal_readWhole _ _ _ _ hwhole
        have hs := (List.append_assoc used₁ used₂ rest).symm
        have hsize : ∀ t, frameSize? (used₁ ++ (used₂ ++ t)) =
            some (used₁ ++ used₂).length := by
          intro t
          rw [frameSize?_of_readOnePass (readOnePass_eq_ok_iff.mpr (.inr
            ⟨h, _, output, hused₁ _, hdictionary, hused₂ t, rfl⟩)), ← List.append_assoc,
            List.length_append, Nat.add_sub_cancel]
        refine ⟨used₁ ++ used₂, hs, fun t ↦ by rw [List.append_assoc, hsize],
          by rw [hplace hs], fun t _ ↦ ?_⟩
        rw [hplace hs, ← hadvance (used₁ ++ used₂) t, List.append_assoc]
        refine Decoder.next_eq_ok_iff.mpr (.inr ⟨h, _, hused₁ _, .inl ⟨?_, ?_, rfl⟩⟩)
        · rw [hwidth]
          rwa [takesWhole, hborder, List.drop_zero, hsize] at htakes ⊢
        · rw [hwidth, hborder, List.drop_zero]
          exact readOnePass_eq_ok_iff.mpr
            (.inr ⟨h, _, output, hused₁ _, hdictionary, hused₂ t, rfl⟩)
    · obtain ⟨used₂, rfl, hused₂⟩ := isLocal_readPieces _ _ _ _ hpieces
      have hs := (List.append_assoc used₁ used₂ rest).symm
      have hsize : ∀ t, frameSize? (used₁ ++ (used₂ ++ t)) = some (used₁ ++ used₂).length := by
        intro t
        rw [frameSize?_of_blocks (hused₁ _) (blocksSize?_of_readPieces (hused₂ t)) (by simp),
          ← List.append_assoc, List.length_append, Nat.add_sub_cancel]
      refine ⟨used₁ ++ used₂, hs, fun t ↦ by rw [List.append_assoc, hsize],
        by rw [hplace hs], fun t hnot ↦ ?_⟩
      rw [hplace hs, ← hadvance (used₁ ++ used₂) t]
      rw [List.append_assoc] at hnot ⊢
      refine Decoder.next_eq_ok_iff.mpr (.inr ⟨h, _, hused₁ _, .inr
        ⟨?_, hdictionary, hwindow, p, by rw [hwidth]; exact hused₂ t, rfl, rfl⟩⟩)
      rw [hwidth, Bool.eq_false_iff]
      intro hwhole
      have hborder := hmistaken _ hnot hwhole
      rw [takesWhole, hborder, List.drop_zero, hsize] at htakes hwhole
      rw [htakes] at hwhole
      exact Bool.false_ne_true hwhole

/-- A body that keeps to the limits is taken by every decoder that takes nothing else for one of its
frames. -/
theorem framesOnto_of_frames {s : Bytes} {contents : List Bytes} (hframes : Frames s contents)
    (decoder : Decoder) (read : List Bytes) (hclear : IsClear decoder.place s) :
    framesOnto decoder read s = .ok (read.reverse ++ contents) := by
  induction hframes generalizing decoder read with
  | last hframe =>
    obtain ⟨after, hnext⟩ := exists_next_of_frame hframe hclear.first
    rw [framesOnto_eq, hnext]
    simp
  | more hframe hrest hmore ih =>
    obtain ⟨after, hnext⟩ := exists_next_of_frame hframe hclear.first
    obtain ⟨used, rfl, hsize, hplace, -⟩ := exists_of_next hnext hclear.first
    rw [framesOnto_eq, hnext]
    simp only [if_neg hrest]
    rw [ih _ _ (hplace ▸ hclear.next (hsize _))]
    simp

theorem decode_of_frames {s : Bytes} {contents : List Bytes} (hframes : Frames s contents)
    (hclear : IsClear 0 s) : decode s = .ok contents.flatten := by
  rw [decode, framesOnto_of_frames hframes .initial [] hclear]
  rfl

end Release

end Intake.Zstd
