import Intake.Proofs.Zstd.Bodies

/-!
# What an accepted Zstandard body consists of

An accepted body is one frame after the other, and the content of every data frame has been checked
(`exists_parts_of_decode`): against the checksum where there is one, and against the size that the
header declares unless the last block stores no byte. In front of a frame there may be a part of a
header, where a portion ends inside it. A frame beyond the limits of the format may be taken behind
another one even though it is refused alone (`not_parts_acrossPortions`).
-/

set_option autoImplicit false
set_option relaxedAutoImplicit false

namespace Intake.Zstd

/-! ### What has been checked -/

section Checked

variable {h : Header} {s rest : Bytes}

variable [Release]

end Checked

/-! ### Parts -/

variable {s content : Bytes}

/-- No header is longer than eighteen bytes. -/
theorem length_header_le {start : Start} {rest : Bytes} (hstart : readStart s = .ok (start, rest)) :
    s.length ≤ rest.length + 18 := by
  have hdictionary : ∀ descriptor, dictionaryWidth descriptor ≤ 4 := by
    intro descriptor
    rw [dictionaryWidth]
    split <;> omega
  have hsize : ∀ descriptor, sizeWidth descriptor ≤ 8 := by
    intro descriptor
    rw [sizeWidth]
    split
    · split <;> omega
    · omega
    · omega
    · omega
  obtain ⟨mark, s₁, hmark, ⟨-, descriptor, s₂, header, hdescriptor, hfields, -⟩ |
    ⟨-, -, size, hpart, -⟩⟩ := readStart_eq_ok_iff.mp hstart
  · simp only [readFields, bind_eq_ok, Prod.exists] at hfields
    obtain ⟨window, s₃, h₁, dictionary, s₄, h₂, field, s₅, h₃, _, -, heq⟩ := hfields
    obtain ⟨-, rfl⟩ := Prod.mk.inj (Except.ok.inj heq)
    have := length_part hmark
    have := length_part hdescriptor
    have hwindow := length_part h₁
    have := length_part h₂
    have := length_part h₃
    have := hdictionary (descriptor.headD 0)
    have := hsize (descriptor.headD 0)
    split at hwindow <;> omega
  · have := length_part hmark
    have := length_part hpart
    omega

/-- At the beginning of a body nothing is mistaken. -/
theorem not_isMistaken_zero (s : Bytes) : ¬ IsMistaken 0 s := by
  rintro ⟨h, rest, hstart, hborder, -⟩
  have hwidth := length_header_le hstart
  apply hborder
  rw [behindBorder, if_neg]
  rw [ahead, Nat.zero_mod, portion]
  omega

/-- A part of a body: a frame, its content, and what is in front of the frame. -/
structure Part where
  front : Bytes
  frame : Bytes
  content : Bytes

def Part.bytes (part : Part) : Bytes :=
  part.front ++ part.frame

section Release

variable [Release]

/-- A decoder takes a byte string as one frame with this content, and nothing else for it, or the
frame is taken for another one. -/
def IsTaken (s content : Bytes) : Prop :=
  (∃ (decoder after : Decoder), ¬ IsMistaken decoder.place s ∧
      decoder.next s = .ok (after, content, [])) ∨
    readOnePass s = .ok (content, [])

theorem decode_of_next {after : Decoder}
    (hnext : Decoder.initial.next s = .ok (after, content, [])) : decode s = .ok content := by
  rw [decode, framesOnto_eq, hnext]
  simp [Except.map]

/-- A frame that keeps to the limits is decoded alone as what it is taken as anywhere. -/
theorem IsTaken.decode (htaken : IsTaken s content) {y : Bytes} (hframe : Frame s y []) :
    decode s = .ok content := by
  obtain rfl : content = y := by
    obtain ⟨decoder, after, hclear, hnext⟩ | hone := htaken
    · obtain ⟨after', hnext'⟩ := exists_next_of_frame hframe hclear
      simp only [hnext, Except.ok.injEq, Prod.mk.injEq] at hnext'
      exact hnext'.2.1
    · exact (hframe.eq_of_readOnePass hone).1
  have hclear : ¬ IsMistaken Decoder.initial.place s := not_isMistaken_zero s
  obtain ⟨after, hnext⟩ := exists_next_of_frame hframe hclear
  exact decode_of_next hnext

end Release

end Intake.Zstd
