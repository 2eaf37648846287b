import Intake.Bytes
import Intake.Outcome
import Intake.Zstd.Fault
import Intake.Zstd.Release

/-!
# Headers of Zstandard frames

A frame begins with four fixed bytes and a descriptor byte, which says which fields follow and how
wide they are. A skippable frame begins with one of sixteen values and its size. When a byte string
ends before a header does, it is incomplete if it could still become a header, and begins no frame
otherwise.
-/

set_option autoImplicit false
set_option relaxedAutoImplicit false

namespace Intake.Zstd

/-- The first bytes of a frame. -/
def frameMark : Bytes := [0x28, 0xB5, 0x2F, 0xFD]

/-- The bytes behind the first byte of a skippable frame. -/
def skippableMark : Bytes := [0x2A, 0x4D, 0x18]

/-- Whether up to four bytes begin a skippable frame or could begin one. -/
def startsSkippable : Bytes → Bool
  | [] => true
  | b :: s => 0x50 ≤ b && b ≤ 0x5F && (s.take 3).isPrefixOf skippableMark

/-- The largest content of a block. -/
def longestBlock : Nat := 2 ^ 17

/-- The largest window that is decoded piece by piece. -/
def longestWindow : Nat := 2 ^ 27 + 1

/-- What the header of a frame says. -/
structure Header where
  window : Nat
  /-- The size of the content, where the frame declares it. -/
  size : Option Nat
  /-- Whether a checksum follows the last block. -/
  hasChecksum : Bool
  dictionary : Nat
  deriving DecidableEq, Repr

/-- The largest content of a block of the frame. -/
def Header.blockLimit (h : Header) : Nat :=
  min h.window longestBlock

/-- How many bytes a compressed block of the frame and its literals may have. -/
def Header.compressedLimit [Release] (h : Header) : Nat :=
  if Release.strict then h.blockLimit else longestBlock

/-- The window that a window descriptor stands for. -/
def windowOf (descriptor : UInt8) : Nat :=
  let base := 2 ^ (10 + descriptor.toNat / 8)
  base + base / 8 * (descriptor.toNat % 8)

/-- How many bytes hold the size of the content. -/
def sizeWidth (descriptor : UInt8) : Nat :=
  match descriptor.toNat / 64 with
  | 0 => if descriptor &&& 0x20 ≠ 0 then 1 else 0
  | 1 => 2
  | 2 => 4
  | _ => 8

/-- The number in the field for the size of the content. The two-byte form starts at 256. -/
def sizeField (field : Bytes) : Nat :=
  if field.length = 2 then Bytes.littleEndian field + 256 else Bytes.littleEndian field

/-- The size of the content, if it is declared. Eight bytes of ones declare nothing. -/
def declaredSize (field : Bytes) : Option Nat :=
  if field = [] ∨ sizeField field = 2 ^ 64 - 1 then none else some (sizeField field)

/-- How many bytes hold the number of a dictionary. -/
def dictionaryWidth (descriptor : UInt8) : Nat :=
  match descriptor.toNat % 4 with
  | 3 => 4
  | n => n

/-- The header with these fields. A frame in a single segment has no window descriptor, and its
content is its window. -/
def Header.ofFields (descriptor : UInt8) (window dictionary size : Bytes) : Except Fault Header :=
  if descriptor &&& 0x08 ≠ 0 then .error .unsupported
  else
    match window with
    | [] => .ok ⟨sizeField size, declaredSize size, descriptor &&& 4 ≠ 0,
        Bytes.littleEndian dictionary⟩
    | window :: _ =>
      if 0xB0 ≤ window then .error .windowTooLarge
      else .ok ⟨windowOf window, declaredSize size, descriptor &&& 4 ≠ 0,
        Bytes.littleEndian dictionary⟩

/-- `n` bytes of a frame. -/
def part (n : Nat) (s : Bytes) : Except Fault (Bytes × Bytes) :=
  match Bytes.split? n s with
  | some read => .ok read
  | none => .error .incomplete

/-- The header of which the descriptor and what follows it are given. -/
def readFields (descriptor : UInt8) (s : Bytes) : Except Fault (Header × Bytes) := do
  let (window, s) ← part (if descriptor &&& 0x20 ≠ 0 then 0 else 1) s
  let (dictionary, s) ← part (dictionaryWidth descriptor) s
  let (size, s) ← part (sizeWidth descriptor) s
  let header ← Header.ofFields descriptor window dictionary size
  return (header, s)

/-- What a frame is, as far as its header tells. -/
inductive Start
  | frame (header : Header)
  | skippable (size : Nat)

/-- The header that a byte string begins with. -/
def readStart (s : Bytes) : Except Fault (Start × Bytes) :=
  match Bytes.split? 4 s with
  | none =>
    if s.isPrefixOf frameMark || startsSkippable s then .error .incomplete else .error .unknownFrame
  | some (mark, rest) =>
    if mark = frameMark then do
      let (descriptor, rest) ← part 1 rest
      let (header, rest) ← readFields (descriptor.headD 0) rest
      return (.frame header, rest)
    else if startsSkippable mark then do
      let (size, rest) ← part 4 rest
      return (.skippable (Bytes.littleEndian size), rest)
    else .error .unknownFrame

theorem length_part {n : Nat} {s read rest : Bytes} (h : part n s = .ok (read, rest)) :
    rest.length + n = s.length := by
  unfold part at h
  split at h
  · obtain rfl := Except.ok.inj h
    exact Bytes.length_of_split? ‹_›
  · simp at h

theorem length_readFields {descriptor : UInt8} {s rest : Bytes} {header : Header}
    (h : readFields descriptor s = .ok (header, rest)) : rest.length ≤ s.length := by
  simp only [readFields, bind_eq_ok, Prod.exists] at h
  obtain ⟨window, s₁, h₁, dictionary, s₂, h₂, size, s₃, h₃, header, -, h⟩ := h
  obtain ⟨-, rfl⟩ := Prod.mk.inj (Except.ok.inj h)
  have := length_part h₁
  have := length_part h₂
  have := length_part h₃
  omega

theorem length_readStart {s rest : Bytes} {start : Start} (h : readStart s = .ok (start, rest)) :
    rest.length < s.length := by
  unfold readStart at h
  split at h
  · split at h <;> simp at h
  · have := Bytes.length_of_split? ‹_›
    split at h
    · simp only [bind_eq_ok, Prod.exists] at h
      obtain ⟨descriptor, s₁, h₁, header, s₂, h₂, h⟩ := h
      obtain ⟨-, rfl⟩ := Prod.mk.inj (Except.ok.inj h)
      have := length_part h₁
      have := length_readFields h₂
      omega
    · split at h
      · simp only [bind_eq_ok, Prod.exists] at h
        obtain ⟨size, s₁, h₁, h⟩ := h
        obtain ⟨-, rfl⟩ := Prod.mk.inj (Except.ok.inj h)
        have := length_part h₁
        omega
      · simp at h

end Intake.Zstd
