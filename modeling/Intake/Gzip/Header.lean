import Intake.Checksum.Crc32
import Intake.Outcome

/-!
# Headers of gzip members

A header is ten bytes, of which the first three are fixed and the fourth says which fields follow:
an extra field, a name, a comment and a checksum of the header, in this order. `Header.skip` checks
a header and hands back what follows it. The ten bytes are taken as a whole before any of them is
looked at, so a short header is an end of file whatever it begins with.
-/

set_option autoImplicit false
set_option relaxedAutoImplicit false

namespace Intake.Gzip

/-- Why a gzip body could not be read. -/
inductive Fault
  /-- The bytes end inside a header or a trailer. -/
  | endOfFile
  /-- The fixed bytes of a header are wrong, or a reserved flag is set. -/
  | header
  /-- A name or a comment is longer than 65535 bytes. -/
  | fieldTooLong
  /-- The deflate stream ends before its last block does. -/
  | incomplete
  /-- The deflate stream breaks its format. -/
  | corrupt
  /-- A checksum or a length does not fit the data. -/
  | mismatch
  deriving DecidableEq, Repr

/-- A name or a comment may have this many bytes before the zero that ends it. -/
def longestField : Nat := 65535

/-- The flag for a field of the header. -/
def hasFlag (flags : UInt8) (bit : UInt8) : Bool :=
  flags &&& bit ≠ 0

/-- Bytes up to the zero that ends them, put onto the reversed list `read`. The zero is kept. -/
def zeroEndedOnto : (room : Nat) → (read : Bytes) → Bytes → Except Fault (Bytes × Bytes)
  | _, _, [] => .error .endOfFile
  | 0, read, b :: s => if b = 0 then .ok ((b :: read).reverse, s) else .error .fieldTooLong
  | room + 1, read, b :: s =>
    if b = 0 then .ok ((b :: read).reverse, s) else zeroEndedOnto room (b :: read) s

/-- `n` bytes. -/
def fixedSize (n : Nat) (s : Bytes) : Except Fault (Bytes × Bytes) :=
  match Bytes.split? n s with
  | some read => .ok read
  | none => .error .endOfFile

/-- A field of the header as it is written, which is empty if its flag is not set. -/
def optional (present : Bool) (field : Bytes → Except Fault (Bytes × Bytes)) (s : Bytes) :
    Except Fault (Bytes × Bytes) :=
  if present then field s else .ok ([], s)

/-- The extra field: its size in two bytes, then that many bytes. -/
def extraField (s : Bytes) : Except Fault (Bytes × Bytes) := do
  let (size, s) ← fixedSize 2 s
  let (extra, s) ← fixedSize (Bytes.littleEndian size) s
  return (size ++ extra, s)

/-- Whether ten bytes may begin a member. -/
def isStart (start : Bytes) : Bool :=
  start.take 3 == [0x1F, 0x8B, 8] && !hasFlag (start.getD 3 0) 0xE0

/-- The low half of the checksum of a header, its low byte first. -/
def headerChecksum (header : Bytes) : Bytes :=
  let sum := Crc32.checksum header
  [sum.toUInt8, (sum >>> 8).toUInt8]

/-- What follows the header that a member begins with. -/
def skipHeader (s : Bytes) : Except Fault Bytes := do
  let (start, s) ← fixedSize 10 s
  if isStart start then
    let flags := start.getD 3 0
    let (extra, s) ← optional (hasFlag flags 4) extraField s
    let (name, s) ← optional (hasFlag flags 8) (zeroEndedOnto longestField []) s
    let (comment, s) ← optional (hasFlag flags 16) (zeroEndedOnto longestField []) s
    let (sum, s) ← optional (hasFlag flags 2) (fixedSize 2) s
    if hasFlag flags 2 ∧ sum ≠ headerChecksum (start ++ extra ++ name ++ comment) then
      .error .mismatch
    else .ok s
  else .error .header

theorem length_fixedSize {n : Nat} {s read rest : Bytes} (h : fixedSize n s = .ok (read, rest)) :
    rest.length + n = s.length := by
  unfold fixedSize at h
  split at h
  · obtain rfl := Except.ok.inj h
    exact Bytes.length_of_split? ‹_›
  · simp at h

theorem length_zeroEndedOnto {room : Nat} {read s field rest : Bytes}
    (h : zeroEndedOnto room read s = .ok (field, rest)) : rest.length ≤ s.length := by
  fun_induction zeroEndedOnto room read s with
  | case1 => simp at h
  | case2 =>
    obtain ⟨-, rfl⟩ := Prod.mk.inj (Except.ok.inj h)
    simp
  | case3 => simp at h
  | case4 =>
    obtain ⟨-, rfl⟩ := Prod.mk.inj (Except.ok.inj h)
    simp
  | case5 _ _ _ _ _ ih =>
    have := ih h
    simp only [List.length_cons]
    omega

theorem length_extraField {s field rest : Bytes} (h : extraField s = .ok (field, rest)) :
    rest.length ≤ s.length := by
  simp only [extraField, bind_eq_ok, Prod.exists] at h
  obtain ⟨size, s₁, h₁, extra, s₂, h₂, h⟩ := h
  obtain ⟨-, rfl⟩ := Prod.mk.inj (Except.ok.inj h)
  have := length_fixedSize h₁
  have := length_fixedSize h₂
  omega

theorem length_optional {present : Bool} {field : Bytes → Except Fault (Bytes × Bytes)}
    (hfield : ∀ {s read rest : Bytes}, field s = .ok (read, rest) → rest.length ≤ s.length)
    {s read rest : Bytes} (h : optional present field s = .ok (read, rest)) :
    rest.length ≤ s.length := by
  unfold optional at h
  split at h
  · exact hfield h
  · obtain ⟨-, rfl⟩ := Prod.mk.inj (Except.ok.inj h)
    exact Nat.le_refl _

theorem length_skipHeader {s rest : Bytes} (h : skipHeader s = .ok rest) :
    rest.length < s.length := by
  simp only [skipHeader, bind_eq_ok, Prod.exists] at h
  obtain ⟨start, s₁, h₁, h⟩ := h
  have := length_fixedSize h₁
  split at h
  · simp only [bind_eq_ok, Prod.exists] at h
    obtain ⟨extra, s₂, h₂, name, s₃, h₃, comment, s₄, h₄, sum, s₅, h₅, h⟩ := h
    have := length_optional length_extraField h₂
    have := length_optional length_zeroEndedOnto h₃
    have := length_optional length_zeroEndedOnto h₄
    have := length_optional (fun h ↦ by have := length_fixedSize h; omega) h₅
    split at h
    · simp at h
    · obtain rfl := Except.ok.inj h
      omega
  · simp at h

end Intake.Gzip
