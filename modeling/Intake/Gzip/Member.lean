import Intake.Deflate.Block
import Intake.Gzip.Header

/-!
# Gzip bodies

A member is a header, a deflate stream and a trailer with the checksum and the length of what the
stream stands for. A body is one member after the other, at least one, up to its last byte: what
follows a member is another member, whatever it begins with.
-/

set_option autoImplicit false
set_option relaxedAutoImplicit false

namespace Intake.Gzip

def Fault.ofDeflate : Deflate.Fault → Fault
  | .incomplete => .incomplete
  | .corrupt => .corrupt

/-- The trailer of a member with this content. -/
def trailer (content : Bytes) : Nat × Nat :=
  ((Crc32.checksum content).toNat, content.length % 2 ^ 32)

/-- The content of the member that a byte string begins with, and the bytes behind the member. -/
def member (s : Bytes) : Except Fault (Bytes × Bytes) := do
  let s ← skipHeader s
  let (blocks, s) ← (Deflate.blocks s).mapError .ofDeflate
  let content := Deflate.content blocks
  let (sum, s) ← fixedSize 4 s
  let (size, s) ← fixedSize 4 s
  if (Bytes.littleEndian sum, Bytes.littleEndian size) = trailer content then .ok (content, s)
  else .error .mismatch

theorem length_member {s content rest : Bytes} (h : member s = .ok (content, rest)) :
    rest.length < s.length := by
  simp only [member, bind_eq_ok, mapError_eq_ok, Prod.exists] at h
  obtain ⟨s₁, h₁, blocks, s₂, h₂, sum, s₃, h₃, size, s₄, h₄, h⟩ := h
  have := length_skipHeader h₁
  have := Deflate.length_of_blocks h₂
  have := length_fixedSize h₃
  have := length_fixedSize h₄
  split at h
  · obtain ⟨-, rfl⟩ := Prod.mk.inj (Except.ok.inj h)
    omega
  · simp at h

/-- The contents of all members behind those in the reversed list `read`. -/
def membersOnto (read : List Bytes) (s : Bytes) : Except Fault (List Bytes) :=
  match _h : member s with
  | .error e => .error e
  | .ok (content, []) => .ok (content :: read).reverse
  | .ok (content, rest) => membersOnto (content :: read) rest
termination_by s.length
decreasing_by exact length_member ‹_›

/-- The bytes that a gzip body stands for. -/
def decode (body : Bytes) : Except Fault Bytes :=
  (membersOnto [] body).map List.flatten

end Intake.Gzip
