import Intake.Bits

/-!
# Bits of a block

Coded literals and the numbers of the sequences are read backwards. Whether bits are left, or have
run out, is asked behind the last of them, if at all. Until then a stream that has run out begins
again, sixty-four bits in front of its end; where it has fewer, zeros come first. A number of a
sequence across the border is made of the bits on one side of it: extra bits are those in front, and
the bits of a state those behind.
-/

set_option autoImplicit false
set_option relaxedAutoImplicit false

namespace Intake.Zstd

/-- The bits that are left, the bits with which the stream begins again, and whether it has done
so. -/
structure BlockBits where
  left : BackwardBits
  again : BackwardBits
  overrun : Bool
  deriving DecidableEq

namespace BlockBits

/-- The bits with which a stream of these bytes begins again. -/
def lastBits (s : Bytes) : BackwardBits :=
  (lowBits 64 (Bytes.littleEndian (s.take 8))).reverse

/-- The bits below the mark in the last byte, if there is one. -/
def ofBytes? (s : Bytes) : Option BlockBits :=
  (BackwardBits.ofBytes? s).map fun bits ↦ ⟨bits, lastBits s, false⟩

/-- The stream after it began again and lost `n` bits. -/
def restart (s : BlockBits) (n : Nat) : BlockBits :=
  { s with left := s.again.drop n, overrun := true }

/-- The next `n` bits as extra bits. -/
def extra (n : Nat) (s : BlockBits) : Nat × BlockBits :=
  match s.left.number? n with
  | some (x, left) => (x, { s with left })
  | none =>
    let missing := n - s.left.length
    let x :=
      if s.left.isEmpty then ofHighBits (s.again.take n) else ofHighBits s.left * 2 ^ missing
    (x, s.restart missing)

/-- The next `n` bits as those of a state. -/
def state (n : Nat) (s : BlockBits) : Nat × BlockBits :=
  match s.left.number? n with
  | some (x, left) => (x, { s with left })
  | none =>
    let missing := n - s.left.length
    (ofHighBits (s.again.take missing), s.restart missing)

/-- The next `n` bits, with zeros behind the last one. They are not taken. -/
def peek (n : Nat) (s : BlockBits) : BackwardBits :=
  let bits := (if s.left.isEmpty then s.again else s.left).take n
  bits ++ List.replicate (n - bits.length) false

/-- The stream without its next `n` bits. -/
def skip : Nat → BlockBits → BlockBits
  | 0, s => s
  | n + 1, ⟨[], again, overrun⟩ => restart ⟨[], again, overrun⟩ (n + 1)
  | n + 1, ⟨_ :: left, again, overrun⟩ => skip n ⟨left, again, overrun⟩

/-- The stream without its next `n` bits, as far as there are any. -/
def clip (n : Nat) (s : BlockBits) : BlockBits :=
  if s.overrun then s else { s with left := s.left.drop n }

/-- Whether the bits ended where the reading did. -/
def isAtEnd (s : BlockBits) : Bool :=
  s.left.isEmpty && !s.overrun

/-- Whether no bit is left that has not been read. -/
def isUsedUp (s : BlockBits) : Bool :=
  s.left.isEmpty || s.overrun

end BlockBits

end Intake.Zstd
