import Intake.Bytes

/-!
# Bits of a byte string

A forward stream takes the bits of each byte from the least significant one up, and can be aligned
to the next byte. Its size is the number of bits left: `size_next?` and `size_number?` say that a
successful read lowers it by what was read.

A backward stream takes the bytes from the last one down and the bits of each from the most
significant one. The last byte holds a mark, its highest set bit, and the stream begins below it.
-/

set_option autoImplicit false
set_option relaxedAutoImplicit false

namespace Intake

/-- The lowest `n` bits of a number, the least significant one first. -/
def lowBits : Nat → Nat → List Bool
  | 0, _ => []
  | n + 1, x => (x % 2 == 1) :: lowBits n (x / 2)

/-- The number whose least significant bit comes first. -/
def ofLowBits : List Bool → Nat
  | [] => 0
  | b :: bits => b.toNat + 2 * ofLowBits bits

/-- The number whose most significant bit comes first. -/
def ofHighBits (bits : List Bool) : Nat :=
  bits.foldl (fun n b ↦ 2 * n + b.toNat) 0

/-- A forward stream: the bits left of the byte being read, and the bytes behind it. -/
structure BitStream where
  bits : List Bool
  bytes : Bytes

namespace BitStream

def ofBytes (s : Bytes) : BitStream :=
  ⟨[], s⟩

/-- How many bits are left. -/
def size (s : BitStream) : Nat :=
  s.bits.length + 8 * s.bytes.length

def next? (s : BitStream) : Option (Bool × BitStream) :=
  match s.bits, s.bytes with
  | b :: bits, bytes => some (b, ⟨bits, bytes⟩)
  | [], byte :: bytes =>
    match lowBits 8 byte.toNat with
    | b :: bits => some (b, ⟨bits, bytes⟩)
    | [] => none
  | [], [] => none

/-- The next `n` bits. -/
def take? : Nat → BitStream → Option (List Bool × BitStream)
  | 0, s => some ([], s)
  | n + 1, s => do
    let (b, s) ← s.next?
    let (bits, s) ← take? n s
    return (b :: bits, s)

/-- The next `n` bits as a number, the least significant one first. -/
def number? (n : Nat) (s : BitStream) : Option (Nat × BitStream) :=
  (take? n s).map fun (bits, s) ↦ (ofLowBits bits, s)

/-- The bytes from the next byte boundary on. -/
def aligned (s : BitStream) : Bytes :=
  s.bytes

theorem length_lowBits (n x : Nat) : (lowBits n x).length = n := by
  induction n generalizing x with
  | zero => rfl
  | succ n ih => simp [lowBits, ih]

theorem size_next? {s rest : BitStream} {b : Bool} (h : s.next? = some (b, rest)) :
    rest.size + 1 = s.size := by
  obtain ⟨bits, bytes⟩ := s
  cases bits with
  | cons c bits =>
    simp only [next?, Option.some.injEq, Prod.mk.injEq] at h
    obtain ⟨_, rfl⟩ := h
    simp only [size, List.length_cons]
    omega
  | nil =>
    cases bytes with
    | nil => simp [next?] at h
    | cons byte bytes =>
      have hlen := length_lowBits 8 byte.toNat
      cases hbits : lowBits 8 byte.toNat with
      | nil => simp [hbits] at hlen
      | cons c bits =>
        simp only [next?, hbits, Option.some.injEq, Prod.mk.injEq] at h
        obtain ⟨_, rfl⟩ := h
        simp only [hbits, List.length_cons] at hlen
        simp only [size, List.length_cons, List.length_nil]
        omega

theorem size_take? {n : Nat} {s rest : BitStream} {bits : List Bool}
    (h : take? n s = some (bits, rest)) : rest.size + n = s.size := by
  induction n generalizing s bits with
  | zero =>
    simp only [take?, Option.some.injEq, Prod.mk.injEq] at h
    obtain ⟨_, rfl⟩ := h
    rfl
  | succ n ih =>
    simp only [take?, Option.bind_eq_bind, Option.bind_eq_some_iff, Option.pure_def,
      Option.some.injEq, Prod.mk.injEq, Prod.exists] at h
    obtain ⟨b, s₁, h₁, bits₁, s₂, h₂, _, rfl⟩ := h
    have := size_next? h₁
    have := ih h₂
    omega

theorem size_number? {n x : Nat} {s rest : BitStream} (h : number? n s = some (x, rest)) :
    rest.size + n = s.size := by
  simp only [number?, Option.map_eq_some_iff, Prod.mk.injEq, Prod.exists] at h
  obtain ⟨bits, s', h, _, rfl⟩ := h
  exact size_take? h

theorem size_aligned (s : BitStream) : 8 * s.aligned.length ≤ s.size := by
  simp only [aligned, size]
  omega

end BitStream

/-- The bits of a backward stream, in the order in which they are read. -/
abbrev BackwardBits := List Bool

namespace BackwardBits

/-- The bits below the mark, if there is one. -/
def ofBytes? (s : Bytes) : Option BackwardBits :=
  match s.reverse with
  | [] => none
  | last :: bytes =>
    match (lowBits 8 last.toNat).reverse.dropWhile (! ·) with
    | [] => none
    | _ :: bits => some (bits ++ bytes.flatMap fun byte ↦ (lowBits 8 byte.toNat).reverse)

/-- Reads `n` bits onto the number read so far. -/
def readOnto : Nat → Nat → BackwardBits → Option (Nat × BackwardBits)
  | x, 0, bits => some (x, bits)
  | _, _ + 1, [] => none
  | x, n + 1, b :: bits => readOnto (2 * x + b.toNat) n bits

/-- The next `n` bits as a number, the most significant one first. -/
def number? (n : Nat) (bits : BackwardBits) : Option (Nat × BackwardBits) :=
  readOnto 0 n bits

end BackwardBits

end Intake
