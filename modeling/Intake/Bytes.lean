import Intake.Arithmetic

/-!
# Byte strings

Bodies, compressed streams and headers are lists of bytes. A reader takes bytes off the front and
hands back the rest, so what it consumed is what the two lists differ by: `split?_eq_some_iff` says
that cutting off `n` bytes succeeds exactly on the lists that begin with `n` bytes.
-/

set_option autoImplicit false
set_option relaxedAutoImplicit false

namespace Intake

/-- A string of bytes. -/
abbrev Bytes := List UInt8

namespace Bytes

/-- The number whose least significant byte comes first. -/
def littleEndian : Bytes → Nat
  | [] => 0
  | b :: bs => b.toNat + 256 * littleEndian bs

/-- Moves `n` bytes from the front of the last argument onto `taken`, which is kept reversed. -/
def splitOnto : Nat → Bytes → Bytes → Option (Bytes × Bytes)
  | 0, taken, s => some (taken.reverse, s)
  | _ + 1, _, [] => none
  | n + 1, taken, b :: s => splitOnto n (b :: taken) s

/-- The first `n` bytes and what follows them, if there are as many. -/
def split? (n : Nat) (s : Bytes) : Option (Bytes × Bytes) :=
  splitOnto n [] s

theorem splitOnto_eq_some_iff {n : Nat} {taken s front rest : Bytes} :
    splitOnto n taken s = some (front, rest) ↔
      ∃ moved, moved.length = n ∧ s = moved ++ rest ∧ front = taken.reverse ++ moved := by
  induction n generalizing taken s with
  | zero =>
    constructor
    · intro h
      obtain ⟨rfl, rfl⟩ : taken.reverse = front ∧ s = rest := by simpa [splitOnto] using h
      exact ⟨[], rfl, rfl, by simp⟩
    · rintro ⟨moved, hlen, rfl, rfl⟩
      obtain rfl := List.length_eq_zero_iff.1 hlen
      simp [splitOnto]
  | succ n ih =>
    cases s with
    | nil =>
      constructor
      · intro h
        simp [splitOnto] at h
      · rintro ⟨moved, hlen, hs, -⟩
        cases moved with
        | nil => simp at hlen
        | cons => simp at hs
    | cons b s =>
      rw [splitOnto, ih]
      constructor
      · rintro ⟨moved, hlen, rfl, rfl⟩
        exact ⟨b :: moved, by simp [hlen], rfl, by simp⟩
      · rintro ⟨moved, hlen, hs, rfl⟩
        cases moved with
        | nil => simp at hlen
        | cons c moved =>
          obtain ⟨rfl, rfl⟩ : b = c ∧ s = moved ++ rest := by simpa using hs
          exact ⟨moved, by simpa using hlen, rfl, by simp⟩

theorem split?_eq_some_iff {n : Nat} {s front rest : Bytes} :
    split? n s = some (front, rest) ↔ front.length = n ∧ s = front ++ rest := by
  rw [split?, splitOnto_eq_some_iff]
  constructor
  · rintro ⟨moved, hlen, rfl, rfl⟩
    exact ⟨by simpa using hlen, by simp⟩
  · rintro ⟨hlen, rfl⟩
    exact ⟨front, hlen, rfl, by simp⟩

theorem length_of_split? {n : Nat} {s front rest : Bytes} (h : split? n s = some (front, rest)) :
    rest.length + n = s.length := by
  obtain ⟨hlen, rfl⟩ := split?_eq_some_iff.1 h
  simp [hlen, Nat.add_comm]

end Bytes

end Intake
