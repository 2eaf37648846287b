import Intake.Json.Numeral
import Intake.Json.Reader
import Intake.Outcome

/-!
# Reading a numeral

A numeral is a whole part, perhaps a fraction and perhaps an exponent, each of which takes as many
digits as there are. Where a digit is missing, or a whole part of two digits begins with a zero, the
text is broken. `length_of_read` says that a numeral is never empty.
-/

set_option autoImplicit false
set_option relaxedAutoImplicit false

namespace Intake.Json

/-- The digit that a byte is. -/
def Digit.ofByte? (b : UInt8) : Option Digit :=
  if h : 48 ≤ b.toNat ∧ b.toNat < 58 then some ⟨b.toNat - 48, by omega⟩ else none

/-- Where the text of a number is broken: at the first of these bytes, or at the end of the text. -/
structure Broken where
  rest : Bytes
  /-- Whether the byte was taken before it was found to be wrong. -/
  taken : Bool
  deriving DecidableEq, Repr

namespace Broken

def problem (broken : Broken) : Problem :=
  if broken.rest.isEmpty then .endOfValue else .number

/-- The fault of a text that is broken. -/
def fault (broken : Broken) : Fault :=
  .here broken.problem broken.rest

/-- The bytes that were not taken. -/
def untaken (broken : Broken) : Bytes :=
  if broken.taken then broken.rest.tail else broken.rest

end Broken

namespace Numeral

/-- Digits at the front, behind those in the reversed list `read`. -/
def digitsOnto (read : List Digit) : Bytes → List Digit × Bytes
  | [] => (read.reverse, [])
  | b :: s =>
    match Digit.ofByte? b with
    | some d => digitsOnto (d :: read) s
    | none => (read.reverse, b :: s)

/-- The digits at the front, of which there has to be one. -/
def digits (taken : Bool) : Bytes → Except Broken (Digits × Bytes)
  | [] => .error ⟨[], taken⟩
  | b :: s =>
    match Digit.ofByte? b with
    | some first =>
      let (more, rest) := digitsOnto [] s
      .ok (⟨first, more⟩, rest)
    | none => .error ⟨b :: s, taken⟩

/-- A sign is a minus, and there may be none. -/
def sign : Bytes → Bool × Bytes
  | [] => (false, [])
  | b :: s => if b = '-'.toUInt8 then (true, s) else (false, b :: s)

/-- The sign of an exponent may be a plus as well. -/
def exponentSign : Bytes → Bool × Bytes
  | [] => (false, [])
  | b :: s => if b = '+'.toUInt8 then (false, s) else sign (b :: s)

def fractionPart : Bytes → Except Broken (Option Digits × Bytes)
  | [] => .ok (none, [])
  | b :: s =>
    if b = '.'.toUInt8 then (digits false s).map fun (ds, rest) ↦ (some ds, rest)
    else .ok (none, b :: s)

def exponentPart : Bytes → Except Broken (Option Exponent × Bytes)
  | [] => .ok (none, [])
  | b :: s =>
    if b = 'e'.toUInt8 ∨ b = 'E'.toUInt8 then
      let signed := exponentSign s
      (digits true signed.2).map fun (ds, rest) ↦ (some ⟨signed.1, ds⟩, rest)
    else .ok (none, b :: s)

/-- The numeral at the front of a text, and what follows it. -/
def read (s : Bytes) : Except Broken (Numeral × Bytes) :=
  let signed := sign s
  match digits true signed.2 with
  | .error e => .error e
  | .ok (ds, rest) =>
    if h : ds.first = 0 → ds.more = [] then
      match fractionPart rest with
      | .error e => .error e
      | .ok (fraction, rest) =>
        match exponentPart rest with
        | .error e => .error e
        | .ok (exponent, rest) => .ok (⟨signed.1, ds, fraction, exponent, h⟩, rest)
    else .error ⟨signed.2.tail, false⟩

theorem length_digitsOnto_le (more : List Digit) (s : Bytes) :
    (digitsOnto more s).2.length ≤ s.length := by
  induction s generalizing more with
  | nil => exact Nat.le_refl _
  | cons b s ih =>
    rw [digitsOnto]
    split
    · exact Nat.le_succ_of_le (ih _)
    · exact Nat.le_refl _

theorem length_of_digits {taken : Bool} {s rest : Bytes} {ds : Digits}
    (h : digits taken s = .ok (ds, rest)) : rest.length < s.length := by
  cases s with
  | nil => simp [digits] at h
  | cons b s =>
    rw [digits] at h
    split at h
    · obtain ⟨-, rfl⟩ := Prod.mk.inj (Except.ok.inj h)
      exact Nat.lt_succ_of_le (length_digitsOnto_le [] s)
    · simp at h

theorem length_sign_le (s : Bytes) : (sign s).2.length ≤ s.length := by
  unfold sign
  split
  · exact Nat.le_refl _
  · split
    · exact Nat.le_succ _
    · exact Nat.le_refl _

theorem length_exponentSign_le (s : Bytes) : (exponentSign s).2.length ≤ s.length := by
  unfold exponentSign
  split
  · exact Nat.le_refl _
  · split
    · exact Nat.le_succ _
    · exact length_sign_le _

theorem length_of_fractionPart {s rest : Bytes} {fraction : Option Digits}
    (h : fractionPart s = .ok (fraction, rest)) : rest.length ≤ s.length := by
  cases s with
  | nil =>
    obtain ⟨-, rfl⟩ := Prod.mk.inj (Except.ok.inj h)
    exact Nat.le_refl _
  | cons b s =>
    rw [fractionPart] at h
    split at h
    · obtain ⟨⟨ds, tail⟩, hds, heq⟩ := map_eq_ok.1 h
      obtain ⟨-, rfl⟩ := Prod.mk.inj heq
      have := length_of_digits hds
      simp only [List.length_cons]
      omega
    · obtain ⟨-, rfl⟩ := Prod.mk.inj (Except.ok.inj h)
      exact Nat.le_refl _

theorem length_of_exponentPart {s rest : Bytes} {exponent : Option Exponent}
    (h : exponentPart s = .ok (exponent, rest)) : rest.length ≤ s.length := by
  cases s with
  | nil =>
    obtain ⟨-, rfl⟩ := Prod.mk.inj (Except.ok.inj h)
    exact Nat.le_refl _
  | cons b s =>
    rw [exponentPart] at h
    split at h
    · obtain ⟨⟨ds, tail⟩, hds, heq⟩ := map_eq_ok.1 h
      obtain ⟨-, rfl⟩ := Prod.mk.inj heq
      have := length_of_digits hds
      have := length_exponentSign_le s
      simp only [List.length_cons]
      omega
    · obtain ⟨-, rfl⟩ := Prod.mk.inj (Except.ok.inj h)
      exact Nat.le_refl _

theorem length_of_read {s rest : Bytes} {n : Numeral} (h : read s = .ok (n, rest)) :
    rest.length < s.length := by
  simp only [read] at h
  split at h
  · simp at h
  · split at h
    · split at h
      · simp at h
      · split at h
        · simp at h
        · obtain ⟨-, rfl⟩ := Prod.mk.inj (Except.ok.inj h)
          have := length_sign_le s
          have := length_of_digits ‹_›
          have := length_of_fractionPart ‹_›
          have := length_of_exponentPart ‹_›
          omega
    · simp at h

/-- What follows a numeral that was read behind the first byte of a text is shorter than the text.
-/
theorem length_lt_of_read {s front after : Bytes} {b : UInt8} {n : Numeral}
    (h : read (b :: front) = .ok (n, after)) (hfront : front.length < s.length) :
    after.length < s.length :=
  Nat.lt_of_lt_of_le (length_of_read h) hfront

/-- Whether a number begins with this byte. -/
def begins (b : UInt8) : Bool :=
  b == '-'.toUInt8 || (Digit.ofByte? b).isSome

/-- What was not taken by reading a numeral off a text. Nothing is taken off a text that begins with
something else. -/
def leftOver (s : Bytes) : Bytes :=
  if s.head?.all begins then
    match read s with
    | .ok (_, rest) => rest
    | .error broken => broken.untaken
  else s

/-- The numeral that a whole text is. Anything left over is a fault at its first byte, also where
the text was broken before. -/
def ofText (s : Bytes) : Except Error Numeral :=
  match leftOver s, read s with
  | b :: rest, _ => .error (.ofFault s (.here .number (b :: rest)))
  | [], .ok (n, _) => .ok n
  | [], .error broken => .error (.ofFault s ⟨.syntactic broken.problem, .fromEnd 0 0⟩)

end Numeral

end Intake.Json
