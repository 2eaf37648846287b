import Intake.Bytes

/-!
# UTF-8

`front?` reads the one character that a byte string begins with, refusing overlong forms,
surrogates and code points above U+10FFFF. `wellFormed` cuts a byte string after its longest
well-formed beginning; a text is UTF-8 exactly when nothing is left behind the cut.
-/

set_option autoImplicit false
set_option relaxedAutoImplicit false

namespace Intake.Utf8

/-- The UTF-8 form of a list of characters. -/
def encode (text : List Char) : Bytes :=
  text.flatMap String.utf8EncodeChar

/-- The low six bits of a continuation byte. -/
def tail? (b : UInt8) : Option Nat :=
  if 0x80 ≤ b ∧ b ≤ 0xBF then some (b.toNat - 0x80) else none

/-- The character with this code point, if it is at least `least` and names a character. -/
def scalar? (least n : Nat) : Option Char :=
  if h : n.isValidChar then
    if least ≤ n then some (Char.ofNatAux n h) else none
  else none

/-- The first character and the bytes after it. -/
def front? : Bytes → Option (Char × Bytes)
  | [] => none
  | a :: s =>
    if a < 0x80 then (scalar? 0 a.toNat).map (·, s)
    else if a < 0xC0 then none
    else if a < 0xE0 then
      match s with
      | b :: s => do
        let b ← tail? b
        let c ← scalar? 0x80 ((a.toNat - 0xC0) * 64 + b)
        return (c, s)
      | _ => none
    else if a < 0xF0 then
      match s with
      | b :: c :: s => do
        let b ← tail? b
        let c ← tail? c
        let c ← scalar? 0x800 (((a.toNat - 0xE0) * 64 + b) * 64 + c)
        return (c, s)
      | _ => none
    else
      match s with
      | b :: c :: d :: s => do
        let b ← tail? b
        let c ← tail? c
        let d ← tail? d
        let c ← scalar? 0x10000 ((((a.toNat - 0xF0) * 64 + b) * 64 + c) * 64 + d)
        return (c, s)
      | _ => none

theorem front?_shorter {s rest : Bytes} {c : Char} (h : front? s = some (c, rest)) :
    rest.length < s.length := by
  unfold front? at h
  split at h
  · simp at h
  · split at h
    · simp only [Option.map_eq_some_iff, Prod.mk.injEq] at h
      obtain ⟨_, _, _, rfl⟩ := h
      simp
    · split at h
      · simp at h
      · split at h
        · split at h
          · simp only [Option.bind_eq_bind, Option.bind_eq_some_iff, Option.pure_def,
              Option.some.injEq, Prod.mk.injEq] at h
            obtain ⟨_, _, _, _, _, rfl⟩ := h
            simp only [List.length_cons]
            omega
          · simp at h
        · split at h
          · split at h
            · simp only [Option.bind_eq_bind, Option.bind_eq_some_iff, Option.pure_def,
                Option.some.injEq, Prod.mk.injEq] at h
              obtain ⟨_, _, _, _, _, _, _, rfl⟩ := h
              simp only [List.length_cons]
              omega
            · simp at h
          · split at h
            · simp only [Option.bind_eq_bind, Option.bind_eq_some_iff, Option.pure_def,
                Option.some.injEq, Prod.mk.injEq] at h
              obtain ⟨_, _, _, _, _, _, _, _, _, rfl⟩ := h
              simp only [List.length_cons]
              omega
            · simp at h

/-- Moves characters off the front onto `read`, which is kept reversed, as long as there are any. -/
def wellFormedOnto (read : List Char) (s : Bytes) : List Char × Bytes :=
  match _h : front? s with
  | some (c, rest) => wellFormedOnto (c :: read) rest
  | none => (read.reverse, s)
termination_by s.length
decreasing_by exact front?_shorter ‹_›

/-- The characters of the longest well-formed beginning, and the bytes behind it. -/
def wellFormed (s : Bytes) : List Char × Bytes :=
  wellFormedOnto [] s

/-- The characters of a byte string that is UTF-8 throughout. -/
def decode? (s : Bytes) : Option (List Char) :=
  match wellFormed s with
  | (text, []) => some text
  | _ => none

end Intake.Utf8
