import Intake.Bits
import Intake.Outcome
import Mathlib.Tactic.Common

/-!
# Readers that look no further than what they take

A reader is local if what it takes, and what it makes of it, does not depend on the bytes behind
(`IsLocal`). A sequence of local readers is local. For bits the bytes that are taken are those of
which a bit was read, and the bits left of the last one go with the rest.
-/

set_option autoImplicit false
set_option relaxedAutoImplicit false

namespace Intake

variable {ε α β : Type}

/-! ### Bytes -/

/-- A reader takes some bytes, and takes the same bytes in front of any others. -/
def IsLocal (read : Bytes → Except ε (α × Bytes)) : Prop :=
  ∀ ⦃s a rest⦄, read s = .ok (a, rest) →
    ∃ used, s = used ++ rest ∧ ∀ t, read (used ++ t) = .ok (a, t)

namespace IsLocal

theorem pure (a : α) : IsLocal (ε := ε) fun s ↦ .ok (a, s) := by
  intro s b rest h
  obtain ⟨rfl, rfl⟩ := Prod.mk.inj (Except.ok.inj h)
  exact ⟨[], rfl, fun t ↦ rfl⟩

theorem bind {first : Bytes → Except ε (α × Bytes)} {next : α → Bytes → Except ε (β × Bytes)}
    (hfirst : IsLocal first) (hnext : ∀ a, IsLocal (next a)) :
    IsLocal fun s ↦ first s >>= fun (a, s) ↦ next a s := by
  intro s b rest h
  obtain ⟨⟨a, middle⟩, h₁, h₂⟩ := bind_eq_ok.mp h
  obtain ⟨used, rfl, hused⟩ := hfirst h₁
  obtain ⟨more, rfl, hmore⟩ := hnext a h₂
  refine ⟨used ++ more, (List.append_assoc _ _ _).symm, fun t ↦ ?_⟩
  rw [List.append_assoc]
  exact bind_eq_ok.mpr ⟨(a, more ++ t), hused _, hmore t⟩

theorem ite {first second : Bytes → Except ε (α × Bytes)} (p : Prop) [Decidable p]
    (hfirst : IsLocal first) (hsecond : IsLocal second) :
    IsLocal fun s ↦ if p then first s else second s := by
  by_cases h : p
  · simpa only [if_pos h] using hfirst
  · simpa only [if_neg h] using hsecond

end IsLocal

/-! ### Bits -/

namespace BitStream

/-- A reader of bits takes some bytes, and takes the same bytes in front of any others. -/
def IsLocal (read : BitStream → Except ε (α × BitStream)) : Prop :=
  ∀ ⦃s a rest⦄, read s = .ok (a, rest) →
    ∃ used, s.bytes = used ++ rest.bytes ∧
      ∀ t, read ⟨s.bits, used ++ t⟩ = .ok (a, ⟨rest.bits, t⟩)

theorem exists_of_next? {s rest : BitStream} {b : Bool} (h : s.next? = some (b, rest)) :
    ∃ used, s.bytes = used ++ rest.bytes ∧
      ∀ t, next? ⟨s.bits, used ++ t⟩ = some (b, ⟨rest.bits, t⟩) := by
  obtain ⟨bits, bytes⟩ := s
  cases bits with
  | cons c bits =>
    obtain ⟨rfl, rfl⟩ := Prod.mk.inj (Option.some.inj h)
    exact ⟨[], rfl, fun t ↦ rfl⟩
  | nil =>
    cases bytes with
    | nil => simp [next?] at h
    | cons byte bytes =>
      obtain ⟨rfl, rfl⟩ := Prod.mk.inj (Option.some.inj h)
      exact ⟨[byte], rfl, fun t ↦ rfl⟩

theorem exists_of_take? {n : Nat} {s rest : BitStream} {bits : List Bool}
    (h : take? n s = some (bits, rest)) :
    ∃ used, s.bytes = used ++ rest.bytes ∧
      ∀ t, take? n ⟨s.bits, used ++ t⟩ = some (bits, ⟨rest.bits, t⟩) := by
  induction n generalizing s bits with
  | zero =>
    obtain ⟨rfl, rfl⟩ := Prod.mk.inj (Option.some.inj h)
    exact ⟨[], rfl, fun t ↦ rfl⟩
  | succ n ih =>
    simp only [take?, Option.bind_eq_bind, Option.bind_eq_some_iff, Option.pure_def,
      Option.some.injEq, Prod.mk.injEq, Prod.exists] at h
    obtain ⟨b, s₁, h₁, bits₁, s₂, h₂, rfl, rfl⟩ := h
    obtain ⟨used, hs, hused⟩ := exists_of_next? h₁
    obtain ⟨more, hs₁, hmore⟩ := ih h₂
    refine ⟨used ++ more, by rw [hs, hs₁, List.append_assoc], fun t ↦ ?_⟩
    rw [List.append_assoc, take?, hused]
    simp only [Option.bind_eq_bind, Option.bind_some, hmore, Option.pure_def]

theorem exists_of_number? {n x : Nat} {s rest : BitStream} (h : number? n s = some (x, rest)) :
    ∃ used, s.bytes = used ++ rest.bytes ∧
      ∀ t, number? n ⟨s.bits, used ++ t⟩ = some (x, ⟨rest.bits, t⟩) := by
  simp only [number?, Option.map_eq_some_iff, Prod.mk.injEq, Prod.exists] at h
  obtain ⟨bits, rest, h, rfl, rfl⟩ := h
  obtain ⟨used, hs, hused⟩ := exists_of_take? h
  exact ⟨used, hs, fun t ↦ by rw [number?, hused, Option.map_some]⟩

end BitStream

end Intake
