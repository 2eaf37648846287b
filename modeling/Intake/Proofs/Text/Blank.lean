import Intake.Text.Blank
import Mathlib.Data.List.Basic
import Mathlib.Data.List.TakeWhile

/-!
# What trimming leaves

A text is blanks, a middle part, and blanks again, in many ways; it is so in one way only if the
middle part neither begins nor ends with a blank. Trimming finds that part (`trimmed_eq_iff`).
-/

set_option autoImplicit false
set_option relaxedAutoImplicit false

namespace Intake.Text

/-- Neither the first nor the last character is a blank. -/
structure HasFirmEnds (text : List Char) : Prop where
  first : ∀ c ∈ text.head?, isBlank c = false
  last : ∀ c ∈ text.getLast?, isBlank c = false

/-- A text is this middle part with blanks around it, all of them. -/
def TrimsTo (text middle : List Char) : Prop :=
  ∃ before after, text = before ++ middle ++ after ∧ (∀ c ∈ before, isBlank c = true) ∧
    (∀ c ∈ after, isBlank c = true) ∧ HasFirmEnds middle

theorem HasFirmEnds.reverse {text : List Char} (h : HasFirmEnds text) :
    HasFirmEnds text.reverse where
  first := by
    rw [List.head?_reverse]
    exact h.last
  last := by
    rw [List.getLast?_reverse]
    exact h.first

/-- Blanks in front of a text go, and those behind it stay. -/
theorem dropWhile_isBlank {before text : List Char} (after : List Char)
    (hbefore : ∀ c ∈ before, isBlank c = true) (htext : HasFirmEnds text) (hne : text ≠ []) :
    (before ++ text ++ after).dropWhile isBlank = text ++ after := by
  rw [List.append_assoc, List.dropWhile_append_of_pos hbefore]
  cases text with
  | nil => exact absurd rfl hne
  | cons c text =>
    have hc : isBlank c = false := htext.first c rfl
    rw [List.cons_append, List.dropWhile_cons_of_neg (by simp [hc])]

theorem trimmed_eq {before middle after : List Char} (hbefore : ∀ c ∈ before, isBlank c = true)
    (hafter : ∀ c ∈ after, isBlank c = true) (hmiddle : HasFirmEnds middle) :
    trimmed (before ++ middle ++ after) = middle := by
  by_cases hne : middle = []
  · have hblanks : ∀ c ∈ before ++ middle ++ after, isBlank c = true := by
      rw [hne, List.append_nil]
      exact List.forall_mem_append.mpr ⟨hbefore, hafter⟩
    rw [trimmed, List.dropWhile_eq_nil_iff.mpr hblanks, hne]
    rfl
  · have hreversed : ∀ c ∈ after.reverse, isBlank c = true :=
      fun c hc ↦ hafter c (List.mem_reverse.mp hc)
    have hback := dropWhile_isBlank [] hreversed hmiddle.reverse (List.reverse_ne_nil_iff.mpr hne)
    rw [List.append_nil, List.append_nil] at hback
    rw [trimmed, dropWhile_isBlank after hbefore hmiddle hne, List.reverse_append, hback,
      List.reverse_reverse]

theorem not_isBlank_head_dropWhile (text : List Char) :
    ∀ c ∈ (text.dropWhile isBlank).head?, isBlank c = false := by
  intro c hc
  have h := List.head?_dropWhile_not isBlank text
  rwa [Option.mem_def.mp hc] at h

theorem trimsTo_trimmed (text : List Char) : TrimsTo text (trimmed text) := by
  obtain ⟨back, hback⟩ : ∃ back, back = (text.dropWhile isBlank).reverse := ⟨_, rfl⟩
  have hbehind : text.dropWhile isBlank = trimmed text ++ (back.takeWhile isBlank).reverse := by
    rw [trimmed, ← hback, ← List.reverse_append, List.takeWhile_append_dropWhile, hback,
      List.reverse_reverse]
  have hafter : ∀ c ∈ (back.takeWhile isBlank).reverse, isBlank c = true :=
    fun c hc ↦ List.mem_takeWhile_imp (List.mem_reverse.mp hc)
  refine ⟨text.takeWhile isBlank, _, ?_, fun _ ↦ List.mem_takeWhile_imp, hafter, ?_, ?_⟩
  · rw [List.append_assoc, ← hbehind, List.takeWhile_append_dropWhile]
  · intro c hc
    have hfirst := not_isBlank_head_dropWhile text c
    rw [hbehind, List.head?_append, Option.mem_def.mp hc] at hfirst
    exact hfirst rfl
  · rw [trimmed, ← hback, List.getLast?_reverse]
    exact not_isBlank_head_dropWhile back

theorem trimmed_eq_iff {text middle : List Char} : trimmed text = middle ↔ TrimsTo text middle := by
  constructor
  · rintro rfl
    exact trimsTo_trimmed text
  · rintro ⟨before, after, rfl, hbefore, hafter, hmiddle⟩
    exact trimmed_eq hbefore hafter hmiddle

end Intake.Text
