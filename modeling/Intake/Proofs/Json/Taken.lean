import Intake.Json.Reader
import Intake.Proofs.Json.Tree
import Intake.Proofs.Text.Utf8

/-!
# What readers take

Whether a reader takes something off a text, what it takes and what it leaves is its `outcome`. The
faults and the evidence that a reader makes progress have no part in it, so an outcome can be
computed one token at a time: blanks (`skipBlanks_encode`), the letters of a word (`word_eq_ok_iff`)
and the elements of a list (`outcome_list`).
-/

set_option autoImplicit false
set_option relaxedAutoImplicit false

namespace Intake.Json

open Utf8

variable {α β : Type} {source inner : Bytes}

/-- What was taken off a text and what follows it, if anything was taken. -/
def outcome : Except Fault (Taken source α) → Option (α × Bytes)
  | .ok t => some (t.value, t.rest)
  | .error _ => none

@[simp] theorem outcome_ok (t : Taken source α) :
    outcome (.ok t : Except Fault (Taken source α)) = some (t.value, t.rest) :=
  rfl

@[simp] theorem outcome_error (e : Fault) :
    outcome (.error e : Except Fault (Taken source α)) = none :=
  rfl

/-- What was taken is known from the outcome, apart from the evidence that it is not empty. -/
theorem exists_of_outcome_eq_some {x : Except Fault (Taken source α)} {v : α} {rest : Bytes}
    (h : outcome x = some (v, rest)) : ∃ hshorter, x = .ok ⟨v, rest, hshorter⟩ := by
  cases x with
  | error e => exact absurd h (by simp)
  | ok t =>
    obtain ⟨rfl, rfl⟩ := Prod.mk.inj (Option.some_inj.mp h)
    exact ⟨t.shorter, rfl⟩

theorem exists_of_outcome_eq_none {x : Except Fault (Taken source α)} (h : outcome x = none) :
    ∃ e, x = .error e := by
  cases x with
  | error e => exact ⟨e, rfl⟩
  | ok t => exact absurd h (by simp)

theorem outcome_map_widen (x : Except Fault (Taken inner α)) (h : inner.length < source.length) :
    outcome (x.map (Taken.widen · h)) = outcome x := by
  cases x with
  | error e => rfl
  | ok t => rfl

theorem outcome_map (f : α → β) (x : Except Fault (Taken source α)) :
    outcome (x.map (Taken.map f)) = (outcome x).map (Prod.map f id) := by
  cases x with
  | error e => rfl
  | ok t => rfl

theorem outcome_map_widen_map (f : α → β) (x : Except Fault (Taken inner α))
    (h : inner.length < source.length) :
    outcome (x.map fun t ↦ (t.widen h).map f) = (outcome x).map (Prod.map f id) := by
  cases x with
  | error e => rfl
  | ok t => rfl

theorem map_eq_some_iff {o : Option (α × Bytes)} {f : α → β} {y : β} {final : Bytes} :
    o.map (Prod.map f id) = some (y, final) ↔ ∃ x, o = some (x, final) ∧ f x = y := by
  rw [Option.map_eq_some_iff]
  constructor
  · rintro ⟨⟨x, rest⟩, hx, heq⟩
    obtain ⟨rfl, rfl⟩ := Prod.mk.inj heq
    exact ⟨x, hx, rfl⟩
  · rintro ⟨x, hx, rfl⟩
    exact ⟨(x, final), hx, rfl⟩

/-! ### Blanks -/

theorem isBlank_iff {b : UInt8} :
    isBlank b = true ↔
      b = ' '.toUInt8 ∨ b = '\n'.toUInt8 ∨ b = '\t'.toUInt8 ∨ b = '\r'.toUInt8 := by
  simp [isBlank, or_assoc]

theorem encode_blank {c : Char} (h : c = ' ' ∨ c = '\n' ∨ c = '\t' ∨ c = '\r') :
    String.utf8EncodeChar c = [c.toUInt8] ∧ isBlank c.toUInt8 = true := by
  rcases h with rfl | rfl | rfl | rfl
  · decide
  · decide
  · decide
  · decide

theorem exists_blank_of_isBlank {b : UInt8} (h : isBlank b = true) :
    ∃ c : Char, (c = ' ' ∨ c = '\n' ∨ c = '\t' ∨ c = '\r') ∧ String.utf8EncodeChar c = [b] := by
  rcases isBlank_iff.mp h with rfl | rfl | rfl | rfl
  · exact ⟨' ', by decide, by decide⟩
  · exact ⟨'\n', by decide, by decide⟩
  · exact ⟨'\t', by decide, by decide⟩
  · exact ⟨'\r', by decide, by decide⟩

theorem skipBlanks_of_isBlank {b : UInt8} (s : Bytes) (h : isBlank b = true) :
    skipBlanks (b :: s) = skipBlanks s := by
  rw [skipBlanks, List.dropWhile_cons_of_pos h]
  rfl

theorem skipBlanks_of_not_isBlank {b : UInt8} (s : Bytes) (h : isBlank b = false) :
    skipBlanks (b :: s) = b :: s :=
  List.dropWhile_cons_of_neg (by simp [h])

theorem skipBlanks_encode (u : Blanks) (s : Bytes) :
    skipBlanks (encode u.chars ++ s) = skipBlanks s := by
  obtain ⟨chars, hblank⟩ := u
  induction chars with
  | nil => rfl
  | cons c chars ih =>
    obtain ⟨hform, hc⟩ := encode_blank (hblank c List.mem_cons_self)
    rw [encode_cons, hform, List.append_assoc, List.singleton_append, skipBlanks_of_isBlank _ hc]
    exact ih fun c hmem ↦ hblank c (List.mem_cons_of_mem _ hmem)

theorem skipBlanks_encode_cons (u : Blanks) {b : UInt8} (s : Bytes) (h : isBlank b = false) :
    skipBlanks (encode u.chars ++ b :: s) = b :: s := by
  rw [skipBlanks_encode, skipBlanks_of_not_isBlank s h]

def Blanks.none : Blanks :=
  ⟨[], fun _ h ↦ absurd h List.not_mem_nil⟩

/-- What is skipped is blank. -/
theorem exists_blanks (s : Bytes) : ∃ u : Blanks, s = encode u.chars ++ skipBlanks s := by
  induction s with
  | nil => exact ⟨.none, rfl⟩
  | cons b s ih =>
    cases hb : isBlank b with
    | false => exact ⟨.none, (skipBlanks_of_not_isBlank s hb).symm⟩
    | true =>
      obtain ⟨u, hu⟩ := ih
      obtain ⟨c, hc, hform⟩ := exists_blank_of_isBlank hb
      refine ⟨⟨c :: u.chars, List.forall_mem_cons.mpr ⟨hc, u.blank⟩⟩, ?_⟩
      rw [encode_cons, hform, skipBlanks_of_isBlank s hb, List.append_assoc, ← hu]
      rfl

theorem not_isBlank_of_skipBlanks {s rest : Bytes} {b : UInt8} (h : skipBlanks s = b :: rest) :
    isBlank b = false := by
  induction s with
  | nil => simp [skipBlanks] at h
  | cons a s ih =>
    cases ha : isBlank a with
    | false =>
      rw [skipBlanks_of_not_isBlank s ha] at h
      exact (List.cons.inj h).1 ▸ ha
    | true => exact ih (skipBlanks_of_isBlank s ha ▸ h)

/-! ### Words -/

/-- A word is taken off exactly the texts that begin with its letters. -/
theorem word_eq_ok_iff {letters : List Char} (hletters : letters.all (·.toNat < 0x80))
    {s rest : Bytes} : word letters s = .ok rest ↔ s = encode letters ++ rest := by
  induction letters generalizing s with
  | nil => simp [word]
  | cons c letters ih =>
    rw [List.all_cons, Bool.and_eq_true, decide_eq_true_eq] at hletters
    obtain ⟨hc, hmore⟩ := hletters
    rw [encode_cons, utf8EncodeChar_of_lt hc]
    cases s with
    | nil => simp [word]
    | cons b s =>
      rw [word]
      split_ifs with hb
      · simp [ih hmore, hb]
      · simp [hb]

/-! ### Lists -/

section Lists

variable (item : Reader α)

/-- A reader that passes over blanks by itself, and that takes nothing off the end of a list. -/
structure PassesBlanks : Prop where
  skip : ∀ s, outcome (item (skipBlanks s)) = outcome (item s)
  bracket : ∀ s rest, skipBlanks s = ']'.toUInt8 :: rest → outcome (item s) = none

/-- What the elements up to the closing bracket are from behind an element, and what follows the
bracket. -/
inductive ItemsBehind : Bytes → List α → Bytes → Prop
  | stop {s after : Bytes} (hend : skipBlanks s = ']'.toUInt8 :: after) : ItemsBehind s [] after
  | more {s after rest final : Bytes} {x : α} {xs : List α}
      (hcomma : skipBlanks s = ','.toUInt8 :: after) (hitem : outcome (item after) = some (x, rest))
      (h : ItemsBehind rest xs final) : ItemsBehind s (x :: xs) final

variable {item}

theorem PassesBlanks.encode (hitem : PassesBlanks item) (u : Blanks) (s : Bytes) :
    outcome (item (Utf8.encode u.chars ++ s)) = outcome (item s) := by
  rw [← hitem.skip, skipBlanks_encode, hitem.skip]

theorem outcome_of_skipBlanks_eq_nil (hitem : PassesBlanks item) {s : Bytes}
    (h : skipBlanks s = []) : outcome (item s) = none := by
  rw [← hitem.skip, h]
  cases item [] with
  | error e => rfl
  | ok t => exact absurd t.shorter (Nat.not_lt_zero _)

theorem itemsBehind_iff {s final : Bytes} {xs : List α} :
    ItemsBehind item s xs final ↔ skipBlanks s = ']'.toUInt8 :: final ∧ xs = [] ∨
      ∃ after x rest ys, skipBlanks s = ','.toUInt8 :: after ∧
        outcome (item after) = some (x, rest) ∧ ItemsBehind item rest ys final ∧ xs = x :: ys := by
  constructor
  · intro h
    cases h with
    | stop hend => exact Or.inl ⟨hend, rfl⟩
    | more hcomma hitem h => exact Or.inr ⟨_, _, _, _, hcomma, hitem, h, rfl⟩
  · rintro (⟨hend, rfl⟩ | ⟨after, x, rest, ys, hcomma, hitem, h, rfl⟩)
    · exact .stop hend
    · exact .more hcomma hitem h

theorem itemsBehind_blanks_iff (u : Blanks) {s final : Bytes} {xs : List α} :
    ItemsBehind item (Utf8.encode u.chars ++ s) xs final ↔ ItemsBehind item s xs final := by
  rw [itemsBehind_iff, skipBlanks_encode, ← itemsBehind_iff]

theorem itemsBehind_bracket_iff {s after final : Bytes} {xs : List α}
    (h : skipBlanks s = ']'.toUInt8 :: after) :
    ItemsBehind item s xs final ↔ after = final ∧ xs = [] := by
  have hne : ']'.toUInt8 ≠ ','.toUInt8 := by decide
  rw [itemsBehind_iff, h]
  simp [hne]

theorem itemsBehind_comma_iff {s after final : Bytes} {xs : List α}
    (h : skipBlanks s = ','.toUInt8 :: after) :
    ItemsBehind item s xs final ↔ ∃ x rest ys, outcome (item after) = some (x, rest) ∧
      ItemsBehind item rest ys final ∧ xs = x :: ys := by
  have hne : ','.toUInt8 ≠ ']'.toUInt8 := by decide
  rw [itemsBehind_iff, h]
  simp [hne]

theorem not_itemsBehind {s final : Bytes} {xs : List α}
    (hend : ∀ after, skipBlanks s ≠ ']'.toUInt8 :: after)
    (hcomma : ∀ after, skipBlanks s ≠ ','.toUInt8 :: after) : ¬ ItemsBehind item s xs final := by
  rw [itemsBehind_iff]
  simp [hend, hcomma]

theorem outcome_elementsOnto (hitem : PassesBlanks item) {read ys : List α} {s final : Bytes}
    (h : s.length ≤ source.length) :
    outcome (elementsOnto item read s h) = some (ys, final) ↔
      ∃ x rest xs, outcome (item s) = some (x, rest) ∧ ItemsBehind item rest xs final ∧
        ys = read.reverse ++ x :: xs := by
  fun_induction elementsOnto item read s h with
  | case1 read s h e hs => simp [hs]
  | case2 read s h x rest shorter hs hend =>
    simp [hs, not_itemsBehind, hend]
  | case3 read s h x rest shorter hs after hend hlt =>
    simp [hs, itemsBehind_bracket_iff hend, eq_comm, and_comm]
  | case4 read s h x rest shorter hs after hnext hcomma hlt hne =>
    simp [hs, itemsBehind_comma_iff hcomma, outcome_of_skipBlanks_eq_nil hitem hnext]
  | case5 read s h x rest shorter hs after next hcomma hlt hne hnext =>
    simp [hs, itemsBehind_comma_iff hcomma, hitem.bracket after next hnext]
  | case6 read s h x rest shorter hs after c next hnext hlt' hc hcomma hlt hne ih =>
    rw [ih, ← hnext, hitem.skip]
    simp [hs, itemsBehind_comma_iff hcomma, and_assoc]
  | case7 read s h x rest shorter hs c next hnext hlt hend hcomma =>
    simp [hs, not_itemsBehind, hnext, hend, hcomma]

theorem outcome_list (hitem : PassesBlanks item) {xs : List α} {s final : Bytes} :
    outcome (list item s) = some (xs, final) ↔
      skipBlanks s = ']'.toUInt8 :: final ∧ xs = [] ∨
        ∃ x rest ys, outcome (item s) = some (x, rest) ∧ ItemsBehind item rest ys final ∧
          xs = x :: ys := by
  unfold list
  split
  · rename_i hfirst
    simp [hfirst, outcome_of_skipBlanks_eq_nil hitem hfirst]
  · rename_i b rest hfirst
    split_ifs with hb
    · subst hb
      simp [hfirst, hitem.bracket s rest hfirst, eq_comm, and_comm]
    · rw [outcome_elementsOnto hitem, ← hfirst, hitem.skip]
      simp [hfirst, hb]

end Lists

end Intake.Json
