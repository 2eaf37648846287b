import Intake.Proofs.Json.Literal
import Intake.Proofs.Json.Objects

/-!
# Tokens that are cut

If a text is cut behind a token, the token is read off the front as it is read off the whole. If it
is cut within the token, what is found wrong with the front is that it ends (`Agrees`). A reader for
which this holds wherever a text is cut notices cuts (`NoticesCut`). Words, strings and punctuation
do. A number may be a number also where it is cut, but then nothing is left of the front
(`Numeral.runsOut_or_of_read`).
-/

set_option autoImplicit false
set_option relaxedAutoImplicit false

namespace Intake.Json

open Utf8

variable {α : Type} {source : Bytes}

/-- The fault is that the text ends. -/
def Fault.IsEnd (e : Fault) : Prop :=
  ∃ problem : Problem, problem.isEnd = true ∧ e = .here problem []

/-- What is made of a text that was cut. It is what was made of the whole, of which `x` was read in
front of `final`, though without the bytes that were cut off, or else a fault at its end. -/
def Agrees (cut : Bytes) (x : α) (final : Bytes) : Except Fault (Taken source α) → Prop
  | .error e => e.IsEnd
  | .ok t => t.value = x ∧ t.rest ++ cut = final

/-- A reader that notices where a text is cut. -/
def NoticesCut (reader : Reader α) : Prop :=
  ∀ ⦃s cut x final⦄, outcome (reader (s ++ cut)) = some (x, final) →
    Agrees cut x final (reader s)

theorem isEnd_here {problem : Problem} (h : problem.isEnd = true) :
    (Fault.here problem []).IsEnd :=
  ⟨problem, h, rfl⟩

theorem NoticesCut.isEnd {reader : Reader α} (h : NoticesCut reader) {s cut final : Bytes} {x : α}
    {e : Fault} (hwhole : outcome (reader (s ++ cut)) = some (x, final))
    (hfront : reader s = .error e) : e.IsEnd := by
  have hagrees := h hwhole
  rwa [hfront] at hagrees

theorem NoticesCut.eq {reader : Reader α} (h : NoticesCut reader) {s cut final : Bytes} {x : α}
    {t : Taken s α} (hwhole : outcome (reader (s ++ cut)) = some (x, final))
    (hfront : reader s = .ok t) : t.value = x ∧ t.rest ++ cut = final := by
  have hagrees := h hwhole
  rwa [hfront] at hagrees

theorem Agrees.widen {inner cut final : Bytes} {x : α} {result : Except Fault (Taken inner α)}
    (h : Agrees cut x final result) (hinner : inner.length < source.length) :
    Agrees cut x final (result.map (Taken.widen · hinner)) := by
  cases result with
  | error e => exact h
  | ok t => exact h

theorem Agrees.map {β : Type} {cut final : Bytes} {x : α} {result : Except Fault (Taken source α)}
    (h : Agrees cut x final result) (f : α → β) :
    Agrees cut (f x) final (result.map (Taken.map f)) := by
  cases result with
  | error e => exact h
  | ok t => exact ⟨congrArg f h.1, h.2⟩

theorem Agrees.widen_map {β : Type} {inner cut final : Bytes} {x : α}
    {result : Except Fault (Taken inner α)} (h : Agrees cut x final result)
    (hinner : inner.length < source.length) (f : α → β) :
    Agrees cut (f x) final (result.map fun t ↦ (t.widen hinner).map f) := by
  cases result with
  | error e => exact h
  | ok t => exact ⟨congrArg f h.1, h.2⟩

/-! ### Blanks, words and punctuation -/

theorem skipBlanks_append {s rest : Bytes} {b : UInt8} (cut : Bytes)
    (h : skipBlanks s = b :: rest) : skipBlanks (s ++ cut) = b :: (rest ++ cut) := by
  rw [skipBlanks] at h
  rw [skipBlanks, List.dropWhile_append, h]
  rfl

theorem isEnd_or_of_word {letters : List Char} {s cut final : Bytes}
    (h : word letters (s ++ cut) = .ok final) :
    (∃ e, word letters s = .error e ∧ e.IsEnd) ∨
      ∃ rest, word letters s = .ok rest ∧ rest ++ cut = final := by
  induction letters generalizing s with
  | nil => exact Or.inr ⟨s, rfl, Except.ok.inj h⟩
  | cons c letters ih =>
    cases s with
    | nil => exact Or.inl ⟨_, rfl, isEnd_here rfl⟩
    | cons b s =>
      rw [List.cons_append, word] at h
      rw [word]
      split_ifs at h ⊢ with hb
      exact ih h

theorem noticesCut_colon : NoticesCut colon := by
  intro s cut u final h
  have hwhole := outcome_colon_iff.mp h
  unfold colon
  split
  · exact isEnd_here rfl
  · rename_i b rest hs
    obtain ⟨rfl, rfl⟩ := List.cons.inj ((skipBlanks_append cut hs).symm.trans hwhole)
    rw [if_pos rfl]
    exact ⟨rfl, rfl⟩

theorem noticesCut_closing : NoticesCut closing := by
  intro s cut u final h
  have hwhole := outcome_closing_iff.mp h
  unfold closing
  split
  · exact isEnd_here rfl
  · rename_i b rest hs
    obtain ⟨rfl, rfl⟩ := List.cons.inj ((skipBlanks_append cut hs).symm.trans hwhole)
    rw [if_pos rfl]
    exact ⟨rfl, rfl⟩

/-! ### Strings -/

namespace Escape

theorem noticesCut_hexUnit : NoticesCut hexUnit := by
  intro s cut n final h
  match s with
  | [] | [_] | [_, _] | [_, _, _] => exact isEnd_here rfl
  | a :: b :: c :: d :: rest =>
    have hwhole : outcome (hexUnit (a :: b :: c :: d :: (rest ++ cut))) = some (n, final) := h
    rw [hexUnit] at hwhole ⊢
    split at hwhole
    · rename_i m hunit
      obtain ⟨rfl, rfl⟩ := Prod.mk.inj (Option.some_inj.mp hwhole)
      exact ⟨rfl, rfl⟩
    · simp at hwhole

theorem noticesCut_read : NoticesCut read := by
  intro s cut e final h
  cases s with
  | nil => exact isEnd_here rfl
  | cons b rest =>
    rw [List.cons_append] at h
    by_cases hb : b = 'u'.toUInt8
    · subst hb
      rw [outcome_read_unit, map_eq_some_iff] at h
      obtain ⟨n, hn, rfl⟩ := h
      rw [read, short?_u]
      dsimp only
      rw [if_pos rfl]
      exact (noticesCut_hexUnit hn).widen_map _ Escape.unit
    · rw [read] at h ⊢
      cases hshort : short? b with
      | some c =>
        rw [hshort] at h
        obtain ⟨rfl, rfl⟩ := Prod.mk.inj (Option.some_inj.mp h)
        exact ⟨rfl, rfl⟩
      | none =>
        rw [hshort] at h
        simp [hb] at h

theorem noticesCut_lowUnit : NoticesCut lowUnit := by
  intro s cut n final h
  match s with
  | [] => exact isEnd_here rfl
  | [b] =>
    rw [lowUnit]
    split_ifs with hb
    · exact isEnd_here rfl
    · rw [outcome_lowUnit_eq_none (by simp [hb])] at h
      simp at h
  | b :: c :: rest =>
    by_cases hstart : b = '\\'.toUInt8 ∧ c = 'u'.toUInt8
    · obtain ⟨rfl, rfl⟩ := hstart
      rw [List.cons_append, List.cons_append, outcome_lowUnit_unit, Option.filter_eq_some_iff] at h
      obtain ⟨hn, hlow⟩ := h
      rw [lowUnit, if_pos rfl, if_pos rfl]
      cases hunit : hexUnit rest with
      | error fault => exact noticesCut_hexUnit.isEnd hn hunit
      | ok t =>
        obtain ⟨rfl, rfl⟩ := noticesCut_hexUnit.eq hn hunit
        dsimp only at hlow ⊢
        rw [if_pos hlow]
        exact ⟨rfl, rfl⟩
    · rw [outcome_lowUnit_eq_none (by simpa using hstart)] at h
      simp at h

theorem noticesCut_character : NoticesCut character := by
  intro s cut c final h
  rw [outcome_character, Option.bind_eq_some_iff] at h
  obtain ⟨⟨e, behind⟩, hread, h⟩ := h
  unfold character
  cases hfront : read s with
  | error fault => exact noticesCut_read.isEnd hread hfront
  | ok t =>
    obtain ⟨e', rest, shorter⟩ := t
    obtain ⟨rfl, rfl⟩ := noticesCut_read.eq hread hfront
    cases e' with
    | char d =>
      obtain ⟨rfl, rfl⟩ := Prod.mk.inj (Option.some_inj.mp h)
      exact ⟨rfl, rfl⟩
    | unit n =>
      dsimp only at h ⊢
      split_ifs at h ⊢ with hlow hhigh
      · rw [map_eq_some_iff] at h
        obtain ⟨low, hlow, rfl⟩ := h
        cases hfront' : lowUnit rest with
        | error fault => exact noticesCut_lowUnit.isEnd hlow hfront'
        | ok t =>
          obtain ⟨hvalue, hrest⟩ := noticesCut_lowUnit.eq hlow hfront'
          have hagrees : Agrees cut low final (.ok (t.widen shorter)) := ⟨hvalue, hrest⟩
          exact hagrees.map (paired n)
      · obtain ⟨rfl, rfl⟩ := Prod.mk.inj (Option.some_inj.mp h)
        exact ⟨rfl, rfl⟩

end Escape

theorem agrees_bytesOnto (read : Bytes) {s cut bytes final : Bytes}
    (h : s.length ≤ source.length) (hwhole : Unquoted (s ++ cut) bytes final) :
    Agrees cut (read.reverse ++ bytes) final (Quote.bytesOnto source read s h) := by
  fun_induction Quote.bytesOnto source read s h generalizing bytes with
  | case1 read h => exact isEnd_here rfl
  | case2 read s h =>
    rw [List.cons_append, unquoted_cons_iff, if_pos rfl] at hwhole
    obtain ⟨rfl, rfl⟩ := hwhole
    exact ⟨(List.append_nil _).symm, rfl⟩
  | case3 read s e hc h hmark =>
    rw [List.cons_append, unquoted_cons_iff, if_neg hmark, if_pos rfl] at hwhole
    obtain ⟨c, s', more, hwhole, -⟩ := hwhole
    exact Escape.noticesCut_character.isEnd hwhole hc
  | case4 read s c s' hshorter hc h hmark _ ih =>
    rw [List.cons_append, unquoted_cons_iff, if_neg hmark, if_pos rfl] at hwhole
    obtain ⟨d, behind, more, hwhole, hmore, rfl⟩ := hwhole
    obtain ⟨rfl, rfl⟩ := Escape.noticesCut_character.eq hwhole hc
    have hagrees := ih hmore
    have hread : ((String.utf8EncodeChar c).reverseAux read).reverse =
        read.reverse ++ String.utf8EncodeChar c := by
      rw [List.reverseAux_eq, List.reverse_append, List.reverse_reverse]
    rwa [hread, List.append_assoc] at hagrees
  | case5 read b s h hmark hescape hcontrol =>
    rw [List.cons_append, unquoted_cons_iff, if_neg hmark, if_neg hescape] at hwhole
    exact absurd hcontrol hwhole.1
  | case6 read b s h hmark hescape hcontrol _ ih =>
    rw [List.cons_append, unquoted_cons_iff, if_neg hmark, if_neg hescape] at hwhole
    obtain ⟨-, more, hmore, rfl⟩ := hwhole
    have hagrees := ih hmore
    rwa [List.reverse_cons, List.append_assoc] at hagrees

theorem noticesCut_quote : NoticesCut Quote.read := by
  intro s cut text final h
  have hagrees := agrees_bytesOnto [] (length_le_self s) (outcome_quote_read.mp h)
  unfold Quote.read
  cases hfront : Quote.bytesOnto s [] s (length_le_self s) with
  | error e =>
    rw [hfront] at hagrees
    exact hagrees
  | ok t =>
    obtain ⟨bytes, rest, shorter⟩ := t
    rw [hfront] at hagrees
    obtain ⟨rfl, rfl⟩ := hagrees
    have hformed : wellFormed ([].reverse ++ encode text.toList) = (text.toList, []) :=
      wellFormed_eq_iff.mpr rfl
    dsimp only
    rw [hformed]
    exact ⟨String.ofList_toList, rfl⟩

theorem noticesCut_stringFor (expected : String) : NoticesCut (stringFor expected) := by
  intro s cut text final h
  obtain ⟨after, hafter, hread⟩ := outcome_stringFor_iff.mp h
  unfold stringFor
  split
  · exact isEnd_here rfl
  · rename_i b rest hs
    obtain ⟨rfl, rfl⟩ := List.cons.inj ((skipBlanks_append cut hs).symm.trans hafter)
    rw [if_pos rfl]
    exact (noticesCut_quote hread).widen _

/-! ### Numbers -/

namespace Numeral

/-- Nothing is left of a text, be it behind something or where something is missing. -/
def RunsOut {β : Type} : Except Broken (β × Bytes) → Prop
  | .error broken => broken.rest = []
  | .ok (_, rest) => rest = []

theorem exists_of_runsOut {β : Type} {result : Except Broken (β × Bytes)} (h : RunsOut result) :
    (∃ broken, result = .error broken ∧ broken.rest = []) ∨ ∃ x, result = .ok (x, []) := by
  cases result with
  | error broken => exact Or.inl ⟨broken, rfl, h⟩
  | ok part => exact Or.inr ⟨part.1, congrArg Except.ok (Prod.ext rfl h)⟩

theorem digitsOnto_append (read : List Digit) (s cut : Bytes) :
    (digitsOnto read s).2 = [] ∧ (digitsOnto read s).1 <+: (digitsOnto read (s ++ cut)).1 ∨
      digitsOnto read (s ++ cut) = ((digitsOnto read s).1, (digitsOnto read s).2 ++ cut) := by
  induction s generalizing read with
  | nil =>
    obtain ⟨more, hmore, -⟩ := exists_of_digitsOnto (Prod.eta (digitsOnto read cut)).symm
    exact Or.inl ⟨rfl, more, hmore.symm⟩
  | cons b s ih =>
    rw [List.cons_append, digitsOnto, digitsOnto]
    cases Digit.ofByte? b with
    | some d => exact ih (d :: read)
    | none => exact Or.inr rfl

/-- Digits are missing, there are fewer of them, or they are the same. -/
theorem digits_append {taken : Bool} {s cut final : Bytes} {ds : Digits}
    (h : digits taken (s ++ cut) = .ok (ds, final)) :
    digits taken s = .error ⟨[], taken⟩ ∨
      (∃ more, digits taken s = .ok (⟨ds.first, more⟩, []) ∧ more <+: ds.more) ∨
      ∃ rest, digits taken s = .ok (ds, rest) ∧ rest ++ cut = final := by
  cases s with
  | nil => exact Or.inl rfl
  | cons b s =>
    rw [List.cons_append, digits] at h
    rw [digits]
    cases hb : Digit.ofByte? b with
    | none => simp [hb] at h
    | some first =>
      rw [hb] at h
      obtain ⟨rfl, rfl⟩ := Prod.mk.inj (Except.ok.inj h)
      obtain ⟨hrest, hmore⟩ | hsame := digitsOnto_append [] s cut
      · have hfront : digitsOnto [] s = ((digitsOnto [] s).1, []) := Prod.ext rfl hrest
        refine Or.inr (Or.inl ⟨(digitsOnto [] s).1, ?_, hmore⟩)
        dsimp only
        rw [hfront]
      · refine Or.inr (Or.inr ⟨(digitsOnto [] s).2, ?_, ?_⟩)
        · rw [hsame]
        · rw [hsame]

theorem runsOut_or_of_digits {β : Type} {taken : Bool} {s cut final : Bytes} {ds : Digits}
    (f : Digits → β) (h : digits taken (s ++ cut) = .ok (ds, final)) :
    RunsOut ((digits taken s).map fun (ds, rest) ↦ (f ds, rest)) ∨
      ∃ rest, ((digits taken s).map fun (ds, rest) ↦ (f ds, rest)) = .ok (f ds, rest) ∧
        rest ++ cut = final := by
  obtain hnone | ⟨more, hfewer, -⟩ | ⟨rest, hsame, hrest⟩ := digits_append h
  · rw [hnone]
    exact Or.inl rfl
  · rw [hfewer]
    exact Or.inl rfl
  · rw [hsame]
    exact Or.inr ⟨rest, rfl, hrest⟩

theorem runsOut_or_of_fractionPart {s cut final : Bytes} {fraction : Option Digits}
    (h : fractionPart (s ++ cut) = .ok (fraction, final)) :
    RunsOut (fractionPart s) ∨ ∃ rest, fractionPart s = .ok (fraction, rest) ∧
      rest ++ cut = final := by
  cases s with
  | nil => exact Or.inl rfl
  | cons b s =>
    rw [List.cons_append, fractionPart] at h
    rw [fractionPart]
    split_ifs at h ⊢ with hb
    · obtain ⟨⟨ds, behind⟩, hds, heq⟩ := map_eq_ok.mp h
      obtain ⟨rfl, rfl⟩ := Prod.mk.inj heq
      exact runsOut_or_of_digits some hds
    · obtain ⟨rfl, rfl⟩ := Prod.mk.inj (Except.ok.inj h)
      exact Or.inr ⟨_, rfl, rfl⟩

theorem sign_append (b : UInt8) (s cut : Bytes) :
    sign (b :: s ++ cut) = ((sign (b :: s)).1, (sign (b :: s)).2 ++ cut) := by
  rw [List.cons_append, sign, sign]
  split_ifs with hb
  · rfl
  · rfl

theorem exponentSign_append (b : UInt8) (s cut : Bytes) :
    exponentSign (b :: s ++ cut) =
      ((exponentSign (b :: s)).1, (exponentSign (b :: s)).2 ++ cut) := by
  rw [List.cons_append, exponentSign, exponentSign]
  split_ifs with hb
  · rfl
  · exact sign_append b s cut

theorem runsOut_or_of_exponentPart {s cut final : Bytes} {exponent : Option Exponent}
    (h : exponentPart (s ++ cut) = .ok (exponent, final)) :
    RunsOut (exponentPart s) ∨ ∃ rest, exponentPart s = .ok (exponent, rest) ∧
      rest ++ cut = final := by
  cases s with
  | nil => exact Or.inl rfl
  | cons b s =>
    rw [List.cons_append, exponentPart] at h
    rw [exponentPart]
    split_ifs at h ⊢ with hb
    · cases s with
      | nil => exact Or.inl rfl
      | cons c s =>
        rw [exponentSign_append] at h
        obtain ⟨⟨ds, behind⟩, hds, heq⟩ := map_eq_ok.mp h
        obtain ⟨rfl, rfl⟩ := Prod.mk.inj heq
        exact runsOut_or_of_digits (fun ds ↦ some (Exponent.mk (exponentSign (c :: s)).1 ds)) hds
    · obtain ⟨rfl, rfl⟩ := Prod.mk.inj (Except.ok.inj h)
      exact Or.inr ⟨_, rfl, rfl⟩

theorem read_eq_ok_iff {s final : Bytes} {n : Numeral} :
    read s = .ok (n, final) ↔ ∃ whole s₁ fraction s₂ exponent,
      ∃ hzero : whole.first = 0 → whole.more = [], digits true (sign s).2 = .ok (whole, s₁) ∧
        fractionPart s₁ = .ok (fraction, s₂) ∧ exponentPart s₂ = .ok (exponent, final) ∧
          n = ⟨(sign s).1, whole, fraction, exponent, hzero⟩ := by
  constructor
  · intro h
    simp only [read] at h
    split at h
    · simp at h
    rename_i whole s₁ hwhole
    split_ifs at h with hzero
    split at h
    · simp at h
    rename_i fraction s₂ hfraction
    split at h
    · simp at h
    rename_i exponent s₃ hexponent
    obtain ⟨rfl, rfl⟩ := Prod.mk.inj (Except.ok.inj h)
    exact ⟨whole, s₁, fraction, s₂, exponent, hzero, hwhole, hfraction, hexponent, rfl⟩
  · rintro ⟨whole, s₁, fraction, s₂, exponent, hzero, hwhole, hfraction, hexponent, rfl⟩
    simp only [read, hwhole, hfraction, hexponent]
    rw [dif_pos hzero]

/-- A number that is cut is the same number, or the text runs out in it. -/
theorem runsOut_or_of_read {s cut final : Bytes} {n : Numeral}
    (h : read (s ++ cut) = .ok (n, final)) :
    RunsOut (read s) ∨ ∃ rest, read s = .ok (n, rest) ∧ rest ++ cut = final := by
  cases s with
  | nil => exact Or.inl rfl
  | cons b s =>
    obtain ⟨whole, s₁, fraction, s₂, exponent, hzero, hwhole, hfraction, hexponent, rfl⟩ :=
      read_eq_ok_iff.mp h
    simp only [sign_append] at hwhole ⊢
    obtain hnone | ⟨more, hfewer, hmore⟩ | ⟨rest₁, hdigits, rfl⟩ := digits_append hwhole
    · refine Or.inl ?_
      simp only [read, hnone]
      rfl
    · -- Fewer digits behind a zero are none, as there are none in the whole text.
      have hzero' : whole.first = 0 → more = [] := fun hfirst ↦
        List.prefix_nil.mp (hzero hfirst ▸ hmore)
      have hread : read (b :: s) = .ok (⟨_, ⟨whole.first, more⟩, none, none, hzero'⟩, []) :=
        read_eq_ok_iff.mpr ⟨_, _, _, _, _, hzero', hfewer, rfl, rfl, rfl⟩
      rw [hread]
      exact Or.inl rfl
    obtain hout | ⟨rest₂, hpoint, rfl⟩ := runsOut_or_of_fractionPart hfraction
    · refine Or.inl ?_
      obtain ⟨broken, hpoint, hbroken⟩ | ⟨front, hpoint⟩ := exists_of_runsOut hout
      · simp only [read, hdigits, hpoint]
        rwa [dif_pos hzero]
      · rw [read_eq_ok_iff.mpr ⟨_, _, _, _, _, hzero, hdigits, hpoint, rfl, rfl⟩]
        rfl
    obtain hout | ⟨rest₃, hletter, rfl⟩ := runsOut_or_of_exponentPart hexponent
    · refine Or.inl ?_
      obtain ⟨broken, hletter, hbroken⟩ | ⟨front, hletter⟩ := exists_of_runsOut hout
      · simp only [read, hdigits, hpoint, hletter]
        rwa [dif_pos hzero]
      · rw [read_eq_ok_iff.mpr ⟨_, _, _, _, _, hzero, hdigits, hpoint, hletter, rfl⟩]
        rfl
    exact Or.inr ⟨rest₃, read_eq_ok_iff.mpr
      ⟨whole, rest₁, fraction, rest₂, exponent, hzero, hdigits, hpoint, hletter, rfl⟩, rfl⟩

end Numeral

end Intake.Json
