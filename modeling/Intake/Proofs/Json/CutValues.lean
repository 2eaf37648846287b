import Intake.Proofs.Json.CutTokens
import Intake.Proofs.Json.Document

/-!
# Values that are cut

A list or an object that is cut is found to end too early, as is every other value but a number
(`noticesCutWithin_valueIn`). A number that is taken up to the cut has nothing behind it, and what
it stands in is found to end there. So a list that has to stand in a text is found to be cut
wherever that is done (`noticesCut_listFor`).
-/

set_option autoImplicit false
set_option relaxedAutoImplicit false

namespace Intake.Json

open Utf8

variable {α : Type} {source : Bytes} {item : Reader α}

/-- A reader that notices where a text is cut if it does not take all there is in front of the
cut. -/
def NoticesCutWithin (reader : Reader α) : Prop :=
  ∀ ⦃s cut x final⦄, outcome (reader (s ++ cut)) = some (x, final) →
    Agrees cut x final (reader s) ∨ ∃ t, reader s = .ok t ∧ t.rest = []

theorem NoticesCutWithin.isEnd (h : NoticesCutWithin item) {s cut final : Bytes} {x : α} {e : Fault}
    (hwhole : outcome (item (s ++ cut)) = some (x, final)) (hfront : item s = .error e) :
    e.IsEnd := by
  obtain hagrees | ⟨t, ht, -⟩ := h hwhole
  · rwa [hfront] at hagrees
  · exact absurd (hfront.symm.trans ht) (by simp)

theorem NoticesCutWithin.eq (h : NoticesCutWithin item) {s cut final : Bytes} {x : α}
    {t : Taken s α} (hwhole : outcome (item (s ++ cut)) = some (x, final))
    (hfront : item s = .ok t) (hrest : skipBlanks t.rest ≠ []) :
    t.value = x ∧ t.rest ++ cut = final := by
  obtain hagrees | ⟨t', ht, hnil⟩ := h hwhole
  · rwa [hfront] at hagrees
  · obtain rfl := Except.ok.inj (hfront.symm.trans ht)
    rw [hnil] at hrest
    exact absurd rfl hrest

/-! ### Lists -/

theorem agrees_elementsOnto (hitem : PassesBlanks item) (hcut : NoticesCutWithin item)
    (read : List α) {s cut final : Bytes} {x : α} {xs : List α} {behind : Bytes}
    (h : s.length ≤ source.length) (hfirst : outcome (item (s ++ cut)) = some (x, behind))
    (hmore : ItemsBehind item behind xs final) :
    Agrees cut (read.reverse ++ x :: xs) final (elementsOnto item read s h) := by
  -- Wherever something follows the element, the element is the same in the whole text: only one
  -- that is taken up to the cut can be another, and there the list is found to end.
  fun_induction elementsOnto item read s h generalizing x xs behind with
  | case1 read s h e hs => exact hcut.isEnd hfirst hs
  | case2 read s h y rest shorter hs hend => exact isEnd_here rfl
  | case3 read s h y rest shorter hs after hend hlt =>
    obtain ⟨rfl, rfl⟩ := hcut.eq hfirst hs (by simp [hend])
    obtain ⟨rfl, rfl⟩ := (itemsBehind_bracket_iff (skipBlanks_append cut hend)).mp hmore
    exact ⟨List.reverse_cons, rfl⟩
  | case4 read s h y rest shorter hs after hnext hcomma hlt hne => exact isEnd_here rfl
  | case5 read s h y rest shorter hs after next hcomma hlt hne hnext =>
    obtain ⟨rfl, rfl⟩ := hcut.eq hfirst hs (by simp [hcomma])
    obtain ⟨z, rest', zs, hz, -, -⟩ :=
      (itemsBehind_comma_iff (skipBlanks_append cut hcomma)).mp hmore
    rw [hitem.bracket _ _ (skipBlanks_append cut hnext)] at hz
    simp at hz
  | case6 read s h y rest shorter hs after c next hnext hlt' hc hcomma hlt hne ih =>
    obtain ⟨rfl, rfl⟩ := hcut.eq hfirst hs (by simp [hcomma])
    obtain ⟨z, rest', zs, hz, hzs, rfl⟩ :=
      (itemsBehind_comma_iff (skipBlanks_append cut hcomma)).mp hmore
    rw [← hitem.skip, skipBlanks_append cut hnext] at hz
    have hagrees := ih hz hzs
    rwa [List.reverse_cons, List.append_assoc] at hagrees
  | case7 read s h y rest shorter hs c next hnext hlt hend hcomma =>
    obtain ⟨rfl, rfl⟩ := hcut.eq hfirst hs (by simp [hnext])
    have hwhole := skipBlanks_append cut hnext
    exact absurd hmore (not_itemsBehind (by simp [hwhole, hend]) (by simp [hwhole, hcomma]))

theorem noticesCut_list (hitem : PassesBlanks item) (hcut : NoticesCutWithin item) :
    NoticesCut (list item) := by
  intro s cut xs final h
  unfold list
  split
  · exact isEnd_here rfl
  · rename_i b rest hs
    obtain ⟨hend, rfl⟩ | ⟨x, behind, ys, hx, hys, rfl⟩ := (outcome_list hitem).mp h
    · obtain ⟨rfl, rfl⟩ := List.cons.inj ((skipBlanks_append cut hs).symm.trans hend)
      rw [if_pos rfl]
      exact ⟨rfl, rfl⟩
    · have hb : b ≠ ']'.toUInt8 := by
        rintro rfl
        rw [hitem.bracket _ _ (skipBlanks_append cut hs)] at hx
        simp at hx
      rw [if_neg hb]
      rw [← hitem.skip, skipBlanks_append cut hs] at hx
      exact agrees_elementsOnto hitem hcut [] _ hx hys

theorem noticesCut_listFor (hitem : PassesBlanks item) (hcut : NoticesCutWithin item) :
    NoticesCut (listFor item) := by
  intro s cut xs final h
  obtain ⟨after, hafter, hlist⟩ := outcome_listFor_iff.mp h
  unfold listFor
  split
  · exact isEnd_here rfl
  · rename_i b rest hs
    obtain ⟨rfl, rfl⟩ := List.cons.inj ((skipBlanks_append cut hs).symm.trans hafter)
    rw [if_pos rfl]
    exact (noticesCut_list hitem hcut hlist).widen _

/-! ### Objects -/

theorem isEnd_of_valued {s cut behind : Bytes} {x : α} {e : Fault}
    (h : Valued item (s ++ cut) x behind) (hcolon : colon s = .error e) : e.IsEnd := by
  obtain ⟨after, hafter, -⟩ := h
  exact noticesCut_colon.isEnd (outcome_colon_iff (u := ()).mpr hafter) hcolon

theorem outcome_of_valued {s cut behind : Bytes} {x : α} {t : Taken s Unit}
    (h : Valued item (s ++ cut) x behind) (hcolon : colon s = .ok t) :
    outcome (item (t.rest ++ cut)) = some (x, behind) := by
  obtain ⟨after, hafter, hitem⟩ := h
  obtain ⟨-, rfl⟩ := noticesCut_colon.eq (outcome_colon_iff (u := ()).mpr hafter) hcolon
  exact hitem

theorem agrees_membersOnto (hcut : NoticesCutWithin item) (read : List (String × α))
    {key : String} {s cut final : Bytes} {x : α} {entries : List (String × α)} {behind : Bytes}
    (h : s.length ≤ source.length) (hfirst : Valued item (s ++ cut) x behind)
    (hmore : MembersBehind item behind entries final) :
    Agrees cut (read.reverse ++ (key, x) :: entries) final (membersOnto item read key s h) := by
  fun_induction membersOnto item read key s h generalizing x entries behind with
  | case1 read key s h e hcolon => exact isEnd_of_valued hfirst hcolon
  | case2 read key s h _ s₁ h₁ hcolon e hitem =>
    exact hcut.isEnd (outcome_of_valued hfirst hcolon) hitem
  | case3 read key s h _ s₁ h₁ hcolon y s₂ h₂ hitem hend => exact isEnd_here rfl
  | case4 read key s h _ s₁ h₁ hcolon y s₂ h₂ hitem s₃ hend h₃ =>
    obtain ⟨rfl, rfl⟩ := hcut.eq (outcome_of_valued hfirst hcolon) hitem (by simp [hend])
    obtain ⟨rfl, rfl⟩ := (membersBehind_brace_iff (skipBlanks_append cut hend)).mp hmore
    exact ⟨List.reverse_cons, rfl⟩
  | case5 read key s h _ s₁ h₁ hcolon y s₂ h₂ hitem s₃ hnext hcomma => exact isEnd_here rfl
  | case6 read key s h _ s₁ h₁ hcolon y s₂ h₂ hitem s₃ s₄ e hkey hcomma hlt hne hmark =>
    obtain ⟨rfl, rfl⟩ := hcut.eq (outcome_of_valued hfirst hcolon) hitem (by simp [hcomma])
    obtain ⟨s₂', next, s₃', z, s₄', more, hmark', hkey', -⟩ :=
      (membersBehind_comma_iff (skipBlanks_append cut hcomma)).mp hmore
    obtain ⟨-, rfl⟩ := List.cons.inj ((skipBlanks_append cut hmark).symm.trans hmark')
    exact noticesCut_quote.isEnd hkey' hkey
  | case7 read key s h _ s₁ h₁ hcolon y s₂ h₂ hitem s₃ s₄ next s₅ h₅ hkey hcomma hlt hne hmark hlt'
      ih =>
    obtain ⟨rfl, rfl⟩ := hcut.eq (outcome_of_valued hfirst hcolon) hitem (by simp [hcomma])
    obtain ⟨s₂', next', s₃', z, s₄', more, hmark', hkey', hvalued, hmore', rfl⟩ :=
      (membersBehind_comma_iff (skipBlanks_append cut hcomma)).mp hmore
    obtain ⟨-, rfl⟩ := List.cons.inj ((skipBlanks_append cut hmark).symm.trans hmark')
    obtain ⟨rfl, rfl⟩ := noticesCut_quote.eq hkey' hkey
    have hagrees := ih hvalued hmore'
    rwa [List.reverse_cons, List.append_assoc] at hagrees
  | case8 read key s h _ s₁ h₁ hcolon y s₂ h₂ hitem s₃ s₄ hcomma hlt hne hmark =>
    obtain ⟨rfl, rfl⟩ := hcut.eq (outcome_of_valued hfirst hcolon) hitem (by simp [hcomma])
    obtain ⟨s₂', next, s₃', z, s₄', more, hmark', -⟩ :=
      (membersBehind_comma_iff (skipBlanks_append cut hcomma)).mp hmore
    obtain ⟨hne', -⟩ := List.cons.inj ((skipBlanks_append cut hmark).symm.trans hmark')
    exact absurd hne' mark_ne_brace.symm
  | case9 read key s h _ s₁ h₁ hcolon y s₂ h₂ hitem s₃ b s₄ hmark hlt hb hbrace hcomma =>
    obtain ⟨rfl, rfl⟩ := hcut.eq (outcome_of_valued hfirst hcolon) hitem (by simp [hcomma])
    obtain ⟨s₂', next, s₃', z, s₄', more, hmark', -⟩ :=
      (membersBehind_comma_iff (skipBlanks_append cut hcomma)).mp hmore
    obtain ⟨hb', -⟩ := List.cons.inj ((skipBlanks_append cut hmark).symm.trans hmark')
    exact absurd hb' hb
  | case10 read key s h _ s₁ h₁ hcolon y s₂ h₂ hitem b s₃ hend hlt hbrace hcomma =>
    obtain ⟨rfl, rfl⟩ := hcut.eq (outcome_of_valued hfirst hcolon) hitem (by simp [hend])
    have hwhole := skipBlanks_append cut hend
    exact absurd hmore (not_membersBehind (by simp [hwhole, hbrace]) (by simp [hwhole, hcomma]))

theorem noticesCut_soleMember (expected : String) (meaning : Bytes → Except Error Value) :
    NoticesCut (soleMember expected meaning) := by
  intro s cut v final h
  rw [outcome_soleMember, Option.bind_eq_some_iff] at h
  obtain ⟨⟨_, s₁'⟩, hcolon', h⟩ := h
  obtain ⟨⟨text', s₂'⟩, htext', h⟩ := Option.bind_eq_some_iff.mp h
  obtain ⟨v', hmeaning', h⟩ := Option.bind_eq_some_iff.mp h
  obtain ⟨⟨_, s₃'⟩, hclosing', heq⟩ := Option.map_eq_some_iff.mp h
  obtain ⟨rfl, rfl⟩ := Prod.mk.inj heq
  unfold soleMember
  cases hcolon : colon s with
  | error e => exact noticesCut_colon.isEnd hcolon' hcolon
  | ok c =>
    obtain ⟨_, s₁, h₁⟩ := c
    obtain ⟨-, rfl⟩ := noticesCut_colon.eq hcolon' hcolon
    dsimp only
    cases htext : stringFor expected s₁ with
    | error e => exact (noticesCut_stringFor expected).isEnd htext' htext
    | ok t =>
      obtain ⟨text, s₂, h₂⟩ := t
      obtain ⟨rfl, rfl⟩ := (noticesCut_stringFor expected).eq htext' htext
      dsimp only at hmeaning' ⊢
      rw [toOption_eq_some_iff] at hmeaning'
      rw [hmeaning']
      cases hclosing : closing s₂ with
      | error e => exact noticesCut_closing.isEnd hclosing' hclosing
      | ok e =>
        obtain ⟨-, rfl⟩ := noticesCut_closing.eq hclosing' hclosing
        exact ⟨rfl, rfl⟩

section Values

variable {embedded : Bytes → Except Error Value}

theorem noticesCut_object {item : Reader Value} (hcut : NoticesCutWithin item) :
    NoticesCut (object embedded item) := by
  intro s cut v final h
  unfold object
  split
  · exact isEnd_here rfl
  · rename_i b rest hs
    have hwhole := skipBlanks_append cut hs
    split_ifs with hbrace hmark
    · subst hbrace
      rw [outcome_object_brace hwhole] at h
      obtain ⟨rfl, rfl⟩ := Prod.mk.inj (Option.some_inj.mp h)
      exact ⟨rfl, rfl⟩
    · subst hmark
      obtain ⟨key', behind, hkey', hkeyed⟩ := (outcome_object_mark_iff hwhole).mp h
      cases hkey : Quote.read rest with
      | error e => exact noticesCut_quote.isEnd hkey' hkey
      | ok t =>
        obtain ⟨key, after, shorter⟩ := t
        obtain ⟨rfl, rfl⟩ := noticesCut_quote.eq hkey' hkey
        dsimp only at hkeyed ⊢
        split_ifs with hnumber htext
        · subst hnumber
          rw [keyed_of_apart apartOf_numberKey] at hkeyed
          exact (noticesCut_soleMember _ _ (outcome_soleMember_iff.mpr hkeyed)).widen _
        · subst htext
          rw [keyed_of_apart apartOf_textKey] at hkeyed
          exact (noticesCut_soleMember _ _ (outcome_soleMember_iff.mpr hkeyed)).widen _
        · rw [keyed_of_not_apart (apartOf_eq_none_iff.mpr ⟨hnumber, htext⟩)] at hkeyed
          obtain ⟨x, rest, entries, hvalued, hmembers, rfl⟩ := hkeyed
          exact (agrees_membersOnto hcut [] _ hvalued hmembers).map Value.ofMembers
    · rw [outcome_object_eq_none (by simp [hwhole, hbrace]) (by simp [hwhole, hmark])] at h
      simp at h

theorem agrees_constant {letters : List Char} {s cut final : Bytes} {v x : Value}
    (hwhole : (word letters (s ++ cut)).toOption.map (v, ·) = some (x, final))
    (h : s.length < source.length) : Agrees cut x final (constant v letters s h) := by
  obtain ⟨final', hword, heq⟩ := Option.map_eq_some_iff.mp hwhole
  obtain ⟨rfl, rfl⟩ := Prod.mk.inj heq
  unfold constant
  obtain ⟨e, he, hend⟩ | ⟨rest, hrest, rfl⟩ := isEnd_or_of_word (toOption_eq_some_iff.mp hword)
  · split
    · rename_i e' he'
      obtain rfl := Except.error.inj (he.symm.trans he')
      exact hend
    · rename_i hok
      exact absurd (he.symm.trans hok) (by simp)
  · split
    · rename_i e' he'
      exact absurd (hrest.symm.trans he') (by simp)
    · rename_i rest' hrest'
      obtain rfl := Except.ok.inj (hrest.symm.trans hrest')
      exact ⟨rfl, rfl⟩

theorem isEnd_of_runsOut {s : Bytes} {broken : Broken} (h : Numeral.read s = .error broken)
    (hout : Numeral.RunsOut (Numeral.read s)) : broken.fault.IsEnd := by
  rw [h] at hout
  obtain ⟨rest, taken⟩ := broken
  obtain rfl : rest = [] := hout
  exact isEnd_here rfl

theorem noticesCutWithin_valueOf {inner : Option (Reader Value)}
    (hpass : ∀ item ∈ inner, PassesBlanks item) (hcut : ∀ item ∈ inner, NoticesCutWithin item) :
    NoticesCutWithin (valueOf embedded inner) := by
  intro s cut v final h
  unfold valueOf
  split
  · exact Or.inl (isEnd_here rfl)
  · rename_i b rest hs
    rw [outcome_valueOf inner (skipBlanks_append cut hs)] at h
    split_ifs at h ⊢ with hn ht hf hnumber hstring hlist hobject
    · exact Or.inl (agrees_constant h _)
    · exact Or.inl (agrees_constant h _)
    · exact Or.inl (agrees_constant h _)
    · obtain ⟨⟨n, behind⟩, hread, heq⟩ := Option.map_eq_some_iff.mp h
      obtain ⟨rfl, rfl⟩ := Prod.mk.inj heq
      have hnumeral := Numeral.runsOut_or_of_read (s := b :: rest)
        (toOption_eq_some_iff.mp hread)
      -- The one kind of value whose front may be a value too, as 1 is of 12.
      split
      · rename_i broken hbroken
        obtain hout | ⟨more, hmore, -⟩ := hnumeral
        · exact Or.inl (isEnd_of_runsOut hbroken hout)
        · exact absurd (hbroken.symm.trans hmore) (by simp)
      · rename_i m after hafter
        obtain hout | ⟨more, hmore, rfl⟩ := hnumeral
        · rw [hafter] at hout
          exact Or.inr ⟨_, rfl, hout⟩
        · obtain ⟨rfl, rfl⟩ := Prod.mk.inj (Except.ok.inj (hafter.symm.trans hmore))
          exact Or.inl ⟨rfl, rfl⟩
    · obtain ⟨text, htext, rfl⟩ := map_eq_some_iff.mp h
      exact Or.inl ((noticesCut_quote htext).widen_map _ Value.string)
    · obtain ⟨item, rfl, h⟩ := Option.bind_eq_some_iff.mp h
      obtain ⟨xs, hxs, rfl⟩ := map_eq_some_iff.mp h
      exact Or.inl ((noticesCut_list (hpass item rfl) (hcut item rfl) hxs).widen_map _ Value.list)
    · obtain ⟨item, rfl, h⟩ := Option.bind_eq_some_iff.mp h
      exact Or.inl ((noticesCut_object (hcut item rfl) h).widen _)

theorem noticesCutWithin_valueIn (d : Nat) : NoticesCutWithin (valueIn embedded d) := by
  induction d with
  | zero => exact noticesCutWithin_valueOf (by simp) (by simp)
  | succ d ih =>
    refine noticesCutWithin_valueOf ?_ ?_
    · rintro item ⟨⟩
      exact passesBlanks_valueIn d
    · rintro item ⟨⟩
      exact ih

end Values

end Intake.Json
