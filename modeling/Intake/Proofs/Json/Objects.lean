import Intake.Json.Value.Reader
import Intake.Proofs.Json.Quoted

/-!
# Reading an object

What an object is taken for depends on its first key. `apartOf` gives the two keys that are set
apart and what the text means that is held under one of them. Every other object is the list of its
members (`outcome_membersOnto`), put in the order of their keys (`outcome_object_mark_iff`).
-/

set_option autoImplicit false
set_option relaxedAutoImplicit false

namespace Intake.Json

open Utf8

variable {α : Type} {source : Bytes}

theorem comma_ne_brace : ','.toUInt8 ≠ '\x7d'.toUInt8 := by decide

theorem brace_ne_comma : '\x7d'.toUInt8 ≠ ','.toUInt8 := by decide

theorem mark_ne_brace : '"'.toUInt8 ≠ '\x7d'.toUInt8 := by decide

theorem outcome_colon_iff {s rest : Bytes} {u : Unit} :
    outcome (colon s) = some (u, rest) ↔ skipBlanks s = ':'.toUInt8 :: rest := by
  unfold colon
  split
  · simp [*]
  · rename_i b after h
    split_ifs with hb
    · simp [h, hb]
    · simp [h, hb]

theorem outcome_closing_iff {s rest : Bytes} {u : Unit} :
    outcome (closing s) = some (u, rest) ↔ skipBlanks s = '\x7d'.toUInt8 :: rest := by
  unfold closing
  split
  · simp [*]
  · rename_i b after h
    split_ifs with hb
    · simp [h, hb]
    · simp [h, hb]
    · simp [h, hb]

theorem outcome_stringFor_iff {expected : String} {s rest : Bytes} {text : String} :
    outcome (stringFor expected s) = some (text, rest) ↔
      ∃ after, skipBlanks s = '"'.toUInt8 :: after ∧
        outcome (Quote.read after) = some (text, rest) := by
  unfold stringFor
  split
  · simp [*]
  · rename_i b after h
    split_ifs with hb
    · rw [outcome_map_widen]
      simp [h, hb]
    · simp [h, hb]

theorem outcome_listFor_iff {item : Reader α} {s rest : Bytes} {xs : List α} :
    outcome (listFor item s) = some (xs, rest) ↔
      ∃ after, skipBlanks s = '['.toUInt8 :: after ∧
        outcome (list item after) = some (xs, rest) := by
  unfold listFor
  split
  · simp [*]
  · rename_i b after h
    split_ifs with hb
    · rw [outcome_map_widen]
      simp [h, hb]
    · simp [h, hb]

/-! ### Members -/

section Members

variable (item : Reader α)

/-- A member from behind its key, and what follows it. -/
def Valued (s : Bytes) (x : α) (rest : Bytes) : Prop :=
  ∃ after, skipBlanks s = ':'.toUInt8 :: after ∧ outcome (item after) = some (x, rest)

/-- What the members up to the closing brace are from behind a member, and what follows the
brace. -/
inductive MembersBehind : Bytes → List (String × α) → Bytes → Prop
  | stop {s after : Bytes} (hend : skipBlanks s = '\x7d'.toUInt8 :: after) :
    MembersBehind s [] after
  | more {s s₁ s₂ s₃ s₄ final : Bytes} {key : String} {x : α} {entries : List (String × α)}
      (hcomma : skipBlanks s = ','.toUInt8 :: s₁) (hmark : skipBlanks s₁ = '"'.toUInt8 :: s₂)
      (hkey : outcome (Quote.read s₂) = some (key, s₃)) (hvalue : Valued item s₃ x s₄)
      (h : MembersBehind s₄ entries final) : MembersBehind s ((key, x) :: entries) final

variable {item}

theorem membersBehind_iff {s final : Bytes} {entries : List (String × α)} :
    MembersBehind item s entries final ↔
      skipBlanks s = '\x7d'.toUInt8 :: final ∧ entries = [] ∨
      ∃ s₁ s₂ key s₃ x s₄ more, skipBlanks s = ','.toUInt8 :: s₁ ∧
        skipBlanks s₁ = '"'.toUInt8 :: s₂ ∧ outcome (Quote.read s₂) = some (key, s₃) ∧
        Valued item s₃ x s₄ ∧ MembersBehind item s₄ more final ∧ entries = (key, x) :: more := by
  constructor
  · intro h
    cases h with
    | stop hend => exact Or.inl ⟨hend, rfl⟩
    | more hcomma hmark hkey hvalue h =>
      exact Or.inr ⟨_, _, _, _, _, _, _, hcomma, hmark, hkey, hvalue, h, rfl⟩
  · rintro (⟨hend, rfl⟩ | ⟨s₁, s₂, key, s₃, x, s₄, more, hcomma, hmark, hkey, hvalue, h, rfl⟩)
    · exact .stop hend
    · exact .more hcomma hmark hkey hvalue h

theorem membersBehind_blanks_iff (u : Blanks) {s final : Bytes} {entries : List (String × α)} :
    MembersBehind item (encode u.chars ++ s) entries final ↔
      MembersBehind item s entries final := by
  rw [membersBehind_iff, skipBlanks_encode, ← membersBehind_iff]

theorem membersBehind_brace_iff {s after final : Bytes} {entries : List (String × α)}
    (h : skipBlanks s = '\x7d'.toUInt8 :: after) :
    MembersBehind item s entries final ↔ after = final ∧ entries = [] := by
  rw [membersBehind_iff, h]
  simp [brace_ne_comma]

theorem membersBehind_comma_iff {s s₁ final : Bytes} {entries : List (String × α)}
    (h : skipBlanks s = ','.toUInt8 :: s₁) :
    MembersBehind item s entries final ↔ ∃ s₂ key s₃ x s₄ more,
      skipBlanks s₁ = '"'.toUInt8 :: s₂ ∧ outcome (Quote.read s₂) = some (key, s₃) ∧
        Valued item s₃ x s₄ ∧ MembersBehind item s₄ more final ∧ entries = (key, x) :: more := by
  rw [membersBehind_iff, h]
  simp [comma_ne_brace]

theorem not_membersBehind {s final : Bytes} {entries : List (String × α)}
    (hend : ∀ after, skipBlanks s ≠ '\x7d'.toUInt8 :: after)
    (hcomma : ∀ after, skipBlanks s ≠ ','.toUInt8 :: after) :
    ¬ MembersBehind item s entries final := by
  rw [membersBehind_iff]
  simp [hend, hcomma]

theorem valued_iff {s rest : Bytes} {x : α} {t : Taken s Unit} (h : colon s = .ok t) :
    Valued item s x rest ↔ outcome (item t.rest) = some (x, rest) := by
  have hcolon := outcome_colon_iff.mp (congrArg outcome h)
  simp [Valued, hcolon]

theorem not_valued {s rest : Bytes} {x : α} {e : Fault} (h : colon s = .error e) :
    ¬ Valued item s x rest := by
  rintro ⟨after, hafter, -⟩
  have hcolon := outcome_colon_iff (u := ()).mpr hafter
  rw [h] at hcolon
  exact absurd hcolon (by simp)

theorem outcome_membersOnto {read found : List (String × α)} {key : String} {s final : Bytes}
    (h : s.length ≤ source.length) :
    outcome (membersOnto item read key s h) = some (found, final) ↔
      ∃ x rest entries, Valued item s x rest ∧ MembersBehind item rest entries final ∧
        found = read.reverse ++ (key, x) :: entries := by
  fun_induction membersOnto item read key s h with
  | case1 read key s h e hcolon => simp [not_valued hcolon]
  | case2 read key s h _ s₁ h₁ hcolon e hitem => simp [valued_iff hcolon, hitem]
  | case3 read key s h _ s₁ h₁ hcolon x s₂ h₂ hitem hend =>
    simp [valued_iff hcolon, hitem, not_membersBehind, hend]
  | case4 read key s h _ s₁ h₁ hcolon x s₂ h₂ hitem s₃ hend h₃ =>
    simp [valued_iff hcolon, hitem, membersBehind_brace_iff hend, eq_comm, and_comm]
  | case5 read key s h _ s₁ h₁ hcolon x s₂ h₂ hitem s₃ hnext hcomma =>
    simp [valued_iff hcolon, hitem, membersBehind_comma_iff hcomma, hnext]
  | case6 read key s h _ s₁ h₁ hcolon x s₂ h₂ hitem s₃ s₄ e hkey hcomma hlt hne hmark =>
    simp [valued_iff hcolon, hitem, membersBehind_comma_iff hcomma, hmark, hkey]
  | case7 read key s h _ s₁ h₁ hcolon x s₂ h₂ hitem s₃ s₄ next s₅ h₅ hkey hcomma hlt hne hmark hlt'
      ih =>
    rw [ih]
    simp [valued_iff hcolon, hitem, membersBehind_comma_iff hcomma, hmark, hkey, and_assoc]
  | case8 read key s h _ s₁ h₁ hcolon x s₂ h₂ hitem s₃ s₄ hcomma hlt hne hmark =>
    simp [valued_iff hcolon, hitem, membersBehind_comma_iff hcomma, hmark, mark_ne_brace.symm]
  | case9 read key s h _ s₁ h₁ hcolon x s₂ h₂ hitem s₃ b s₄ hmark hlt hb hbrace hcomma =>
    simp [valued_iff hcolon, hitem, membersBehind_comma_iff hcomma, hmark, hb]
  | case10 read key s h _ s₁ h₁ hcolon x s₂ h₂ hitem b s₃ hend hlt hbrace hcomma =>
    simp [valued_iff hcolon, hitem, not_membersBehind, hend, hbrace, hcomma]

end Members

/-! ### Objects -/

/-- The value of an object with a single member, from behind its key, if the text in the member
means one. -/
def Held (held : List Char → Option Value) (s : Bytes) (v : Value) (final : Bytes) : Prop :=
  ∃ s₁ s₂ text s₃, skipBlanks s = ':'.toUInt8 :: s₁ ∧ skipBlanks s₁ = '"'.toUInt8 :: s₂ ∧
    outcome (Quote.read s₂) = some (text, s₃) ∧ held text.toList = some v ∧
      skipBlanks s₃ = '\x7d'.toUInt8 :: final

theorem outcome_soleMember {expected : String} {meaning : Bytes → Except Error Value} (s : Bytes) :
    outcome (soleMember expected meaning s) = (outcome (colon s)).bind fun c ↦
      (outcome (stringFor expected c.2)).bind fun t ↦
        (meaning (encode t.1.toList)).toOption.bind fun v ↦
          (outcome (closing t.2)).map fun e ↦ (v, e.2) := by
  unfold soleMember
  cases colon s with
  | error e => rfl
  | ok c =>
    obtain ⟨_, s₁, h₁⟩ := c
    rw [outcome_ok, Option.bind_some]
    dsimp only
    cases stringFor expected s₁ with
    | error e => rfl
    | ok t =>
      obtain ⟨text, s₂, h₂⟩ := t
      rw [outcome_ok, Option.bind_some]
      dsimp only
      cases meaning (encode text.toList) with
      | error e => rfl
      | ok v =>
        cases closing s₂ with
        | error e => rfl
        | ok e => rfl

theorem outcome_soleMember_iff {expected : String} {meaning : Bytes → Except Error Value}
    {s final : Bytes} {v : Value} :
    outcome (soleMember expected meaning s) = some (v, final) ↔
      Held (fun text ↦ (meaning (encode text)).toOption) s v final := by
  simp only [outcome_soleMember, Held, Option.bind_eq_some_iff, Option.map_eq_some_iff,
    Prod.exists, Prod.mk.injEq, outcome_colon_iff, outcome_stringFor_iff, outcome_closing_iff]
  constructor
  · rintro ⟨_, s₁, hcolon, text, s₃, ⟨s₂, hmark, hread⟩, w, hheld, _, rest, hbrace, rfl, rfl⟩
    exact ⟨s₁, s₂, text, s₃, hcolon, hmark, hread, hheld, hbrace⟩
  · rintro ⟨s₁, s₂, text, s₃, hcolon, hmark, hread, hheld, hbrace⟩
    exact ⟨(), s₁, hcolon, text, s₃, ⟨s₂, hmark, hread⟩, v, hheld, (), final, hbrace, rfl, rfl⟩

section Objects

variable (embedded : Bytes → Except Error Value)

/-- The keys that are set apart, and the value of the text that is held under one of them. -/
def apartOf : Tree.Apart := fun key ↦
  if key = numberKey then some fun text ↦ ((Numeral.ofText (encode text)).map .number).toOption
  else if key = textKey then some fun text ↦ (embedded (encode text)).toOption
  else none

/-- The value of an object from behind its first key. -/
def Keyed (item : Reader Value) (key : String) (s : Bytes) (v : Value) (final : Bytes) : Prop :=
  match apartOf embedded key with
  | some held => Held held s v final
  | none => ∃ x rest entries, Valued item s x rest ∧ MembersBehind item rest entries final ∧
    v = .ofMembers ((key, x) :: entries)

variable {embedded} {item : Reader Value}

theorem apartOf_numberKey : apartOf embedded numberKey =
    some fun text ↦ ((Numeral.ofText (encode text)).map .number).toOption :=
  if_pos rfl

theorem apartOf_textKey :
    apartOf embedded textKey = some fun text ↦ (embedded (encode text)).toOption := by
  rw [apartOf, if_neg (by decide), if_pos rfl]

theorem apartOf_eq_none_iff {key : String} :
    apartOf embedded key = none ↔ key ≠ numberKey ∧ key ≠ textKey := by
  unfold apartOf
  split_ifs with hnumber htext
  · simp [hnumber]
  · simp [htext]
  · simp [hnumber, htext]

theorem eq_of_apartOf {key : String} {held : List Char → Option Value}
    (h : apartOf embedded key = some held) :
    (key = numberKey ∧ held = fun text ↦ ((Numeral.ofText (encode text)).map .number).toOption) ∨
      key = textKey ∧ held = fun text ↦ (embedded (encode text)).toOption := by
  unfold apartOf at h
  split_ifs at h with hnumber htext
  · exact Or.inl ⟨hnumber, (Option.some_inj.mp h).symm⟩
  · exact Or.inr ⟨htext, (Option.some_inj.mp h).symm⟩

theorem keyed_of_apart {key : String} {held : List Char → Option Value} {s final : Bytes}
    {v : Value} (h : apartOf embedded key = some held) :
    Keyed embedded item key s v final ↔ Held held s v final := by
  rw [Keyed, h]

theorem keyed_of_not_apart {key : String} {s final : Bytes} {v : Value}
    (h : apartOf embedded key = none) :
    Keyed embedded item key s v final ↔ ∃ x rest entries, Valued item s x rest ∧
      MembersBehind item rest entries final ∧ v = .ofMembers ((key, x) :: entries) := by
  rw [Keyed, h]

theorem outcome_object_mark_iff {s s₁ final : Bytes} {v : Value}
    (h : skipBlanks s = '"'.toUInt8 :: s₁) :
    outcome (object embedded item s) = some (v, final) ↔
      ∃ key s₂, outcome (Quote.read s₁) = some (key, s₂) ∧ Keyed embedded item key s₂ v final := by
  unfold object
  split
  · rename_i hnil
    exact absurd (h.symm.trans hnil) (by simp)
  · rename_i b rest hs
    obtain ⟨rfl, rfl⟩ := List.cons.inj (h.symm.trans hs)
    rw [if_neg mark_ne_brace, if_pos rfl]
    cases Quote.read s₁ with
    | error e => simp
    | ok t =>
      obtain ⟨key, after, shorter⟩ := t
      simp only [outcome_ok, Option.some_inj, Prod.mk.injEq, and_assoc, exists_and_left,
        exists_eq_left']
      split_ifs with hnumber htext
      · subst hnumber
        rw [outcome_map_widen, outcome_soleMember_iff, keyed_of_apart apartOf_numberKey]
      · subst htext
        rw [outcome_map_widen, outcome_soleMember_iff, keyed_of_apart apartOf_textKey]
      · rw [outcome_map, map_eq_some_iff,
          keyed_of_not_apart (apartOf_eq_none_iff.mpr ⟨hnumber, htext⟩)]
        simp only [outcome_membersOnto]
        constructor
        · rintro ⟨_, ⟨x, rest, entries, hvalue, hmembers, rfl⟩, rfl⟩
          exact ⟨x, rest, entries, hvalue, hmembers, rfl⟩
        · rintro ⟨x, rest, entries, hvalue, hmembers, rfl⟩
          exact ⟨_, ⟨x, rest, entries, hvalue, hmembers, rfl⟩, rfl⟩

theorem outcome_object_brace {s rest : Bytes} (h : skipBlanks s = '\x7d'.toUInt8 :: rest) :
    outcome (object embedded item s) = some (.object [], rest) := by
  unfold object
  split
  · rename_i hnil
    exact absurd (h.symm.trans hnil) (by simp)
  · rename_i b after hs
    obtain ⟨rfl, rfl⟩ := List.cons.inj (h.symm.trans hs)
    rw [if_pos rfl]
    rfl

theorem outcome_object_eq_none {s : Bytes} (hend : ∀ rest, skipBlanks s ≠ '\x7d'.toUInt8 :: rest)
    (hmark : ∀ rest, skipBlanks s ≠ '"'.toUInt8 :: rest) :
    outcome (object embedded item s) = none := by
  unfold object
  split
  · rfl
  · rename_i b rest hs
    split_ifs with hb hb'
    · exact absurd (hb ▸ hs) (hend rest)
    · exact absurd (hb' ▸ hs) (hmark rest)
    · rfl

end Objects

end Intake.Json
