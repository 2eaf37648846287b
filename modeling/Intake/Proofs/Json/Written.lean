import Intake.Proofs.Json.Reading

/-!
# What is read is a tree

Whatever `valueIn` takes off a text is a tree of the grammar that is not too deep, and what it takes
it for is the value of that tree (`written_valueIn`). A text says only while it is read which tree
it is, so this is an induction over the depth and not over trees.
-/

set_option autoImplicit false
set_option relaxedAutoImplicit false

namespace Intake.Json

open Utf8 Json.Tree

variable {embedded : Bytes → Except Error Value}

/-- A reader takes nothing off a text but trees that are not too deep, for their values. -/
def Written (embedded : Bytes → Except Error Value) (d : Nat) (item : Reader Value) : Prop :=
  ∀ {s rest : Bytes} {v : Value}, outcome (item s) = some (v, rest) →
    ∃ (u : Blanks) (t : Tree), s = encode u.chars ++ (encode t.chars ++ rest) ∧ t.depth ≤ d ∧
      t.meaning (apartOf embedded) = some v

variable {item : Reader Value} {d : Nat}

/-- The items behind an item are written as such, with blanks in front. -/
theorem exists_items (hitem : Written embedded d item) {s final : Bytes} {xs : List Value}
    (h : ItemsBehind item s xs final) :
    ∃ (u : Blanks) (items : List (Padded Tree)), s = encode u.chars ++ listTail items final ∧
      itemsDepth items ≤ d ∧ itemsMeaning (apartOf embedded) items = some xs := by
  induction h with
  | @stop s after hend =>
    obtain ⟨u, hu⟩ := exists_blanks s
    refine ⟨u, [], ?_, Nat.zero_le d, by rw [itemsMeaning]⟩
    rw [listTail_nil, ← hend]
    exact hu
  | @more s after rest final x xs hcomma hx _ ih =>
    obtain ⟨u, hu⟩ := exists_blanks s
    obtain ⟨before, t, rfl, hdepth, hmeaning⟩ := hitem hx
    obtain ⟨behind, items, rfl, hdepths, hmeanings⟩ := ih
    refine ⟨u, ⟨before, t, behind⟩ :: items, ?_, ?_, ?_⟩
    · rw [hu, hcomma, listTail_cons]
    · rw [itemsDepth]
      exact Nat.max_le.mpr ⟨hdepth, hdepths⟩
    · rw [itemsMeaning, hmeaning, hmeanings]
      rfl

theorem exists_list (hitem : Written embedded d item) (hblanks : PassesBlanks item)
    {s final : Bytes} {xs : List Value} (h : outcome (Json.list item s) = some (xs, final)) :
    ∃ (inner : Blanks) (items : List (Padded Tree)),
      s = encode inner.chars ++ listBody items final ∧ itemsDepth items ≤ d ∧
        itemsMeaning (apartOf embedded) items = some xs := by
  obtain ⟨hend, rfl⟩ | ⟨x, rest, ys, hx, hys, rfl⟩ := (outcome_list hblanks).mp h
  · obtain ⟨u, hu⟩ := exists_blanks s
    refine ⟨u, [], ?_, Nat.zero_le d, by rw [itemsMeaning]⟩
    rw [listBody_nil, ← hend]
    exact hu
  · obtain ⟨before, t, rfl, hdepth, hmeaning⟩ := hitem hx
    obtain ⟨behind, items, rfl, hdepths, hmeanings⟩ := exists_items hitem hys
    refine ⟨.none, ⟨before, t, behind⟩ :: items, ?_, ?_, ?_⟩
    · rw [listBody_cons]
      rfl
    · rw [itemsDepth]
      exact Nat.max_le.mpr ⟨hdepth, hdepths⟩
    · rw [itemsMeaning, hmeaning, hmeanings]
      rfl

/-- A member from behind its key is written as a colon and a tree among blanks. -/
theorem exists_valued (hitem : Written embedded d item) {s rest : Bytes} {x : Value}
    (h : Valued item s x rest) :
    ∃ (between behind : Blanks) (t : Tree),
      (∀ (after : Blanks) (s' : Bytes), rest = encode after.chars ++ s' →
        s = memberTail between behind after t s') ∧
      t.depth ≤ d ∧ t.meaning (apartOf embedded) = some x := by
  obtain ⟨after, hafter, hx⟩ := h
  obtain ⟨between, hbetween⟩ := exists_blanks s
  obtain ⟨behind, t, rfl, hdepth, hmeaning⟩ := hitem hx
  refine ⟨between, behind, t, ?_, hdepth, hmeaning⟩
  rintro after s' rfl
  rw [hbetween, hafter, memberTail]

/-- The members behind a member are written as such, with blanks in front. -/
theorem exists_members (hitem : Written embedded d item) {s final : Bytes}
    {entries : List (String × Value)} (h : MembersBehind item s entries final) :
    ∃ (u : Blanks) (members : List (Member Tree)), s = encode u.chars ++ objectTail members final ∧
      membersDepth members ≤ d ∧ membersMeaning (apartOf embedded) members = some entries := by
  induction h with
  | @stop s after hend =>
    obtain ⟨u, hu⟩ := exists_blanks s
    refine ⟨u, [], ?_, Nat.zero_le d, by rw [membersMeaning]⟩
    rw [objectTail_nil, ← hend]
    exact hu
  | @more s s₁ s₂ s₃ s₄ final key x entries hcomma hmark hkey hvalue _ ih =>
    obtain ⟨u, hu⟩ := exists_blanks s
    obtain ⟨before, hbefore⟩ := exists_blanks s₁
    obtain ⟨ps, rfl, hps⟩ := exists_pieces_of_read hkey
    obtain ⟨between, behind, t, hwritten, hdepth, hmeaning⟩ := exists_valued hitem hvalue
    obtain ⟨after, members, hmore, hdepths, hmeanings⟩ := ih
    refine ⟨u, ⟨before, ps, between, behind, t, after⟩ :: members, ?_, ?_, ?_⟩
    · rw [hu, hcomma, hbefore, hmark, objectTail_cons, hwritten after _ hmore]
    · rw [membersDepth]
      exact Nat.max_le.mpr ⟨hdepth, hdepths⟩
    · rw [membersMeaning, hps, hmeaning, hmeanings]
      simp

/-- What is held under a key that is set apart is written as a sole member. -/
theorem exists_sole {held : List Char → Option Value} {s final : Bytes} {v : Value}
    (h : Held held s v final) :
    ∃ (between behind after : Blanks) (ps : Pieces),
      s = memberTail between behind after (.string ps) (objectTail [] final) ∧
        ps.unescaped.bind held = some v := by
  obtain ⟨s₁, s₂, text, s₃, hs₁, hs₂, hread, hheld, hend⟩ := h
  obtain ⟨between, hbetween⟩ := exists_blanks s
  obtain ⟨behind, hbehind⟩ := exists_blanks s₁
  obtain ⟨after, hafter⟩ := exists_blanks s₃
  obtain ⟨ps, rfl, hps⟩ := exists_pieces_of_read hread
  refine ⟨between, behind, after, ps, ?_, by rw [hps]; exact hheld⟩
  rw [hbetween, hs₁, hbehind, hs₂, memberTail, encode_string, objectTail_nil, ← hend, ← hafter]

/-- An object from behind its first key is written as a member and those behind it. -/
theorem exists_keyed (inner : Blanks) (hitem : Written embedded d item) {ps : Pieces}
    {key : String} {s final : Bytes} {v : Value} (hps : ps.unescaped = some key.toList)
    (h : Keyed embedded item key s v final) :
    ∃ (between behind after : Blanks) (t : Tree) (members : List (Member Tree)),
      s = memberTail between behind after t (objectTail members final) ∧
        membersDepth (⟨.none, ps, between, behind, t, after⟩ :: members) ≤ d ∧
          (Tree.object inner (⟨.none, ps, between, behind, t, after⟩ :: members)).meaning
            (apartOf embedded) = some v := by
  cases hapart : apartOf embedded key with
  | none =>
    obtain ⟨x, rest, entries, hvalue, hmembers, rfl⟩ := (keyed_of_not_apart hapart).mp h
    obtain ⟨between, behind, t, hwritten, hdepth, hmeaning⟩ := exists_valued hitem hvalue
    obtain ⟨after, members, hmore, hdepths, hmeanings⟩ := exists_members hitem hmembers
    refine ⟨between, behind, after, t, members, hwritten after _ hmore, ?_, ?_⟩
    · rw [membersDepth]
      exact Nat.max_le.mpr ⟨hdepth, hdepths⟩
    · simp [Tree.meaning, hps, hapart, hmeaning, hmeanings]
  | some held =>
    obtain ⟨between, behind, after, text, hwritten, hheld⟩ :=
      exists_sole ((keyed_of_apart hapart).mp h)
    refine ⟨between, behind, after, .string text, [], hwritten, Nat.zero_le d, ?_⟩
    simp [Tree.meaning, hps, hapart, soleText, hheld]

theorem exists_object (hitem : Written embedded d item) {s final : Bytes} {v : Value}
    (h : outcome (Json.object embedded item s) = some (v, final)) :
    ∃ (inner : Blanks) (members : List (Member Tree)),
      s = encode inner.chars ++ objectBody members final ∧ membersDepth members ≤ d ∧
        (Tree.object inner members).meaning (apartOf embedded) = some v := by
  obtain ⟨inner, hinner⟩ := exists_blanks s
  by_cases hbrace : ∃ rest, skipBlanks s = '\x7d'.toUInt8 :: rest
  · obtain ⟨rest, hrest⟩ := hbrace
    rw [outcome_object_brace hrest] at h
    obtain ⟨rfl, rfl⟩ := Prod.mk.inj (Option.some_inj.mp h)
    refine ⟨inner, [], ?_, Nat.zero_le d, by rw [Tree.meaning]⟩
    rw [objectBody_nil, ← hrest]
    exact hinner
  · by_cases hmark : ∃ rest, skipBlanks s = '"'.toUInt8 :: rest
    · obtain ⟨s₁, hs₁⟩ := hmark
      obtain ⟨key, s₂, hkey, hkeyed⟩ := (outcome_object_mark_iff hs₁).mp h
      obtain ⟨ps, rfl, hps⟩ := exists_pieces_of_read hkey
      obtain ⟨between, behind, after, t, members, rfl, hdepth, hmeaning⟩ :=
        exists_keyed inner hitem hps hkeyed
      refine ⟨inner, ⟨.none, ps, between, behind, t, after⟩ :: members, ?_, hdepth, hmeaning⟩
      rw [hinner, hs₁, objectBody_cons]
      rfl
    · rw [outcome_object_eq_none (not_exists.mp hbrace) (not_exists.mp hmark)] at h
      exact absurd h (by simp)

theorem toOption_eq_some_iff {ε α : Type} {x : Except ε α} {a : α} :
    x.toOption = some a ↔ x = .ok a := by
  cases x with
  | error e => simp [Except.toOption]
  | ok b => simp [Except.toOption]

theorem eq_of_word {letters : List Char} (hletters : letters.all (·.toNat < 0x80))
    {s rest : Bytes} {v w : Value} (h : (word letters s).toOption.map (w, ·) = some (v, rest)) :
    s = encode letters ++ rest ∧ w = v := by
  obtain ⟨after, hafter, heq⟩ := Option.map_eq_some_iff.mp h
  obtain ⟨rfl, rfl⟩ := Prod.mk.inj heq
  exact ⟨(word_eq_ok_iff hletters).mp (toOption_eq_some_iff.mp hafter), rfl⟩

theorem written_valueOf (inner : Option (Reader Value))
    (hinner : ∀ item ∈ inner, PassesBlanks item ∧ ∃ e, d = e + 1 ∧ Written embedded e item) :
    Written embedded d (valueOf embedded inner) := by
  intro s rest v h
  obtain ⟨u, hu⟩ := exists_blanks s
  cases hs : skipBlanks s with
  | nil =>
    rw [outcome_valueOf_nil inner hs] at h
    exact absurd h (by simp)
  | cons b after =>
    rw [outcome_valueOf inner hs] at h
    rw [hs] at hu
    split_ifs at h with hn ht hf hnumber hstring hlist hobject
    · obtain ⟨rfl, rfl⟩ := eq_of_word (by decide) h
      exact ⟨u, .null, by rw [hu, hn]; rfl, Nat.zero_le d, rfl⟩
    · obtain ⟨rfl, rfl⟩ := eq_of_word (by decide) h
      exact ⟨u, .bool true, by rw [hu, ht]; rfl, Nat.zero_le d, rfl⟩
    · obtain ⟨rfl, rfl⟩ := eq_of_word (by decide) h
      exact ⟨u, .bool false, by rw [hu, hf]; rfl, Nat.zero_le d, rfl⟩
    · obtain ⟨n, hread, rfl⟩ := map_eq_some_iff.mp h
      obtain ⟨l, rfl, hl⟩ := Numeral.exists_literal_of_read (toOption_eq_some_iff.mp hread)
      exact ⟨u, .number l, by rw [hu, hl]; rfl, Nat.zero_le d, rfl⟩
    · obtain ⟨text, hread, rfl⟩ := map_eq_some_iff.mp h
      obtain ⟨ps, rfl, hps⟩ := exists_pieces_of_read hread
      refine ⟨u, .string ps, by rw [hu, hstring, encode_string], Nat.zero_le d, ?_⟩
      rw [Tree.meaning, hps, Option.map_some, String.ofList_toList]
    · obtain ⟨item, hitem, hitems⟩ := Option.bind_eq_some_iff.mp h
      obtain ⟨hblanks, e, rfl, hwritten⟩ := hinner item hitem
      obtain ⟨xs, hxs, rfl⟩ := map_eq_some_iff.mp hitems
      obtain ⟨blanks, items, rfl, hdepth, hmeaning⟩ := exists_list hwritten hblanks hxs
      refine ⟨u, .list blanks items, by rw [hu, hlist, encode_list], ?_, ?_⟩
      · rw [Tree.depth]
        exact Nat.succ_le_succ hdepth
      · rw [Tree.meaning, hmeaning]
        rfl
    · obtain ⟨item, hitem, hmembers⟩ := Option.bind_eq_some_iff.mp h
      obtain ⟨-, e, rfl, hwritten⟩ := hinner item hitem
      obtain ⟨blanks, members, rfl, hdepth, hmeaning⟩ := exists_object hwritten hmembers
      refine ⟨u, .object blanks members, by rw [hu, hobject, encode_object], ?_, hmeaning⟩
      rw [Tree.depth]
      exact Nat.succ_le_succ hdepth

/-- What is taken off a text for a value is a tree with that value. -/
theorem written_valueIn (d : Nat) : Written embedded d (valueIn embedded d) := by
  induction d with
  | zero => exact written_valueOf none (by simp)
  | succ d ih =>
    refine written_valueOf (some (valueIn embedded d)) fun item hitem ↦ ?_
    obtain rfl := Option.some_inj.mp hitem
    exact ⟨passesBlanks_valueIn d, d, rfl, ih⟩

/-- What is read where a list has to stand is the tree of a list. -/
theorem exists_list_of_listFor {s rest : Bytes} {xs : List Value}
    (h : outcome (listFor (valueIn embedded d) s) = some (xs, rest)) :
    ∃ (u inner : Blanks) (items : List (Padded Tree)),
      s = encode u.chars ++ (encode (Tree.list inner items).chars ++ rest) := by
  obtain ⟨after, hafter, hxs⟩ := outcome_listFor_iff.mp h
  obtain ⟨u, hu⟩ := exists_blanks s
  obtain ⟨inner, items, rfl, -⟩ := exists_list (written_valueIn d) (passesBlanks_valueIn d) hxs
  exact ⟨u, inner, items, by rw [hu, hafter, encode_list]⟩

end Intake.Json
