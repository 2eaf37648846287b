import Intake.Json.Word
import Intake.Proofs.Json.Document
import Intake.Proofs.Json.Writing
import Mathlib.Data.List.Forall2

/-!
# Reading values of one type

Where a word has to stand, a tree is taken for one if it is the decimal of a number below 65536
(`outcome_word16`, `Tree.word?_eq_some_iff`). Where a list has to stand, the items of a tree are
taken one by one for what the reader of the elements takes them for (`whole_listFor_iff`).
-/

set_option autoImplicit false
set_option relaxedAutoImplicit false

namespace Intake.Json

open Utf8 Json.Tree

/-! ### Words -/

/-- The literal is the decimal of a natural number. -/
structure Literal.IsNatural (l : Literal) (n : Nat) : Prop where
  unsigned : l.negative = false
  whole : l.whole.value = n
  no_fraction : l.fraction = none
  no_exponent : l.exponent = none

theorem value_onto (more : List Digit) (n : Nat) :
    (Digits.onto more n).value = more.foldl (fun (n : Nat) (d : Digit) ↦ n * 10 + d.val) n := by
  fun_induction Digits.onto more n with
  | case1 more n hn => simp [Digits.value, Digits.toList, Digit.value]
  | case2 more n hn ih => rw [ih, List.foldl_cons, Nat.div_add_mod']

theorem isNatural_ofNumeral (n : Nat) : (Literal.ofNumeral (.ofNat n)).IsNatural n where
  unsigned := rfl
  whole := value_onto [] n
  no_fraction := rfl
  no_exponent := rfl

/-- The words are the decimals of the numbers that fit into sixteen bits. -/
theorem word_numeral_iff {l : Literal} {rest : Bytes} {w : UInt16} :
    l.numeral.word rest = .ok w ↔ l.IsNatural w.toNat := by
  have hnone : l.numeral.exponent = none ↔ l.exponent = none := Option.map_eq_none_iff
  constructor
  · intro h
    unfold Numeral.word at h
    split_ifs at h with hword hrange
    · obtain rfl := Except.ok.inj h
      simp only [not_or, Bool.not_eq_true, Nat.not_le] at hrange
      simp only [Numeral.isWord, Bool.and_eq_true, Option.isNone_iff_eq_none] at hword
      exact ⟨hrange.1, (Nat.mod_eq_of_lt hrange.2).symm, hword.1.1, hnone.mp hword.1.2⟩
    · split at h
      · simp at h
      · simp at h
  · rintro ⟨hunsigned, hwhole, hfraction, hexponent⟩
    have hlt : l.numeral.whole.value < 2 ^ 16 := hwhole ▸ w.toNat_lt
    have hword : l.numeral.isWord = true := by
      have hlt64 : l.numeral.whole.value < 2 ^ 64 := by omega
      have hnegative : l.numeral.negative = false := hunsigned
      have hnofraction : l.numeral.fraction = none := hfraction
      rw [Numeral.isWord, hnegative, hnofraction, hnone.mpr hexponent]
      simpa using hlt64
    have hrange : ¬ (l.numeral.negative ∨ 2 ^ 16 ≤ l.numeral.whole.value) := by
      rw [not_or]
      exact ⟨by simp [Literal.numeral, hunsigned], by omega⟩
    have heq : l.numeral.whole.value.toUInt16 = w := by
      rw [show l.numeral.whole.value = w.toNat from hwhole]
      simp
    rw [Numeral.word, if_pos hword, if_neg hrange, heq]

/-- The word that a tree is, if it is one. -/
def Tree.word? : Tree → Option UInt16
  | .number l => (l.numeral.word []).toOption
  | _ => none

theorem Tree.word?_eq_some_iff {t : Tree} {w : UInt16} :
    t.word? = some w ↔ ∃ l, t = .number l ∧ l.IsNatural w.toNat := by
  cases t with
  | number l => simp [Tree.word?, toOption_eq_some_iff, word_numeral_iff]
  | _ => simp [Tree.word?]

theorem toOption_word (l : Literal) (rest : Bytes) :
    (l.numeral.word rest).toOption = (Tree.number l).word? := by
  refine Option.ext fun w ↦ ?_
  rw [toOption_eq_some_iff, word_numeral_iff, Tree.word?_eq_some_iff]
  simp

/-- The first byte of a tree shows whether it is a number, a list or an object. -/
theorem exists_head (t : Tree) :
    ∃ b s, encode t.chars = b :: s ∧ isBlank b = false ∧
      (Numeral.begins b = true → ∃ l, t = .number l) ∧
      (b = '['.toUInt8 → ∃ inner items, t = .list inner items) ∧
      (b = '\x7b'.toUInt8 → ∃ inner members, t = .object inner members) := by
  cases t with
  | null => exact ⟨_, _, rfl, by decide, fun h ↦ absurd h (by decide), fun h ↦ absurd h (by decide),
      fun h ↦ absurd h (by decide)⟩
  | bool b =>
    cases b with
    | true => exact ⟨_, _, rfl, by decide, fun h ↦ absurd h (by decide),
        fun h ↦ absurd h (by decide), fun h ↦ absurd h (by decide)⟩
    | false => exact ⟨_, _, rfl, by decide, fun h ↦ absurd h (by decide),
        fun h ↦ absurd h (by decide), fun h ↦ absurd h (by decide)⟩
  | number l =>
    obtain ⟨b, s, hform, hb⟩ := Numeral.exists_encode_literal l
    exact ⟨b, s, hform, not_isBlank_of_begins hb, fun _ ↦ ⟨l, rfl⟩,
      fun h ↦ absurd h (ne_of_begins hb (by decide)),
      fun h ↦ absurd h (ne_of_begins hb (by decide))⟩
  | string ps => exact ⟨_, _, rfl, by decide, fun h ↦ absurd h (by decide),
      fun h ↦ absurd h (by decide), fun h ↦ absurd h (by decide)⟩
  | list inner items =>
    have hform := encode_list inner items []
    rw [List.append_nil] at hform
    exact ⟨_, _, hform, by decide, fun h ↦ absurd h (by decide), fun _ ↦ ⟨inner, items, rfl⟩,
      fun h ↦ absurd h (by decide)⟩
  | object inner members =>
    have hform := encode_object inner members []
    rw [List.append_nil] at hform
    exact ⟨_, _, hform, by decide, fun h ↦ absurd h (by decide), fun h ↦ absurd h (by decide),
      fun _ ↦ ⟨inner, members, rfl⟩⟩

theorem outcome_word16_of_head {s rest : Bytes} {b : UInt8} (h : skipBlanks s = b :: rest) :
    outcome (word16 s) =
      if Numeral.begins b then
        (Numeral.read (b :: rest)).toOption.bind fun p ↦ (p.1.word p.2).toOption.map (·, p.2)
      else none := by
  unfold word16
  split
  · rename_i hnil
    exact absurd (h.symm.trans hnil) (by simp)
  · rename_i b' rest' hs
    obtain ⟨rfl, rfl⟩ := List.cons.inj (h.symm.trans hs)
    split_ifs with hb
    · split
      · rename_i broken hbroken
        rw [hbroken]
        rfl
      · rename_i n after hread
        simp only [hread, Except.toOption, Option.bind_some]
        cases n.word after with
        | error e => rfl
        | ok w => rfl
    · rfl

/-- A tree where a word has to stand is taken for the word that it is. -/
theorem outcome_word16 (u : Blanks) (t : Tree) {s : Bytes} (hs : EndsNumber s) :
    outcome (word16 (encode u.chars ++ (encode t.chars ++ s))) = t.word?.map (·, s) := by
  obtain ⟨b, more, hform, hblank, hnumber, -⟩ := exists_head t
  have hhead : skipBlanks (encode u.chars ++ (encode t.chars ++ s)) = b :: (more ++ s) := by
    rw [hform, List.cons_append, skipBlanks_encode_cons u _ hblank]
  rw [outcome_word16_of_head hhead]
  split_ifs with hb
  · obtain ⟨l, rfl⟩ := hnumber hb
    have hread := Numeral.read_literal l hs
    rw [Tree.chars] at hform
    rw [hform, List.cons_append] at hread
    rw [hread, ← toOption_word l s]
    rfl
  · have hnone : t.word? = none := by
      cases t with
      | number l =>
        obtain ⟨b', more', hform', hb'⟩ := Numeral.exists_encode_literal l
        rw [Tree.chars, hform'] at hform
        exact absurd ((List.cons.inj hform).1 ▸ hb') hb
      | _ => rfl
    rw [hnone]
    rfl

/-! ### Lists -/

section Lists

variable {α : Type} {item : Reader α} {kindOf : Tree → Option α}

/-- What the reader of an element takes a tree for. -/
def ReadsTrees (item : Reader α) (kindOf : Tree → Option α) : Prop :=
  ∀ (t : Tree) {s : Bytes}, EndsNumber s →
    outcome (item (encode t.chars ++ s)) = (kindOf t).map (·, s)

variable (hblanks : PassesBlanks item) (hreads : ReadsTrees item kindOf)

include hblanks hreads

theorem outcome_item {before after : Blanks} {t : Tree} (items : List (Padded Tree)) (s : Bytes) :
    outcome (item (encode before.chars ++ (encode t.chars ++
        (encode after.chars ++ listTail items s)))) =
      (kindOf t).map (·, encode after.chars ++ listTail items s) := by
  rw [hblanks.encode, hreads t (endsNumber_blanks after (endsNumber_listTail items s))]

theorem itemsBehind_listTail_iff {items : List (Padded Tree)} {xs : List α} {s final : Bytes} :
    ItemsBehind item (listTail items s) xs final ↔
      List.Forall₂ (fun item x ↦ kindOf item.value = some x) items xs ∧ s = final := by
  induction items generalizing xs with
  | nil =>
    rw [listTail_nil, itemsBehind_bracket_iff (skipBlanks_of_not_isBlank s (by decide)),
      List.forall₂_nil_left_iff, and_comm]
  | cons padded items ih =>
    obtain ⟨before, t, after⟩ := padded
    rw [listTail_cons, itemsBehind_comma_iff (skipBlanks_of_not_isBlank _ (by decide)),
      List.forall₂_cons_left_iff]
    simp only [outcome_item hblanks hreads, Option.map_eq_some_iff, Prod.mk.injEq]
    constructor
    · rintro ⟨x, _, ys, ⟨_, hx, rfl, rfl⟩, hys, rfl⟩
      obtain ⟨hall, rfl⟩ := ih.mp ((itemsBehind_blanks_iff after).mp hys)
      exact ⟨⟨_, ys, hx, hall, rfl⟩, rfl⟩
    · rintro ⟨⟨x, ys, hx, hall, rfl⟩, rfl⟩
      exact ⟨x, _, ys, ⟨x, hx, rfl, rfl⟩,
        (itemsBehind_blanks_iff after).mpr (ih.mpr ⟨hall, rfl⟩), rfl⟩

theorem outcome_list_iff {inner : Blanks} {items : List (Padded Tree)} {xs : List α}
    {s final : Bytes} :
    outcome (Json.list item (encode inner.chars ++ listBody items s)) = some (xs, final) ↔
      List.Forall₂ (fun item x ↦ kindOf item.value = some x) items xs ∧ s = final := by
  rw [outcome_list hblanks]
  cases items with
  | nil =>
    rw [hblanks.bracket _ s skipBlanks_listBody_nil, skipBlanks_listBody_nil,
      List.forall₂_nil_left_iff]
    simp [and_comm]
  | cons padded items =>
    obtain ⟨before, t, after⟩ := padded
    obtain ⟨b, more, hform, -, hbracket, -⟩ := exists_encode_tree t
    rw [← itemsBehind_listTail_iff hblanks hreads, listTail_cons,
      itemsBehind_comma_iff (skipBlanks_of_not_isBlank _ (by decide)), hblanks.encode,
      skipBlanks_listBody_cons, listBody_cons]
    refine or_iff_right ?_
    rintro ⟨hend, -⟩
    rw [hform] at hend
    exact hbracket (List.cons.inj hend).1

/-- A list between blanks is taken for what its items are taken for. -/
theorem whole_listFor_iff {u inner w : Blanks} {items : List (Padded Tree)} {xs : List α} :
    whole (listFor item) (encode (u.chars ++ (Tree.list inner items).chars ++ w.chars)) = .ok xs ↔
      List.Forall₂ (fun item x ↦ kindOf item.value = some x) items xs := by
  have hhead : skipBlanks (encode (u.chars ++ (Tree.list inner items).chars ++ w.chars)) =
      '['.toUInt8 :: (encode inner.chars ++ listBody items (encode w.chars)) := by
    rw [encode_append, encode_append, List.append_assoc, encode_list, skipBlanks_encode,
      skipBlanks_of_not_isBlank _ (by decide)]
  simp only [whole_eq_ok_iff, outcome_listFor_iff, hhead]
  constructor
  · rintro ⟨w', after, hafter, hlist⟩
    obtain ⟨-, rfl⟩ := List.cons.inj hafter
    exact ((outcome_list_iff hblanks hreads).mp hlist).1
  · intro hall
    exact ⟨w, _, rfl, (outcome_list_iff hblanks hreads).mpr ⟨hall, rfl⟩⟩

end Lists

end Intake.Json
