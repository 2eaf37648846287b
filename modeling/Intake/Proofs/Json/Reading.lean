import Intake.Proofs.Json.Literal
import Intake.Proofs.Json.Objects

/-!
# Trees are read

`valueIn` takes a tree off the front of a text for its value if the tree is not too deep, and if it
is too deep or has no value, nothing is taken (`isRead`). The proof is an induction over
trees with one step for an item of a list (`items_iff`), one for a member of an object
(`members_iff`) and one for the key that an object begins with (`keyed_iff`).
-/

set_option autoImplicit false
set_option relaxedAutoImplicit false

namespace Intake.Json

open Utf8

variable {embedded : Bytes → Except Error Value}

/-! ### The first byte of a value -/

theorem outcome_constant {source s : Bytes} (v : Value) (letters : List Char)
    (h : s.length < source.length) :
    outcome (constant v letters s h) = (word letters s).toOption.map (v, ·) := by
  unfold constant
  split
  · rename_i e he
    rw [he]
    rfl
  · rename_i rest hrest
    simp [hrest, Except.toOption]

/-- What a value is depends on its first byte. -/
theorem outcome_valueOf (inner : Option (Reader Value)) {s rest : Bytes} {b : UInt8}
    (h : skipBlanks s = b :: rest) :
    outcome (valueOf embedded inner s) =
      if b = 'n'.toUInt8 then (word ['u', 'l', 'l'] rest).toOption.map (.null, ·)
      else if b = 't'.toUInt8 then (word ['r', 'u', 'e'] rest).toOption.map (.bool true, ·)
      else if b = 'f'.toUInt8 then (word ['a', 'l', 's', 'e'] rest).toOption.map (.bool false, ·)
      else if Numeral.begins b then
        (Numeral.read (b :: rest)).toOption.map (Prod.map .number id)
      else if b = '"'.toUInt8 then (outcome (Quote.read rest)).map (Prod.map .string id)
      else if b = '['.toUInt8 then
        inner.bind fun item ↦ (outcome (list item rest)).map (Prod.map .list id)
      else if b = '\x7b'.toUInt8 then
        inner.bind fun item ↦ outcome (object embedded item rest)
      else none := by
  unfold valueOf
  split
  · rename_i hnil
    exact absurd (h.symm.trans hnil) (by simp)
  · rename_i b' rest' hs
    obtain ⟨rfl, rfl⟩ := List.cons.inj (h.symm.trans hs)
    split_ifs with hn ht hf hnumber hstring hlist hobject
    · rw [outcome_constant]
    · rw [outcome_constant]
    · rw [outcome_constant]
    · split
      · rename_i broken hbroken
        rw [hbroken]
        rfl
      · rename_i n after hread
        simp [hread, Except.toOption]
    · cases Quote.read rest with
      | error e => rfl
      | ok t => rfl
    · cases inner with
      | none => rfl
      | some item =>
        dsimp only
        rw [Option.bind_some]
        cases list item rest with
        | error e => rfl
        | ok t => rfl
    · cases inner with
      | none => rfl
      | some item =>
        dsimp only
        rw [Option.bind_some, outcome_map_widen]
    · rfl

theorem outcome_valueOf_nil (inner : Option (Reader Value)) {s : Bytes} (h : skipBlanks s = []) :
    outcome (valueOf embedded inner s) = none := by
  unfold valueOf
  split
  · rfl
  · rename_i b rest hs
    exact absurd (h.symm.trans hs) (by simp)

theorem passesBlanks_valueOf (inner : Option (Reader Value)) :
    PassesBlanks (valueOf embedded inner) where
  skip s := by
    cases hs : skipBlanks s with
    | nil =>
      rw [outcome_valueOf_nil inner hs, outcome_valueOf_nil inner rfl]
    | cons b rest =>
      rw [outcome_valueOf inner hs,
        outcome_valueOf inner (skipBlanks_of_not_isBlank rest (not_isBlank_of_skipBlanks hs))]
  bracket s rest hs := by
    rw [outcome_valueOf inner hs]
    rfl

/-- What may stand in a list or an object that may be nested up to a given depth itself. -/
def innerOf (embedded : Bytes → Except Error Value) : Nat → Option (Reader Value)
  | 0 => none
  | d + 1 => some (valueIn embedded d)

theorem valueIn_eq (d : Nat) : valueIn embedded d = valueOf embedded (innerOf embedded d) := by
  cases d with
  | zero => rfl
  | succ d => rfl

theorem passesBlanks_valueIn (d : Nat) : PassesBlanks (valueIn embedded d) := by
  rw [valueIn_eq]
  exact passesBlanks_valueOf _

/-! ### Texts between commas -/

/-- Texts with a comma in front of each. -/
def commaed (texts : List (List Char)) : List Char :=
  texts.flatMap (',' :: ·)

theorem intercalate_cons (text : List Char) (texts : List (List Char)) :
    [','].intercalate (text :: texts) = text ++ commaed texts := by
  induction texts generalizing text with
  | nil => simp [List.intercalate, commaed]
  | cons next texts ih =>
    have hnext := ih next
    rw [List.intercalate] at hnext ⊢
    rw [List.intersperse_cons_cons, List.flatten_cons, List.flatten_cons, hnext]
    rfl

theorem encode_ascii_cons {c : Char} (hc : c.toNat < 0x80) (text : List Char) (s : Bytes) :
    encode (c :: text) ++ s = c.toUInt8 :: (encode text ++ s) := by
  rw [encode_cons, utf8EncodeChar_of_lt hc]
  rfl

theorem encode_commaed_cons (text : List Char) (texts : List (List Char)) (s : Bytes) :
    encode (commaed (text :: texts)) ++ s =
      ','.toUInt8 :: (encode text ++ (encode (commaed texts) ++ s)) := by
  rw [commaed, List.flatMap_cons, List.cons_append, encode_ascii_cons (by decide), encode_append,
    List.append_assoc]
  rfl

theorem endsNumber_of_head {b : UInt8} {s : Bytes} (hb : Digit.ofByte? b = none ∧
    b ≠ '.'.toUInt8 ∧ b ≠ 'e'.toUInt8 ∧ b ≠ 'E'.toUInt8) : EndsNumber (b :: s) := by
  intro c hc
  obtain rfl := Option.some_inj.mp hc
  exact hb

theorem endsNumber_blanks (u : Blanks) {s : Bytes} (h : EndsNumber s) :
    EndsNumber (encode u.chars ++ s) := by
  obtain ⟨chars, hblank⟩ := u
  cases chars with
  | nil => exact h
  | cons c chars =>
    obtain ⟨hform, -⟩ := encode_blank (hblank c List.mem_cons_self)
    rw [encode_cons, hform]
    apply endsNumber_of_head
    rcases hblank c List.mem_cons_self with rfl | rfl | rfl | rfl
    · decide
    · decide
    · decide
    · decide

/-! ### The texts of trees -/

section Texts

open Json.Tree

/-- What stands behind the opening bracket of a list and the blanks there: the items with commas
between them, the closing bracket, and `s`. -/
def listBody (items : List (Padded Tree)) (s : Bytes) : Bytes :=
  encode ([','].intercalate (itemTexts items)) ++ ']'.toUInt8 :: s

/-- What stands behind an item of a list: the other items with a comma in front of each, the closing
bracket, and `s`. -/
def listTail (items : List (Padded Tree)) (s : Bytes) : Bytes :=
  encode (commaed (itemTexts items)) ++ ']'.toUInt8 :: s

/-- What stands behind the opening brace of an object and the blanks there. -/
def objectBody (members : List (Member Tree)) (s : Bytes) : Bytes :=
  encode ([','].intercalate (memberTexts members)) ++ '\x7d'.toUInt8 :: s

/-- What stands behind a member of an object. -/
def objectTail (members : List (Member Tree)) (s : Bytes) : Bytes :=
  encode (commaed (memberTexts members)) ++ '\x7d'.toUInt8 :: s

/-- What stands behind the key of a member: the colon and the value among blanks, and `s`. -/
def memberTail (between behind after : Blanks) (t : Tree) (s : Bytes) : Bytes :=
  encode between.chars ++ ':'.toUInt8 ::
    (encode behind.chars ++ (encode t.chars ++ (encode after.chars ++ s)))

theorem encode_item (before after : Blanks) (t : Tree) (s : Bytes) :
    encode (before.chars ++ t.chars ++ after.chars) ++ s =
      encode before.chars ++ (encode t.chars ++ (encode after.chars ++ s)) := by
  simp

theorem encode_member (before between behind after : Blanks) (key : Pieces) (t : Tree) (s : Bytes) :
    encode (before.chars ++ key.quoted ++ between.chars ++
        ':' :: (behind.chars ++ t.chars ++ after.chars)) ++ s =
      encode before.chars ++ '"'.toUInt8 :: (encode key.chars ++ '"'.toUInt8 ::
        memberTail between behind after t s) := by
  have hcolon : String.utf8EncodeChar ':' = [':'.toUInt8] := by decide
  simp [memberTail, Pieces.quoted, encode_quotationMark, hcolon]

theorem listBody_nil (s : Bytes) : listBody [] s = ']'.toUInt8 :: s := by
  rw [listBody, itemTexts]
  rfl

theorem listBody_cons (before after : Blanks) (t : Tree) (items : List (Padded Tree)) (s : Bytes) :
    listBody (⟨before, t, after⟩ :: items) s =
      encode before.chars ++ (encode t.chars ++ (encode after.chars ++ listTail items s)) := by
  rw [listBody, listTail, itemTexts, intercalate_cons, encode_append, List.append_assoc,
    encode_item]

theorem listTail_nil (s : Bytes) : listTail [] s = ']'.toUInt8 :: s := by
  rw [listTail, itemTexts]
  rfl

theorem listTail_cons (before after : Blanks) (t : Tree) (items : List (Padded Tree)) (s : Bytes) :
    listTail (⟨before, t, after⟩ :: items) s = ','.toUInt8 ::
      (encode before.chars ++ (encode t.chars ++ (encode after.chars ++ listTail items s))) := by
  rw [listTail, listTail, itemTexts, encode_commaed_cons, encode_item]

theorem objectBody_nil (s : Bytes) : objectBody [] s = '\x7d'.toUInt8 :: s := by
  rw [objectBody, memberTexts]
  rfl

theorem objectBody_cons (before between behind after : Blanks) (key : Pieces) (t : Tree)
    (members : List (Member Tree)) (s : Bytes) :
    objectBody (⟨before, key, between, behind, t, after⟩ :: members) s =
      encode before.chars ++ '"'.toUInt8 :: (encode key.chars ++ '"'.toUInt8 ::
        memberTail between behind after t (objectTail members s)) := by
  rw [objectBody, objectTail, memberTexts, intercalate_cons, encode_append, List.append_assoc,
    encode_member]

theorem objectTail_nil (s : Bytes) : objectTail [] s = '\x7d'.toUInt8 :: s := by
  rw [objectTail, memberTexts]
  rfl

theorem objectTail_cons (before between behind after : Blanks) (key : Pieces) (t : Tree)
    (members : List (Member Tree)) (s : Bytes) :
    objectTail (⟨before, key, between, behind, t, after⟩ :: members) s = ','.toUInt8 ::
      (encode before.chars ++ '"'.toUInt8 :: (encode key.chars ++ '"'.toUInt8 ::
        memberTail between behind after t (objectTail members s))) := by
  rw [objectTail, objectTail, memberTexts, encode_commaed_cons, encode_member]

theorem encode_list (inner : Blanks) (items : List (Padded Tree)) (s : Bytes) :
    encode (Tree.list inner items).chars ++ s =
      '['.toUInt8 :: (encode inner.chars ++ listBody items s) := by
  have hclose : String.utf8EncodeChar ']' = [']'.toUInt8] := by decide
  rw [Tree.chars, encode_ascii_cons (by decide)]
  simp [listBody, hclose]

theorem encode_object (inner : Blanks) (members : List (Member Tree)) (s : Bytes) :
    encode (Tree.object inner members).chars ++ s =
      '\x7b'.toUInt8 :: (encode inner.chars ++ objectBody members s) := by
  have hclose : String.utf8EncodeChar '\x7d' = ['\x7d'.toUInt8] := by decide
  rw [Tree.chars, encode_ascii_cons (by decide)]
  simp [objectBody, hclose]

theorem encode_string (ps : Pieces) (s : Bytes) :
    encode (Tree.string ps).chars ++ s =
      '"'.toUInt8 :: (encode ps.chars ++ '"'.toUInt8 :: s) := by
  rw [Tree.chars, Pieces.quoted, encode_ascii_cons (by decide), encode_append, encode_cons,
    encode_quotationMark, List.append_assoc]
  rfl

theorem endsNumber_listTail (items : List (Padded Tree)) (s : Bytes) :
    EndsNumber (listTail items s) := by
  cases items with
  | nil =>
    rw [listTail_nil]
    exact endsNumber_of_head (by decide)
  | cons item items =>
    rw [listTail_cons]
    exact endsNumber_of_head (by decide)

theorem endsNumber_objectTail (members : List (Member Tree)) (s : Bytes) :
    EndsNumber (objectTail members s) := by
  cases members with
  | nil =>
    rw [objectTail_nil]
    exact endsNumber_of_head (by decide)
  | cons m members =>
    rw [objectTail_cons]
    exact endsNumber_of_head (by decide)

end Texts

/-! ### Trees are read -/

section Trees

open Json.Tree

variable (d : Nat)

theorem valueIn_null (s : Bytes) :
    outcome (valueIn embedded d (encode Tree.null.chars ++ s)) = some (.null, s) := by
  have hword : word ['u', 'l', 'l'] (encode ['u', 'l', 'l'] ++ s) = .ok s :=
    (word_eq_ok_iff (by decide)).mpr rfl
  rw [valueIn_eq, Tree.chars, encode_ascii_cons (by decide),
    outcome_valueOf _ (skipBlanks_of_not_isBlank _ (by decide)), if_pos rfl, hword]
  rfl

theorem valueIn_bool (b : Bool) (s : Bytes) :
    outcome (valueIn embedded d (encode (Tree.bool b).chars ++ s)) = some (.bool b, s) := by
  cases b with
  | true =>
    have hword : word ['r', 'u', 'e'] (encode ['r', 'u', 'e'] ++ s) = .ok s :=
      (word_eq_ok_iff (by decide)).mpr rfl
    rw [valueIn_eq, Tree.chars, encode_ascii_cons (by decide),
      outcome_valueOf _ (skipBlanks_of_not_isBlank _ (by decide)), if_neg (by decide), if_pos rfl,
      hword]
    rfl
  | false =>
    have hword : word ['a', 'l', 's', 'e'] (encode ['a', 'l', 's', 'e'] ++ s) = .ok s :=
      (word_eq_ok_iff (by decide)).mpr rfl
    rw [valueIn_eq, Tree.chars, encode_ascii_cons (by decide),
      outcome_valueOf _ (skipBlanks_of_not_isBlank _ (by decide)), if_neg (by decide),
      if_neg (by decide), if_pos rfl, hword]
    rfl

/-- What begins a number begins nothing else. -/
theorem ne_of_begins {b c : UInt8} (hb : Numeral.begins b = true) (hc : Numeral.begins c = false) :
    b ≠ c := by
  rintro rfl
  exact absurd (hb.symm.trans hc) (by decide)

theorem not_isBlank_of_begins {b : UInt8} (hb : Numeral.begins b = true) : isBlank b = false := by
  by_contra hblank
  rcases isBlank_iff.mp (Bool.of_not_eq_false hblank) with hc | hc | hc | hc
  · exact ne_of_begins hb (by decide) hc
  · exact ne_of_begins hb (by decide) hc
  · exact ne_of_begins hb (by decide) hc
  · exact ne_of_begins hb (by decide) hc

theorem valueIn_number (l : Literal) {s : Bytes} (hs : EndsNumber s) :
    outcome (valueIn embedded d (encode (Tree.number l).chars ++ s)) =
      some (.number l.numeral, s) := by
  obtain ⟨b, more, hform, hb⟩ := Numeral.exists_encode_literal l
  have hread := Numeral.read_literal l hs
  rw [Tree.chars, hform, List.cons_append] at *
  rw [valueIn_eq, outcome_valueOf _ (skipBlanks_of_not_isBlank _ (not_isBlank_of_begins hb)),
    if_neg (ne_of_begins hb (by decide)), if_neg (ne_of_begins hb (by decide)),
    if_neg (ne_of_begins hb (by decide)), if_pos hb, hread]
  rfl

theorem valueIn_string (ps : Pieces) (s : Bytes) :
    outcome (valueIn embedded d (encode (Tree.string ps).chars ++ s)) =
      ps.unescaped.map fun text ↦ (.string (String.ofList text), s) := by
  rw [valueIn_eq, encode_string, outcome_valueOf _ (skipBlanks_of_not_isBlank _ (by decide)),
    if_neg (by decide), if_neg (by decide), if_neg (by decide), if_neg (by decide), if_pos rfl,
    outcome_read_pieces, Option.map_map]
  rfl

theorem valueIn_list (inner : Blanks) (items : List (Padded Tree)) (s : Bytes) :
    outcome (valueIn embedded d (encode (Tree.list inner items).chars ++ s)) =
      (innerOf embedded d).bind fun item ↦
        (outcome (Json.list item (encode inner.chars ++ listBody items s))).map
          (Prod.map .list id) := by
  rw [valueIn_eq, encode_list, outcome_valueOf _ (skipBlanks_of_not_isBlank _ (by decide)),
    if_neg (by decide), if_neg (by decide), if_neg (by decide), if_neg (by decide),
    if_neg (by decide), if_pos rfl]

theorem valueIn_object (inner : Blanks) (members : List (Member Tree)) (s : Bytes) :
    outcome (valueIn embedded d (encode (Tree.object inner members).chars ++ s)) =
      (innerOf embedded d).bind fun item ↦
        outcome (Json.object embedded item (encode inner.chars ++ objectBody members s)) := by
  rw [valueIn_eq, encode_object, outcome_valueOf _ (skipBlanks_of_not_isBlank _ (by decide)),
    if_neg (by decide), if_neg (by decide), if_neg (by decide), if_neg (by decide),
    if_neg (by decide), if_neg (by decide), if_pos rfl]

/-- No text of a tree begins with a blank or a bracket that closes, and only that of a string begins
with a quotation mark. -/
theorem exists_encode_tree (t : Tree) :
    ∃ b s, encode t.chars = b :: s ∧ isBlank b = false ∧ b ≠ ']'.toUInt8 ∧
      (b = '"'.toUInt8 → ∃ ps, t = .string ps) := by
  cases t with
  | null => exact ⟨_, _, rfl, by decide, by decide, fun h ↦ absurd h (by decide)⟩
  | bool b =>
    cases b with
    | true => exact ⟨_, _, rfl, by decide, by decide, fun h ↦ absurd h (by decide)⟩
    | false => exact ⟨_, _, rfl, by decide, by decide, fun h ↦ absurd h (by decide)⟩
  | number l =>
    obtain ⟨b, s, hform, hb⟩ := Numeral.exists_encode_literal l
    exact ⟨b, s, hform, not_isBlank_of_begins hb, ne_of_begins hb (by decide),
      fun h ↦ absurd h (ne_of_begins hb (by decide))⟩
  | string ps => exact ⟨_, _, rfl, by decide, by decide, fun _ ↦ ⟨ps, rfl⟩⟩
  | list inner items =>
    have hform := encode_list inner items []
    rw [List.append_nil] at hform
    exact ⟨_, _, hform, by decide, by decide, fun h ↦ absurd h (by decide)⟩
  | object inner members =>
    have hform := encode_object inner members []
    rw [List.append_nil] at hform
    exact ⟨_, _, hform, by decide, by decide, fun h ↦ absurd h (by decide)⟩

/-! ### What stands behind blanks -/

section Blanks

variable {inner before between behind after : Blanks} {key : Pieces} {t : Tree} {s : Bytes}
  {items : List (Padded Tree)} {members : List (Member Tree)}

theorem skipBlanks_tree (t : Tree) (s : Bytes) :
    skipBlanks (encode t.chars ++ s) = encode t.chars ++ s := by
  obtain ⟨b, more, hform, hblank, -⟩ := exists_encode_tree t
  rw [hform]
  exact skipBlanks_of_not_isBlank _ hblank

theorem skipBlanks_listBody_nil :
    skipBlanks (encode inner.chars ++ listBody [] s) = ']'.toUInt8 :: s := by
  rw [skipBlanks_encode, listBody_nil, skipBlanks_of_not_isBlank _ (by decide)]

theorem skipBlanks_listBody_cons :
    skipBlanks (encode inner.chars ++ listBody (⟨before, t, after⟩ :: items) s) =
      encode t.chars ++ (encode after.chars ++ listTail items s) := by
  rw [skipBlanks_encode, listBody_cons, skipBlanks_encode, skipBlanks_tree]

theorem skipBlanks_listTail (items : List (Padded Tree)) (s : Bytes) :
    skipBlanks (listTail items s) = listTail items s := by
  cases items with
  | nil =>
    rw [listTail_nil]
    exact skipBlanks_of_not_isBlank _ (by decide)
  | cons item items =>
    rw [listTail_cons]
    exact skipBlanks_of_not_isBlank _ (by decide)

theorem skipBlanks_objectBody_nil :
    skipBlanks (encode inner.chars ++ objectBody [] s) = '\x7d'.toUInt8 :: s := by
  rw [skipBlanks_encode, objectBody_nil, skipBlanks_of_not_isBlank _ (by decide)]

theorem skipBlanks_objectBody_cons :
    skipBlanks (encode inner.chars ++
        objectBody (⟨before, key, between, behind, t, after⟩ :: members) s) =
      '"'.toUInt8 :: (encode key.chars ++ '"'.toUInt8 ::
        memberTail between behind after t (objectTail members s)) := by
  rw [skipBlanks_encode, objectBody_cons, skipBlanks_encode_cons _ _ (by decide)]

theorem skipBlanks_objectTail (members : List (Member Tree)) (s : Bytes) :
    skipBlanks (objectTail members s) = objectTail members s := by
  cases members with
  | nil =>
    rw [objectTail_nil]
    exact skipBlanks_of_not_isBlank _ (by decide)
  | cons m members =>
    rw [objectTail_cons]
    exact skipBlanks_of_not_isBlank _ (by decide)

end Blanks

/-! ### Items and members in a row -/

variable {d}

/-- In front of something that does not go on with it, a tree is taken off for its value if it is
not too deep, and otherwise nothing is taken. -/
def IsRead (embedded : Bytes → Except Error Value) (d : Nat) (t : Tree) : Prop :=
  ∀ {s final : Bytes} {v : Value}, EndsNumber s →
    (outcome (valueIn embedded d (encode t.chars ++ s)) = some (v, final) ↔
      t.depth ≤ d ∧ t.meaning (apartOf embedded) = some v ∧ s = final)

/-- Behind an item of a list, the other items are read up to the closing bracket. -/
def ItemsAreRead (embedded : Bytes → Except Error Value) (d : Nat) (items : List (Padded Tree)) :
    Prop :=
  ∀ {s final : Bytes} {xs : List Value},
    ItemsBehind (valueIn embedded d) (listTail items s) xs final ↔
      itemsDepth items ≤ d ∧ itemsMeaning (apartOf embedded) items = some xs ∧ s = final

/-- Behind a member of an object, the other members are read up to the closing brace. -/
def MembersAreRead (embedded : Bytes → Except Error Value) (d : Nat)
    (members : List (Member Tree)) : Prop :=
  ∀ {s final : Bytes} {entries : List (String × Value)},
    MembersBehind (valueIn embedded d) (objectTail members s) entries final ↔
      membersDepth members ≤ d ∧ membersMeaning (apartOf embedded) members = some entries ∧
        s = final

/-- An item and those behind it are read if it is and they are. -/
theorem items_iff {before after : Blanks} {t : Tree} {items : List (Padded Tree)}
    {rest final : Bytes} {xs : List Value} (ht : IsRead embedded d t)
    (hitems : ItemsAreRead embedded d items) :
    (∃ x s ys, outcome (valueIn embedded d (encode before.chars ++ (encode t.chars ++
        (encode after.chars ++ listTail items rest)))) = some (x, s) ∧
          ItemsBehind (valueIn embedded d) s ys final ∧ xs = x :: ys) ↔
      itemsDepth (⟨before, t, after⟩ :: items) ≤ d ∧
        itemsMeaning (apartOf embedded) (⟨before, t, after⟩ :: items) = some xs ∧ rest = final := by
  have hends : EndsNumber (encode after.chars ++ listTail items rest) :=
    endsNumber_blanks after (endsNumber_listTail items rest)
  rw [(passesBlanks_valueIn d).encode, itemsDepth, itemsMeaning, Nat.max_le]
  simp only [ht hends, Option.bind_eq_some_iff, Option.map_eq_some_iff]
  constructor
  · rintro ⟨x, s, ys, ⟨hdepth, hx, rfl⟩, hys, rfl⟩
    obtain ⟨hdepths, hmeaning, rfl⟩ := hitems.mp ((itemsBehind_blanks_iff after).mp hys)
    exact ⟨⟨hdepth, hdepths⟩, ⟨x, hx, ys, hmeaning, rfl⟩, rfl⟩
  · rintro ⟨⟨hdepth, hdepths⟩, ⟨x, hx, ys, hmeaning, rfl⟩, rfl⟩
    exact ⟨x, _, ys, ⟨hdepth, hx, rfl⟩,
      (itemsBehind_blanks_iff after).mpr (hitems.mpr ⟨hdepths, hmeaning, rfl⟩), rfl⟩

/-- A member is read from behind its key if its value is. -/
theorem valued_memberTail_iff {between behind after : Blanks} {t : Tree} {s rest : Bytes}
    {x : Value} (ht : IsRead embedded d t) (hs : EndsNumber s) :
    Valued (valueIn embedded d) (memberTail between behind after t s) x rest ↔
      t.depth ≤ d ∧ t.meaning (apartOf embedded) = some x ∧ encode after.chars ++ s = rest := by
  rw [← ht (endsNumber_blanks after hs), ← (passesBlanks_valueIn d).encode behind, Valued,
    memberTail, skipBlanks_encode, skipBlanks_of_not_isBlank _ (by decide)]
  simp

/-- A member from behind its key and those behind it are read if it is and they are. -/
theorem members_iff {between behind after : Blanks} {t : Tree} {members : List (Member Tree)}
    {rest final : Bytes} {x : Value} {entries : List (String × Value)}
    (ht : IsRead embedded d t) (hmembers : MembersAreRead embedded d members) :
    (∃ s, Valued (valueIn embedded d)
        (memberTail between behind after t (objectTail members rest)) x s ∧
          MembersBehind (valueIn embedded d) s entries final) ↔
      (t.depth ≤ d ∧ membersDepth members ≤ d) ∧ t.meaning (apartOf embedded) = some x ∧
        membersMeaning (apartOf embedded) members = some entries ∧ rest = final := by
  simp only [valued_memberTail_iff ht (endsNumber_objectTail members rest)]
  constructor
  · rintro ⟨s, ⟨hdepth, hx, rfl⟩, hentries⟩
    obtain ⟨hdepths, hmeaning, rfl⟩ := hmembers.mp ((membersBehind_blanks_iff after).mp hentries)
    exact ⟨⟨hdepth, hdepths⟩, hx, hmeaning, rfl⟩
  · rintro ⟨⟨hdepth, hdepths⟩, hx, hmeaning, rfl⟩
    exact ⟨_, ⟨hdepth, hx, rfl⟩,
      (membersBehind_blanks_iff after).mpr (hmembers.mpr ⟨hdepths, hmeaning, rfl⟩)⟩

/-- Behind a member, blanks and the end of an object follow if there are no more of them. -/
theorem skipBlanks_objectTail_iff {after : Blanks} {members : List (Member Tree)}
    {rest final : Bytes} :
    skipBlanks (encode after.chars ++ objectTail members rest) = '\x7d'.toUInt8 :: final ↔
      members = [] ∧ rest = final := by
  rw [skipBlanks_encode]
  cases members with
  | nil =>
    rw [objectTail_nil, skipBlanks_of_not_isBlank _ (by decide)]
    simp
  | cons m members =>
    rw [objectTail_cons, skipBlanks_of_not_isBlank _ (by decide)]
    simp [comma_ne_brace]

theorem soleText_eq_some_iff {t : Tree} {members : List (Member Tree)} {text : List Char} :
    soleText t members = some text ↔
      ∃ ps, t = .string ps ∧ members = [] ∧ Pieces.unescaped ps = some text := by
  unfold soleText
  split
  · simp
  · rename_i hne
    refine iff_of_false (by simp) ?_
    rintro ⟨ps, rfl, rfl, -⟩
    exact hne ps rfl rfl

/-- What is held under a key that is set apart is the text of a sole member. -/
theorem held_iff {held : List Char → Option Value} {between behind after : Blanks} {t : Tree}
    {members : List (Member Tree)} {rest final : Bytes} {v : Value} :
    Held held (memberTail between behind after t (objectTail members rest)) v final ↔
      (soleText t members).bind held = some v ∧ rest = final := by
  obtain ⟨b, more, hform, hblank, -, hstring⟩ := exists_encode_tree t
  rw [Held, memberTail, skipBlanks_encode, skipBlanks_of_not_isBlank _ (by decide)]
  constructor
  · rintro ⟨s₁, s₂, text, s₃, hs₁, hs₂, hread, hheld, hend⟩
    obtain ⟨-, rfl⟩ := List.cons.inj hs₁
    rw [skipBlanks_encode, hform, List.cons_append, skipBlanks_of_not_isBlank _ hblank] at hs₂
    obtain ⟨ps, rfl⟩ := hstring (List.cons.inj hs₂).1
    rw [← List.cons_append, ← hform, encode_string] at hs₂
    obtain ⟨-, rfl⟩ := List.cons.inj hs₂
    rw [outcome_read_pieces, Option.map_eq_some_iff] at hread
    obtain ⟨unescaped, hunescaped, heq⟩ := hread
    obtain ⟨rfl, rfl⟩ := Prod.mk.inj heq
    obtain ⟨hnil, rfl⟩ := skipBlanks_objectTail_iff.mp hend
    rw [String.toList_ofList] at hheld
    exact ⟨Option.bind_eq_some_iff.mpr
      ⟨unescaped, soleText_eq_some_iff.mpr ⟨ps, rfl, hnil, hunescaped⟩, hheld⟩, rfl⟩
  · rintro ⟨hbind, rfl⟩
    obtain ⟨text, hsole, hheld⟩ := Option.bind_eq_some_iff.mp hbind
    obtain ⟨ps, rfl, rfl, hunescaped⟩ := soleText_eq_some_iff.mp hsole
    refine ⟨_, encode ps.chars ++ '"'.toUInt8 :: (encode after.chars ++ objectTail [] rest),
      String.ofList text, encode after.chars ++ objectTail [] rest, rfl, ?_, ?_, ?_,
      skipBlanks_objectTail_iff.mpr ⟨rfl, rfl⟩⟩
    · rw [skipBlanks_encode, encode_string, skipBlanks_of_not_isBlank _ (by decide)]
    · rw [outcome_read_pieces, hunescaped]
      rfl
    · rw [String.toList_ofList]
      exact hheld

/-- What an object is from behind its first key. -/
theorem keyed_iff {key : String} {between behind after : Blanks} {t : Tree}
    {members : List (Member Tree)} {rest final : Bytes} {v : Value}
    (ht : IsRead embedded d t) (hmembers : MembersAreRead embedded d members) :
    Keyed embedded (valueIn embedded d) key
        (memberTail between behind after t (objectTail members rest)) v final ↔
      (t.depth ≤ d ∧ membersDepth members ≤ d) ∧
        (match apartOf embedded key with
        | some held => (soleText t members).bind held
        | none => (t.meaning (apartOf embedded)).bind fun v ↦
            (membersMeaning (apartOf embedded) members).map fun entries ↦
              .ofMembers ((key, v) :: entries)) = some v ∧ rest = final := by
  cases hkey : apartOf embedded key with
  | none =>
    rw [keyed_of_not_apart hkey]
    simp only [Option.bind_eq_some_iff, Option.map_eq_some_iff]
    constructor
    · rintro ⟨x, s, entries, hvalue, hentries, rfl⟩
      obtain ⟨hdepth, hx, hmeaning, rfl⟩ := (members_iff ht hmembers).mp ⟨s, hvalue, hentries⟩
      exact ⟨hdepth, ⟨x, hx, entries, hmeaning, rfl⟩, rfl⟩
    · rintro ⟨hdepth, ⟨x, hx, entries, hmeaning, rfl⟩, rfl⟩
      obtain ⟨s, hvalue, hentries⟩ := (members_iff ht hmembers).mpr ⟨hdepth, hx, hmeaning, rfl⟩
      exact ⟨x, s, entries, hvalue, hentries, rfl⟩
  | some held =>
    rw [keyed_of_apart hkey, held_iff]
    refine ⟨fun h ↦ ⟨?_, h⟩, fun h ↦ h.2⟩
    obtain ⟨text, hsole, -⟩ := Option.bind_eq_some_iff.mp h.1
    obtain ⟨ps, rfl, rfl, -⟩ := soleText_eq_some_iff.mp hsole
    exact ⟨Nat.zero_le d, Nat.zero_le d⟩

theorem list_nil (inner : Blanks) (s : Bytes) :
    outcome (Json.list (valueIn embedded d) (encode inner.chars ++ listBody [] s)) =
      some ([], s) := by
  exact (outcome_list (passesBlanks_valueIn d)).mpr (Or.inl ⟨skipBlanks_listBody_nil, rfl⟩)

theorem list_cons_iff {inner before after : Blanks} {t : Tree} {items : List (Padded Tree)}
    {s final : Bytes} {xs : List Value} :
    outcome (Json.list (valueIn embedded d)
        (encode inner.chars ++ listBody (⟨before, t, after⟩ :: items) s)) = some (xs, final) ↔
      ∃ x s' ys, outcome (valueIn embedded d (encode before.chars ++ (encode t.chars ++
        (encode after.chars ++ listTail items s)))) = some (x, s') ∧
          ItemsBehind (valueIn embedded d) s' ys final ∧ xs = x :: ys := by
  obtain ⟨b, more, hform, -, hbracket, -⟩ := exists_encode_tree t
  rw [outcome_list (passesBlanks_valueIn d), (passesBlanks_valueIn d).encode inner,
    skipBlanks_listBody_cons, listBody_cons]
  refine or_iff_right ?_
  rintro ⟨hend, -⟩
  rw [hform] at hend
  exact hbracket (List.cons.inj hend).1

/-- A list is read if the items in it are. -/
theorem list_iff {inner : Blanks} {items : List (Padded Tree)} {s final : Bytes} {v : Value}
    (hitems : ∀ {xs : List Value},
      outcome (Json.list (valueIn embedded d) (encode inner.chars ++ listBody items s)) =
          some (xs, final) ↔
        itemsDepth items ≤ d ∧ itemsMeaning (apartOf embedded) items = some xs ∧ s = final) :
    outcome (valueIn embedded (d + 1) (encode (Tree.list inner items).chars ++ s)) =
        some (v, final) ↔
      (Tree.list inner items).depth ≤ d + 1 ∧
        (Tree.list inner items).meaning (apartOf embedded) = some v ∧ s = final := by
  rw [valueIn_list, innerOf, Option.bind_some, map_eq_some_iff, Tree.depth, Tree.meaning,
    Option.map_eq_some_iff, Nat.add_le_add_iff_right]
  constructor
  · rintro ⟨xs, hxs, rfl⟩
    obtain ⟨hdepth, hmeaning, rfl⟩ := hitems.mp hxs
    exact ⟨hdepth, ⟨xs, hmeaning, rfl⟩, rfl⟩
  · rintro ⟨hdepth, ⟨xs, hmeaning, rfl⟩, rfl⟩
    exact ⟨xs, hitems.mpr ⟨hdepth, hmeaning, rfl⟩, rfl⟩

theorem object_nil (inner : Blanks) (s : Bytes) :
    outcome (Json.object embedded (valueIn embedded d) (encode inner.chars ++ objectBody [] s)) =
      some (.object [], s) := by
  exact outcome_object_brace skipBlanks_objectBody_nil

theorem object_cons_iff {inner before between behind after : Blanks} {key : Pieces} {t : Tree}
    {members : List (Member Tree)} {s final : Bytes} {v : Value} :
    outcome (Json.object embedded (valueIn embedded d) (encode inner.chars ++
        objectBody (⟨before, key, between, behind, t, after⟩ :: members) s)) = some (v, final) ↔
      ∃ text, key.unescaped = some text ∧ Keyed embedded (valueIn embedded d) (String.ofList text)
        (memberTail between behind after t (objectTail members s)) v final := by
  rw [outcome_object_mark_iff skipBlanks_objectBody_cons, outcome_read_pieces]
  constructor
  · rintro ⟨_, _, hkey, h⟩
    obtain ⟨text, htext, heq⟩ := Option.map_eq_some_iff.mp hkey
    obtain ⟨rfl, rfl⟩ := Prod.mk.inj heq
    exact ⟨text, htext, h⟩
  · rintro ⟨text, htext, h⟩
    exact ⟨_, _, by rw [htext]; rfl, h⟩

variable (d)

mutual

/-- A tree that is not too deep is taken off a text for its value. -/
theorem isRead (t : Tree) (d : Nat) : IsRead embedded d t := by
  intro s final v hs
  match t, d with
  | .null, d => simp [valueIn_null, Tree.depth, Tree.meaning]
  | .bool b, d => simp [valueIn_bool, Tree.depth, Tree.meaning]
  | .number l, d => simp [valueIn_number d l hs, Tree.depth, Tree.meaning]
  | .string ps, d =>
    rw [valueIn_string, Tree.meaning]
    cases ps.unescaped with
    | none => simp
    | some text => simp [Tree.depth]
  | .list inner items, 0 => simp [valueIn_list, innerOf, Tree.depth]
  | .list inner [], d + 1 =>
    apply list_iff
    rw [list_nil]
    simp [itemsDepth, itemsMeaning]
  | .list inner (⟨before, t, after⟩ :: items), d + 1 =>
    apply list_iff
    intro xs
    rw [list_cons_iff]
    exact items_iff (isRead t d) (itemsAreRead items d)
  | .object inner members, 0 => simp [valueIn_object, innerOf, Tree.depth]
  | .object inner [], d + 1 =>
    rw [valueIn_object, innerOf, Option.bind_some, object_nil]
    simp [Tree.depth, Tree.meaning, membersDepth]
  | .object inner (⟨before, key, between, behind, t, after⟩ :: members), d + 1 =>
    rw [valueIn_object, innerOf, Option.bind_some, object_cons_iff, Tree.depth, membersDepth,
      Nat.add_le_add_iff_right, Nat.max_le, Tree.meaning]
    simp only [keyed_iff (isRead t d) (membersAreRead members d), Option.bind_eq_some_iff]
    constructor
    · rintro ⟨text, hkey, hdepth, hmeaning, rfl⟩
      exact ⟨hdepth, ⟨text, hkey, hmeaning⟩, rfl⟩
    · rintro ⟨hdepth, ⟨text, hkey, hmeaning⟩, rfl⟩
      exact ⟨text, hkey, hdepth, hmeaning, rfl⟩

theorem itemsAreRead (items : List (Padded Tree)) (d : Nat) : ItemsAreRead embedded d items := by
  intro s final xs
  match items with
  | [] =>
    rw [listTail_nil, itemsBehind_bracket_iff (skipBlanks_of_not_isBlank s (by decide))]
    simp [itemsDepth, itemsMeaning, and_comm, eq_comm]
  | ⟨before, t, after⟩ :: items =>
    rw [listTail_cons, itemsBehind_comma_iff (skipBlanks_of_not_isBlank _ (by decide))]
    exact items_iff (isRead t d) (itemsAreRead items d)

theorem membersAreRead (members : List (Member Tree)) (d : Nat) :
    MembersAreRead embedded d members := by
  intro s final entries
  match members with
  | [] =>
    rw [objectTail_nil, membersBehind_brace_iff (skipBlanks_of_not_isBlank s (by decide))]
    simp [membersDepth, membersMeaning, and_comm, eq_comm]
  | ⟨before, key, between, behind, t, after⟩ :: members =>
    rw [objectTail_cons, membersBehind_comma_iff (skipBlanks_of_not_isBlank _ (by decide)),
      skipBlanks_encode, skipBlanks_of_not_isBlank _ (by decide), membersDepth, Nat.max_le,
      membersMeaning]
    simp only [Option.bind_eq_some_iff, Option.map_eq_some_iff]
    constructor
    · rintro ⟨s₂, name, s₃, x, s₄, more, hmark, hkey, hvalue, hmore, rfl⟩
      obtain ⟨-, rfl⟩ := List.cons.inj hmark
      rw [outcome_read_pieces, Option.map_eq_some_iff] at hkey
      obtain ⟨text, htext, heq⟩ := hkey
      obtain ⟨rfl, rfl⟩ := Prod.mk.inj heq
      obtain ⟨hdepth, hx, hmeaning, rfl⟩ :=
        (members_iff (isRead t d) (membersAreRead members d)).mp ⟨s₄, hvalue, hmore⟩
      exact ⟨hdepth, ⟨text, htext, x, hx, more, hmeaning, rfl⟩, rfl⟩
    · rintro ⟨hdepth, ⟨text, htext, x, hx, more, hmeaning, rfl⟩, rfl⟩
      obtain ⟨s₄, hvalue, hmore⟩ :=
        (members_iff (isRead t d) (membersAreRead members d)).mpr ⟨hdepth, hx, hmeaning, rfl⟩
      exact ⟨_, String.ofList text, _, x, s₄, more, rfl,
        by rw [outcome_read_pieces, htext]; rfl, hvalue, hmore, rfl⟩

end

/-- A list where a list has to stand is read like one where any value may stand. -/
theorem listFor_chars_iff {u inner : Blanks} {items : List (Padded Tree)} {s final : Bytes}
    {xs : List Value} (hs : EndsNumber s) :
    outcome (listFor (valueIn embedded d) (encode u.chars ++
        (encode (Tree.list inner items).chars ++ s))) = some (xs, final) ↔
      (Tree.list inner items).depth ≤ d + 1 ∧
        (Tree.list inner items).meaning (apartOf embedded) = some (.list xs) ∧ s = final := by
  rw [← isRead _ (d + 1) hs, valueIn_list, innerOf, Option.bind_some, map_eq_some_iff,
    outcome_listFor_iff, encode_list, skipBlanks_encode, skipBlanks_of_not_isBlank _ (by decide)]
  constructor
  · rintro ⟨after, hafter, h⟩
    obtain ⟨-, rfl⟩ := List.cons.inj hafter
    exact ⟨xs, h, rfl⟩
  · rintro ⟨ys, h, heq⟩
    obtain rfl := Value.list.inj heq
    exact ⟨_, rfl, h⟩

end Trees

end Intake.Json
