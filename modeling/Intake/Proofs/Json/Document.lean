import Intake.Proofs.Json.Written

/-!
# The language of documents

A whole text is a document if it is a tree between blanks that is not too deep and that has a value
(`document_eq_ok_iff`). What is held under the key for texts is a document again, with a depth of
its own. It is shorter than the text it is held in, since no escape is shorter than what it stands
for, so the guard by which `document` comes to an end never turns a text away (`meaning_congr`).
-/

set_option autoImplicit false
set_option relaxedAutoImplicit false

namespace Intake.Json

open Utf8 Json.Tree

/-! ### Whole texts -/

theorem skipBlanks_eq_nil_iff {s : Bytes} :
    skipBlanks s = [] ↔ ∃ u : Blanks, s = encode u.chars := by
  constructor
  · intro h
    obtain ⟨u, hu⟩ := exists_blanks s
    rw [h, List.append_nil] at hu
    exact ⟨u, hu⟩
  · rintro ⟨u, rfl⟩
    have hnil := skipBlanks_encode u []
    rw [List.append_nil] at hnil
    exact hnil

theorem whole_eq_ok_iff {α : Type} {reader : Reader α} {text : Bytes} {x : α} :
    whole reader text = .ok x ↔
      ∃ w : Blanks, outcome (reader text) = some (x, encode w.chars) := by
  unfold whole
  cases reader text with
  | error e => simp
  | ok t =>
    dsimp only
    split
    · rename_i hnil
      obtain ⟨w, hw⟩ := skipBlanks_eq_nil_iff.mp hnil
      simp only [outcome_ok, hw]
      constructor
      · intro h
        exact ⟨w, by rw [Except.ok.inj h]⟩
      · rintro ⟨w, h⟩
        rw [(Prod.mk.inj (Option.some_inj.mp h)).1]
    · rename_i rest hrest
      refine iff_of_false (by simp) ?_
      rintro ⟨w, h⟩
      have hnil := skipBlanks_eq_nil_iff.mpr ⟨w, (Prod.mk.inj (Option.some_inj.mp h)).2⟩
      exact hrest hnil

theorem endsNumber_encode (u : Blanks) : EndsNumber (encode u.chars) := by
  have hends := endsNumber_blanks u Numeral.endsNumber_nil
  rwa [List.append_nil] at hends

section Whole

variable {embedded : Bytes → Except Error Value} {d : Nat} {v : Value}

/-- A tree between blanks is a whole text that is read if it is not too deep and has a value. -/
theorem whole_valueIn_chars_iff {u w : Blanks} {t : Tree} :
    whole (valueIn embedded d) (encode (u.chars ++ t.chars ++ w.chars)) = .ok v ↔
      t.depth ≤ d ∧ t.meaning (apartOf embedded) = some v := by
  rw [whole_eq_ok_iff, encode_append, encode_append, List.append_assoc,
    (passesBlanks_valueIn d).encode]
  simp only [isRead t d (endsNumber_encode w)]
  exact ⟨fun ⟨_, hdepth, hmeaning, _⟩ ↦ ⟨hdepth, hmeaning⟩,
    fun ⟨hdepth, hmeaning⟩ ↦ ⟨w, hdepth, hmeaning, rfl⟩⟩

/-- Every whole text that is read as a value is a tree between blanks. -/
theorem exists_tree_of_whole {text : Bytes} (h : whole (valueIn embedded d) text = .ok v) :
    ∃ (u : Blanks) (t : Tree) (w : Blanks), text = encode (u.chars ++ t.chars ++ w.chars) := by
  obtain ⟨w, hw⟩ := whole_eq_ok_iff.mp h
  obtain ⟨u, t, rfl, -⟩ := written_valueIn d hw
  exact ⟨u, t, w, by simp⟩

end Whole

/-! ### Held texts -/

theorem length_short (e : Short) :
    (String.utf8EncodeChar e.char).length ≤ (encode (Piece.short e).chars).length := by
  cases e with
  | _ => decide

theorem length_unit (u : HexUnit) : (encode (Piece.unit u).chars).length = 6 := by
  simp [encode_unit, encode_hexUnit]

theorem length_utf8EncodeChar_le (c : Char) : (String.utf8EncodeChar c).length ≤ 4 := by
  rw [String.length_utf8EncodeChar]
  exact c.utf8Size_le_four

/-- No text is longer than the pieces that it is written in. -/
theorem length_unescaped_le {ps : Pieces} {text : List Char} (h : ps.unescaped = some text) :
    (encode text).length ≤ (encode ps.chars).length := by
  fun_induction Pieces.unescaped ps generalizing text with
  | case1 =>
    obtain rfl := Option.some_inj.mp h
    exact Nat.le_refl _
  | case2 c hc ps ih =>
    obtain ⟨text, htext, rfl⟩ := Option.map_eq_some_iff.mp h
    have hle := ih htext
    simp [encode_pieces_cons, Piece.chars, hle]
  | case3 e ps ih =>
    obtain ⟨text, htext, rfl⟩ := Option.map_eq_some_iff.mp h
    have hle := ih htext
    have hshort := length_short e
    rw [encode_cons, encode_pieces_cons, List.length_append, List.length_append]
    omega
  | case4 => simp at h
  | case5 u hlow hhigh low ps hlow' ih =>
    obtain ⟨text, htext, rfl⟩ := Option.map_eq_some_iff.mp h
    have hle := ih htext
    have hchar := length_utf8EncodeChar_le (Escape.paired u.value low.value)
    rw [encode_cons, encode_pieces_cons, encode_pieces_cons, List.length_append, List.length_append,
      List.length_append, length_unit, length_unit]
    omega
  | case6 => simp at h
  | case7 => simp at h
  | case8 u ps hlow hhigh ih =>
    obtain ⟨text, htext, rfl⟩ := Option.map_eq_some_iff.mp h
    have hle := ih htext
    have hchar := length_utf8EncodeChar_le (Char.ofNat u.value)
    rw [encode_cons, encode_pieces_cons, List.length_append, List.length_append, length_unit]
    omega

/-! ### Parts of trees -/

theorem length_list_cons (inner before after : Blanks) (t : Tree) (items : List (Padded Tree)) :
    (encode t.chars).length + (encode (commaed (itemTexts items))).length ≤
      (encode (Tree.list inner (⟨before, t, after⟩ :: items)).chars).length := by
  simp only [Tree.chars, itemTexts, intercalate_cons, encode_cons, encode_append,
    List.length_append]
  omega

theorem length_object_cons (inner before between behind after : Blanks) (key : Pieces) (t : Tree)
    (members : List (Member Tree)) :
    (encode t.chars).length + (encode (commaed (memberTexts members))).length ≤
      (encode (Tree.object inner
        (⟨before, key, between, behind, t, after⟩ :: members)).chars).length := by
  simp only [Tree.chars, memberTexts, intercalate_cons, encode_cons, encode_append,
    List.length_append]
  omega

theorem length_items_cons (before after : Blanks) (t : Tree) (items : List (Padded Tree)) :
    (encode t.chars).length + (encode (commaed (itemTexts items))).length ≤
      (encode (commaed (itemTexts (⟨before, t, after⟩ :: items)))).length := by
  simp only [itemTexts, commaed, List.flatMap_cons, List.cons_append, encode_cons, encode_append,
    List.length_append]
  omega

theorem length_members_cons (before between behind after : Blanks) (key : Pieces) (t : Tree)
    (members : List (Member Tree)) :
    (encode t.chars).length + (encode (commaed (memberTexts members))).length ≤
      (encode (commaed (memberTexts
        (⟨before, key, between, behind, t, after⟩ :: members)))).length := by
  simp only [memberTexts, commaed, List.flatMap_cons, List.cons_append, encode_cons, encode_append,
    List.length_append]
  omega

theorem length_soleText_lt {t : Tree} {members : List (Member Tree)} {text : List Char}
    (h : soleText t members = some text) : (encode text).length < (encode t.chars).length := by
  obtain ⟨ps, rfl, -, hps⟩ := soleText_eq_some_iff.mp h
  have hle := length_unescaped_le hps
  have hform := congrArg List.length (encode_string ps [])
  rw [List.append_nil] at hform
  rw [hform, List.length_cons, List.length_append, List.length_cons]
  omega

section Held

variable {first second : Bytes → Except Error Value} {n : Nat}

/-- Under a key that is set apart, texts that are held in a short tree are held alike. -/
theorem apartOf_congr (h : ∀ inner : Bytes, inner.length < n → first inner = second inner)
    (key : String) :
    apartOf first key = none ∧ apartOf second key = none ∨
      ∃ held held', apartOf first key = some held ∧ apartOf second key = some held' ∧
        ∀ text, (encode text).length < n → held text = held' text := by
  unfold apartOf
  split_ifs with hnumber htext
  · exact Or.inr ⟨_, _, rfl, rfl, fun _ _ ↦ rfl⟩
  · exact Or.inr ⟨_, _, rfl, rfl, fun text htext ↦ congrArg Except.toOption (h _ htext)⟩
  · exact Or.inl ⟨rfl, rfl⟩

mutual

/-- The value of a tree depends only on what texts stand for that are shorter than its own. -/
theorem meaning_congr (h : ∀ inner : Bytes, inner.length < n → first inner = second inner)
    (t : Tree) (ht : (encode t.chars).length ≤ n) :
    t.meaning (apartOf first) = t.meaning (apartOf second) := by
  match t with
  | .null => simp only [Tree.meaning]
  | .bool b => simp only [Tree.meaning]
  | .number l => simp only [Tree.meaning]
  | .string ps => simp only [Tree.meaning]
  | .list inner [] => simp only [Tree.meaning, itemsMeaning]
  | .list inner (⟨before, t, after⟩ :: items) =>
    have hlength := length_list_cons inner before after t items
    rw [Tree.meaning, Tree.meaning, itemsMeaning, itemsMeaning, meaning_congr h t (by omega),
      itemsMeaning_congr h items (by omega)]
  | .object inner [] => simp only [Tree.meaning]
  | .object inner (⟨before, key, between, behind, t, after⟩ :: members) =>
    have hlength := length_object_cons inner before between behind after key t members
    rw [Tree.meaning, Tree.meaning]
    refine congrArg _ (funext fun key ↦ ?_)
    obtain ⟨hnone, hnone'⟩ | ⟨held, held', hheld, hheld', hsame⟩ :=
      apartOf_congr h (String.ofList key)
    · rw [hnone, hnone', meaning_congr h t (by omega), membersMeaning_congr h members (by omega)]
    · rw [hheld, hheld']
      dsimp only
      cases hsole : soleText t members with
      | none => rfl
      | some text =>
        have hlt := length_soleText_lt hsole
        exact hsame text (by omega)

theorem itemsMeaning_congr (h : ∀ inner : Bytes, inner.length < n → first inner = second inner)
    (items : List (Padded Tree)) (hitems : (encode (commaed (itemTexts items))).length ≤ n) :
    itemsMeaning (apartOf first) items = itemsMeaning (apartOf second) items := by
  match items with
  | [] => simp only [itemsMeaning]
  | ⟨before, t, after⟩ :: items =>
    have hlength := length_items_cons before after t items
    rw [itemsMeaning, itemsMeaning, meaning_congr h t (by omega),
      itemsMeaning_congr h items (by omega)]

theorem membersMeaning_congr (h : ∀ inner : Bytes, inner.length < n → first inner = second inner)
    (members : List (Member Tree))
    (hmembers : (encode (commaed (memberTexts members))).length ≤ n) :
    membersMeaning (apartOf first) members = membersMeaning (apartOf second) members := by
  match members with
  | [] => simp only [membersMeaning]
  | ⟨before, key, between, behind, t, after⟩ :: members =>
    have hlength := length_members_cons before between behind after key t members
    rw [membersMeaning, membersMeaning, meaning_congr h t (by omega),
      membersMeaning_congr h members (by omega)]

end

end Held

/-- A tree between blanks is a document if it is not too deep and has a value. -/
theorem document_chars_iff {u w : Blanks} {t : Tree} {v : Value} :
    document (encode (u.chars ++ t.chars ++ w.chars)) = .ok v ↔
      t.depth ≤ depthLimit ∧ t.meaning (apartOf document) = some v := by
  have hheld : ∀ inner : Bytes, inner.length < (encode (u.chars ++ t.chars ++ w.chars)).length →
      (if _h : inner.length < (encode (u.chars ++ t.chars ++ w.chars)).length then document inner
        else .error (.ofFault inner (.here .depth inner))) = document inner :=
    fun inner hinner ↦ dif_pos hinner
  have hlength : (encode t.chars).length ≤ (encode (u.chars ++ t.chars ++ w.chars)).length := by
    rw [encode_append, encode_append, List.length_append, List.length_append]
    omega
  rw [document, whole_valueIn_chars_iff, meaning_congr hheld t hlength]

/-- The documents are the trees between blanks that are not too deep and that have a value. -/
theorem document_eq_ok_iff {text : Bytes} {v : Value} :
    document text = .ok v ↔ ∃ (u : Blanks) (t : Tree) (w : Blanks),
      text = encode (u.chars ++ t.chars ++ w.chars) ∧ t.depth ≤ depthLimit ∧
        t.meaning (apartOf document) = some v := by
  constructor
  · intro h
    have hwhole := h
    rw [document] at hwhole
    obtain ⟨u, t, w, rfl⟩ := exists_tree_of_whole hwhole
    exact ⟨u, t, w, rfl, document_chars_iff.mp h⟩
  · rintro ⟨u, t, w, rfl, h⟩
    exact document_chars_iff.mpr h

end Intake.Json
