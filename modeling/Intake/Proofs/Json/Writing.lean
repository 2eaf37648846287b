import Intake.Json.Value.Printer
import Intake.Proofs.Json.Means

/-!
# Writing a value as a tree

The text of a value is the text of one of its trees, `Tree.ofValue`, in which no blank stands and
only those characters are escaped that have to be (`toList_onto`, `bytes_eq`). So what is written is
always a text of the grammar, and whether it is read back is a matter of that tree alone.
-/

set_option autoImplicit false
set_option relaxedAutoImplicit false

namespace Intake.Json

open Utf8

/-! ### Strings -/

/-- The piece that a character is written as. -/
def Piece.ofChar (c : Char) : Piece :=
  if hmark : c = '"' then .short .quotationMark
  else if hescape : c = '\\' then .short .reverseSolidus
  else if c = '\x08' then .short .backspace
  else if c = '\t' then .short .tab
  else if c = '\n' then .short .lineFeed
  else if c = '\x0c' then .short .formFeed
  else if c = '\r' then .short .carriageReturn
  else if hcontrol : c.toNat < 0x20 then
    .unit ⟨⟨0, false⟩, ⟨0, false⟩, ⟨⟨c.toNat / 16, by omega⟩, false⟩,
      ⟨⟨c.toNat % 16, by omega⟩, false⟩⟩
  else .plain c ⟨Nat.not_lt.mp hcontrol, hmark, hescape⟩

def Pieces.ofText (text : List Char) : Pieces :=
  text.map Piece.ofChar

theorem chars_ofChar (c : Char) : (Piece.ofChar c).chars = Quote.char c := by
  unfold Piece.ofChar
  split_ifs with h1 h2 h3 h4 h5 h6 h7 h8
  · rw [h1]; rfl
  · rw [h2]; rfl
  · rw [h3]; rfl
  · rw [h4]; rfl
  · rw [h5]; rfl
  · rw [h6]; rfl
  · rw [h7]; rfl
  · rw [Quote.char.eq_8 c h1 h2 h3 h4 h5 h6 h7, if_pos h8]
    rfl
  · rw [Quote.char.eq_8 c h1 h2 h3 h4 h5 h6 h7, if_neg h8]
    rfl

/-- A character is read back from the piece that it is written as. -/
theorem unescaped_ofChar (c : Char) (ps : Pieces) :
    Pieces.unescaped (Piece.ofChar c :: ps) = ps.unescaped.map (c :: ·) := by
  unfold Piece.ofChar
  split_ifs with h1 h2 h3 h4 h5 h6 h7 h8
  · rw [h1]; rfl
  · rw [h2]; rfl
  · rw [h3]; rfl
  · rw [h4]; rfl
  · rw [h5]; rfl
  · rw [h6]; rfl
  · rw [h7]; rfl
  · have hvalue : HexUnit.value ⟨⟨0, false⟩, ⟨0, false⟩, ⟨⟨c.toNat / 16, by omega⟩, false⟩,
        ⟨⟨c.toNat % 16, by omega⟩, false⟩⟩ = c.toNat := by
      simp only [HexUnit.value]
      omega
    rw [Pieces.unescaped.eq_def]
    dsimp only
    have hlow : Escape.isLow c.toNat = false := by
      simp only [Escape.isLow, Bool.and_eq_false_iff, decide_eq_false_iff_not]
      omega
    have hhigh : Escape.isHigh c.toNat = false := by
      simp only [Escape.isHigh, Bool.and_eq_false_iff, decide_eq_false_iff_not]
      omega
    rw [hvalue, if_neg (by simp [hlow]), if_neg (by simp [hhigh]), Char.ofNat_toNat]
  · rfl

theorem unescaped_ofText (text : List Char) : (Pieces.ofText text).unescaped = some text := by
  induction text with
  | nil => rfl
  | cons c text ih =>
    rw [Pieces.ofText, List.map_cons, unescaped_ofChar]
    exact congrArg _ ih

theorem chars_ofText (text : List Char) :
    (Pieces.ofText text).chars = text.flatMap Quote.char := by
  rw [Pieces.ofText, Pieces.chars, List.flatMap_map]
  exact congrArg (List.flatMap · text) (funext chars_ofChar)

theorem toList_pushAll (out : String) (more : List Char) :
    (more.foldl String.push out).toList = out.toList ++ more := by
  induction more generalizing out with
  | nil => simp
  | cons c more ih =>
    rw [List.foldl_cons, ih, String.toList_push, List.append_assoc]
    rfl

theorem toList_quoteOnto (out text : String) :
    (Quote.onto out text).toList = out.toList ++ (Pieces.ofText text.toList).quoted := by
  have hfold : ∀ (cs : List Char) (out : String),
      (cs.foldl (fun out c ↦ (Quote.char c).foldl String.push out) out).toList =
        out.toList ++ cs.flatMap Quote.char := by
    intro cs
    induction cs with
    | nil => simp
    | cons c cs ih =>
      intro out
      rw [List.foldl_cons, ih, toList_pushAll, List.flatMap_cons, List.append_assoc]
  rw [Quote.onto, String.toList_push, hfold, String.toList_push, Pieces.quoted, chars_ofText]
  simp

/-! ### Numbers -/

/-- A number as it is written out. -/
def Literal.ofNumeral (n : Numeral) : Literal where
  negative := n.negative
  whole := n.whole
  fraction := n.fraction
  exponent := n.exponent.map fun e ↦ ⟨false, some e.negative, e.digits⟩
  no_leading_zero := n.no_leading_zero

theorem numeral_ofNumeral (n : Numeral) : (Literal.ofNumeral n).numeral = n := by
  obtain ⟨negative, whole, fraction, exponent, h⟩ := n
  cases exponent with
  | none => rfl
  | some e => rfl

theorem chars_ofNumeral (n : Numeral) : (Literal.ofNumeral n).chars = n.chars := by
  obtain ⟨negative, whole, fraction, exponent, h⟩ := n
  cases exponent with
  | none => rfl
  | some e =>
    obtain ⟨sign, digits⟩ := e
    cases sign with
    | true => rfl
    | false => rfl

/-- A number that is written out as it was written before: its exponent, if it has one, has a small
letter and a sign. -/
def Literal.Kept (l : Literal) : Prop :=
  ∀ e ∈ l.exponent, e.capital = false ∧ e.sign.isSome

theorem chars_kept_iff (e : WrittenExponent) :
    e.kept.chars = e.chars ↔ e.capital = false ∧ e.sign.isSome := by
  have hletter : 'e' ≠ 'E' := by decide
  obtain ⟨capital, sign, digits⟩ := e
  match capital, sign with
  | false, some false => exact iff_of_true rfl ⟨rfl, rfl⟩
  | false, some true => exact iff_of_true rfl ⟨rfl, rfl⟩
  | true, _ => exact iff_of_false (fun h ↦ hletter (List.cons.inj h).1) (by simp)
  | false, none =>
    refine iff_of_false (fun h ↦ ?_) (by simp)
    have hlength := congrArg List.length h
    simp [WrittenExponent.kept, WrittenExponent.chars, WrittenExponent.signChars, Exponent.chars]
      at hlength

/-- A number is written out as it was written before if and only if its exponent was. -/
theorem chars_numeral_iff (l : Literal) : l.numeral.chars = l.chars ↔ l.Kept := by
  have hchars : l.numeral.chars = Numeral.signChars l.negative ++ l.whole.chars ++
      Numeral.fractionChars l.fraction ++
        Numeral.exponentChars (l.exponent.map WrittenExponent.kept) := rfl
  rw [hchars, Literal.chars, List.append_cancel_left_eq, Literal.Kept]
  cases l.exponent with
  | none => exact iff_of_true rfl fun e he ↦ absurd he (Option.not_mem_none e)
  | some e =>
    show e.kept.chars = e.chars ↔ _
    rw [chars_kept_iff]
    simp

/-! ### Values -/

namespace Tree

mutual

/-- The tree that a value is written as. -/
def ofValue : Value → Tree
  | .null => null
  | .bool b => bool b
  | .number n => number (.ofNumeral n)
  | .string text => string (.ofText text.toList)
  | .list items => list .none (ofItems items)
  | .object members => object .none (ofMembers members)

def ofItems : List Value → List (Padded Tree)
  | [] => []
  | x :: items => ⟨.none, ofValue x, .none⟩ :: ofItems items

def ofMembers : List (String × Value) → List (Member Tree)
  | [] => []
  | (key, x) :: members =>
    ⟨.none, .ofText key.toList, .none, .none, ofValue x, .none⟩ :: ofMembers members

end

end Tree

open Json.Tree

mutual

/-- What is written of a value is the text of its tree. -/
theorem toList_onto (out : String) (v : Value) :
    (v.onto out).toList = out.toList ++ (Tree.ofValue v).chars := by
  match v with
  | .null => simp [Value.onto, Tree.ofValue, Tree.chars]
  | .bool true => simp [Value.onto, Tree.ofValue, Tree.chars]
  | .bool false => simp [Value.onto, Tree.ofValue, Tree.chars]
  | .number n =>
    rw [Value.onto, Tree.ofValue, Tree.chars, chars_ofNumeral, String.toList_append, Numeral.text,
      String.toList_ofList]
  | .string text => rw [Value.onto, Tree.ofValue, Tree.chars, toList_quoteOnto]
  | .list [] => simp [Value.onto, Tree.ofValue, Tree.ofItems, Tree.chars, itemTexts]; rfl
  | .list (x :: items) =>
    rw [Value.onto, String.toList_push, toList_itemsOnto, toList_onto, String.toList_push,
      Tree.ofValue, Tree.ofItems, Tree.chars, itemTexts, intercalate_cons]
    simp [Blanks.none]
  | .object [] => simp [Value.onto, Tree.ofValue, Tree.ofMembers, Tree.chars, memberTexts]; rfl
  | .object ((key, x) :: members) =>
    rw [Value.onto, String.toList_push, toList_membersOnto, toList_onto, String.toList_push,
      toList_quoteOnto, String.toList_push, Tree.ofValue, Tree.ofMembers, Tree.chars, memberTexts,
      intercalate_cons]
    simp [Blanks.none]

theorem toList_itemsOnto (out : String) (items : List Value) :
    (Value.itemsOnto out items).toList =
      out.toList ++ commaed (itemTexts (Tree.ofItems items)) := by
  match items with
  | [] => simp [Value.itemsOnto, Tree.ofItems, itemTexts, commaed]
  | x :: items =>
    rw [Value.itemsOnto, toList_itemsOnto, toList_onto, String.toList_push, Tree.ofItems, itemTexts,
      commaed, commaed, List.flatMap_cons]
    simp [Blanks.none]

theorem toList_membersOnto (out : String) (members : List (String × Value)) :
    (Value.membersOnto out members).toList =
      out.toList ++ commaed (memberTexts (Tree.ofMembers members)) := by
  match members with
  | [] => simp [Value.membersOnto, Tree.ofMembers, memberTexts, commaed]
  | (key, x) :: members =>
    rw [Value.membersOnto, toList_membersOnto, toList_onto, String.toList_push, toList_quoteOnto,
      String.toList_push, Tree.ofMembers, memberTexts, commaed, commaed, List.flatMap_cons]
    simp [Blanks.none]

end

theorem bytes_eq (v : Value) : v.bytes = encode (Tree.ofValue v).chars := by
  rw [Value.bytes, Value.text, toList_onto]
  rfl

/-- The text of a value is the text of its tree between no blanks. -/
theorem bytes_between (v : Value) :
    v.bytes = encode (Blanks.none.chars ++ (Tree.ofValue v).chars ++ Blanks.none.chars) := by
  rw [bytes_eq]
  simp [Blanks.none]

theorem itemTexts_ofItems (items : List Value) :
    itemTexts (Tree.ofItems items) = items.map fun x ↦ (Tree.ofValue x).chars := by
  induction items with
  | nil => rfl
  | cons x items ih =>
    rw [Tree.ofItems, itemTexts, ih]
    simp [Blanks.none]

theorem memberTexts_ofMembers (members : List (String × Value)) :
    memberTexts (Tree.ofMembers members) = members.map fun entry ↦
      (Pieces.ofText entry.1.toList).quoted ++ ':' :: (Tree.ofValue entry.2).chars := by
  induction members with
  | nil => rfl
  | cons entry members ih =>
    rw [Tree.ofMembers, memberTexts, ih]
    simp [Blanks.none]

/-- The text of a list is made of the texts of its items. -/
theorem chars_list (items : List Value) :
    (Tree.ofValue (.list items)).chars =
      '[' :: ([','].intercalate (items.map fun x ↦ (Tree.ofValue x).chars) ++ [']']) := by
  rw [Tree.ofValue, Tree.chars, itemTexts_ofItems]
  rfl

/-- The text of an object is made of its keys and of the texts of their values. -/
theorem chars_object (members : List (String × Value)) :
    (Tree.ofValue (.object members)).chars =
      '\x7b' :: ([','].intercalate (members.map fun entry ↦
        (Pieces.ofText entry.1.toList).quoted ++ ':' :: (Tree.ofValue entry.2).chars) ++
          ['\x7d']) := by
  rw [Tree.ofValue, Tree.chars, memberTexts_ofMembers]
  rfl

end Intake.Json
