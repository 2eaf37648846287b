import Intake.Proofs.Json.Denotes
import Intake.Proofs.Json.RoundTrip
import Intake.Proofs.Text.Order

/-!
# Values written word for word

`Writes` is stricter than the plain reading of JSON. A number is written digit by digit as it is
kept, a string by pieces that stand for it, and the members of an object in ascending order of the
bytes of their keys, each key once. What reading gives is written that way (`writes_ofValue`), and
what is written that way is read as it is (`denoted_of_writes`).
-/

set_option autoImplicit false
set_option relaxedAutoImplicit false

namespace Intake.Json

open Utf8 Json.Tree

mutual

/-- A tree is a value word for word. -/
inductive Writes : Tree → Value → Prop
  | null : Writes .null .null
  | bool (b : Bool) : Writes (.bool b) (.bool b)
  | number {l : Literal} {n : Numeral} (hchars : l.chars = n.text.toList) :
    Writes (.number l) (.number n)
  | string {ps : Pieces} {text : String} (htext : ps.unescaped = some text.toList) :
    Writes (.string ps) (.string text)
  | list {inner : Blanks} {items : List (Padded Tree)} {xs : List Value}
      (hitems : ItemsWrite items xs) : Writes (.list inner items) (.list xs)
  | object {inner : Blanks} {members : List (Member Tree)} {entries : List (String × Value)}
      (hsorted : entries.Pairwise fun a b ↦ encode a.1.toList < encode b.1.toList)
      (hmembers : MembersWrite members entries) : Writes (.object inner members) (.object entries)

/-- Items are values word for word, in order. -/
inductive ItemsWrite : List (Padded Tree) → List Value → Prop
  | nil : ItemsWrite [] []
  | cons {before after : Blanks} {t : Tree} {items : List (Padded Tree)} {v : Value}
      {xs : List Value} (hv : Writes t v) (hitems : ItemsWrite items xs) :
    ItemsWrite (⟨before, t, after⟩ :: items) (v :: xs)

/-- Members are keys with values word for word, in order. -/
inductive MembersWrite : List (Member Tree) → List (String × Value) → Prop
  | nil : MembersWrite [] []
  | cons {before between behind after : Blanks} {key : Pieces} {name : String} {t : Tree}
      {members : List (Member Tree)} {v : Value} {entries : List (String × Value)}
      (hkey : key.unescaped = some name.toList) (hv : Writes t v)
      (hmembers : MembersWrite members entries) :
    MembersWrite (⟨before, key, between, behind, t, after⟩ :: members) ((name, v) :: entries)

end

/-- Keys ascend if their forms do. -/
theorem ascending_iff {α : Type} {entries : List (String × α)} :
    Ascending entries ↔ entries.Pairwise fun a b ↦ encode a.1.toList < encode b.1.toList := by
  simp only [encode_toList_lt_iff]
  rfl

/-! ### What is written -/

mutual

/-- A value that reading may give is written word for word. -/
theorem writes_ofValue {v : Value} (h : v.Readable) : Writes (Tree.ofValue v) v := by
  match v, h with
  | .null, _ => exact .null
  | .bool b, _ => exact .bool b
  | .number n, _ =>
    refine .number ?_
    rw [chars_ofNumeral, Numeral.text, String.toList_ofList]
  | .string text, _ => exact .string (unescaped_ofText text.toList)
  | .list items, .list hitems => exact .list (itemsWrite_ofItems hitems)
  | .object members, .object hsorted _ hmembers =>
    exact .object (ascending_iff.mp hsorted) (membersWrite_ofMembers hmembers)

theorem itemsWrite_ofItems {items : List Value} (h : Value.ItemsReadable items) :
    ItemsWrite (ofItems items) items := by
  match items, h with
  | [], _ => exact .nil
  | x :: items, .cons hx hitems => exact .cons (writes_ofValue hx) (itemsWrite_ofItems hitems)

theorem membersWrite_ofMembers {members : List (String × Value)}
    (h : Value.MembersReadable members) : MembersWrite (ofMembers members) members := by
  match members, h with
  | [], _ => exact .nil
  | (key, x) :: members, .cons hx hmembers =>
    exact .cons (unescaped_ofText key.toList) (writes_ofValue hx) (membersWrite_ofMembers hmembers)

end

/-! ### What is read -/

/-- Literals with the same digits and signs are the same number. -/
theorem numeral_eq_of_chars {l : Literal} {n : Numeral} (h : l.chars = n.text.toList) :
    l.numeral = n := by
  rw [Numeral.text, String.toList_ofList, ← chars_ofNumeral] at h
  have hl := Numeral.ofText_eq_ok_iff.mpr ⟨l, rfl, rfl⟩
  have hn := Numeral.ofText_eq_ok_iff.mpr ⟨Literal.ofNumeral n, numeral_ofNumeral n, rfl⟩
  rw [h] at hl
  exact Except.ok.inj (hl.symm.trans hn)

mutual

/-- What a value is written as word for word denotes that value. -/
theorem denoted_of_writes {t : Tree} {v : Value} (h : Writes t v) :
    t.denoted = some v := by
  match h with
  | .null => rfl
  | .bool b => rfl
  | .number hchars =>
    rw [denoted, Tree.meaning, numeral_eq_of_chars hchars]
  | .string htext =>
    rw [denoted, Tree.meaning, htext, Option.map_some, String.ofList_toList]
  | .list hitems =>
    rw [denoted_list, itemsMeaning_of_itemsWrite hitems]
    rfl
  | .object hsorted hmembers =>
    rw [denoted_object, membersMeaning_of_membersWrite hmembers, Option.map_some,
      ofMembers_eq (ascending_iff.mpr hsorted)]

theorem itemsMeaning_of_itemsWrite {items : List (Padded Tree)} {xs : List Value}
    (h : ItemsWrite items xs) : itemsMeaning noneApart items = some xs := by
  match h with
  | .nil => rw [itemsMeaning]
  | .cons hv hitems =>
    have hx := denoted_of_writes hv
    rw [denoted] at hx
    rw [itemsMeaning, hx, itemsMeaning_of_itemsWrite hitems]
    rfl

theorem membersMeaning_of_membersWrite {members : List (Member Tree)}
    {entries : List (String × Value)} (h : MembersWrite members entries) :
    membersMeaning noneApart members = some entries := by
  match h with
  | .nil => rw [membersMeaning]
  | .cons hkey hv hmembers =>
    have hx := denoted_of_writes hv
    rw [denoted] at hx
    rw [membersMeaning, hkey, hx, membersMeaning_of_membersWrite hmembers]
    simp only [Option.bind_some, Option.map_some, String.ofList_toList]

end

/-- What is written of a value that reading may give denotes that value and no other. -/
theorem denotes_bytes_iff {v w : Value} (h : v.Readable) : Denotes v.bytes w ↔ w = v := by
  have htext : Denotes v.bytes v :=
    ⟨.none, .none, Tree.ofValue v, bytes_between v, denoted_of_writes (writes_ofValue h)⟩
  constructor
  · intro hw
    exact hw.unique htext
  · rintro rfl
    exact htext

end Intake.Json
