import Intake.Proofs.Ascending
import Intake.Proofs.Json.Document

/-!
# What a text means

`Means` says rule by rule what a tree of the grammar stands for, without a reader. An object stands
for its members in the order of their keys, and the last value of a key counts. There are two
exceptions: an object that begins with one of the keys that are set apart has a single member, and
stands for the number, or for the value of the text, that is held in it as a string. A tree means at
most one value, and it is the one that it is read as (`means_iff`).
-/

set_option autoImplicit false
set_option relaxedAutoImplicit false

namespace Intake.Json

open Utf8

namespace Tree

mutual

/-- A tree stands for a value. -/
inductive Means : Tree → Value → Prop
  | null : Means .null .null
  | bool (b : Bool) : Means (.bool b) (.bool b)
  | number (l : Literal) : Means (.number l) (.number l.numeral)
  | string {ps : Pieces} {text : List Char} (htext : ps.unescaped = some text) :
    Means (.string ps) (.string (String.ofList text))
  | list {inner : Blanks} {items : List (Padded Tree)} {xs : List Value}
      (hitems : ItemsMean items xs) : Means (.list inner items) (.list xs)
  | emptyObject (inner : Blanks) : Means (.object inner []) (.object [])
  | object {inner : Blanks} {m : Member Tree} {members : List (Member Tree)} {key : List Char}
      {entries sorted : List (String × Value)} (hfirst : m.key.unescaped = some key)
      (hnumber : String.ofList key ≠ numberKey) (htext : String.ofList key ≠ textKey)
      (hmembers : MembersMean (m :: members) entries) (hsorted : Ascending sorted)
      (hlast : ∀ k, sorted.lookup k = entries.reverse.lookup k) :
    Means (.object inner (m :: members)) (.object sorted)
  | heldNumber {inner before between behind after : Blanks} {key ps : Pieces} {l : Literal}
      (hkey : key.unescaped = some numberKey.toList) (htext : ps.unescaped = some l.chars) :
    Means (.object inner [⟨before, key, between, behind, .string ps, after⟩]) (.number l.numeral)
  | heldText {inner before between behind after u w : Blanks} {key ps : Pieces} {t : Tree}
      {v : Value} (hkey : key.unescaped = some textKey.toList)
      (htext : ps.unescaped = some (u.chars ++ t.chars ++ w.chars)) (hdepth : t.depth ≤ depthLimit)
      (hv : Means t v) :
    Means (.object inner [⟨before, key, between, behind, .string ps, after⟩]) v

/-- Items stand for values in order. -/
inductive ItemsMean : List (Padded Tree) → List Value → Prop
  | nil : ItemsMean [] []
  | cons {before after : Blanks} {t : Tree} {items : List (Padded Tree)} {v : Value}
      {xs : List Value} (hv : Means t v) (hitems : ItemsMean items xs) :
    ItemsMean (⟨before, t, after⟩ :: items) (v :: xs)

/-- Members stand for keys with values in order. -/
inductive MembersMean : List (Member Tree) → List (String × Value) → Prop
  | nil : MembersMean [] []
  | cons {before between behind after : Blanks} {key : Pieces} {text : List Char} {t : Tree}
      {members : List (Member Tree)} {v : Value} {entries : List (String × Value)}
      (hkey : key.unescaped = some text) (hv : Means t v) (hmembers : MembersMean members entries) :
    MembersMean (⟨before, key, between, behind, t, after⟩ :: members)
      ((String.ofList text, v) :: entries)

end

/-! ### Members in order -/

theorem foldl_insert {entries read : List (String × Value)} (h : Ascending read) :
    Ascending (entries.foldl (fun read (key, value) ↦ insert key value read) read) ∧
      ∀ k, (entries.foldl (fun read (key, value) ↦ insert key value read) read).lookup k =
        (entries.reverse.lookup k).or (read.lookup k) := by
  induction entries generalizing read with
  | nil => exact ⟨h, fun k ↦ rfl⟩
  | cons entry entries ih =>
    obtain ⟨key, value⟩ := entry
    have hinsert : Ascending (insert key value read) := by
      rw [insert_eq_alter]
      exact h.alter key _
    obtain ⟨hsorted, hlookup⟩ := ih hinsert
    refine ⟨hsorted, fun k ↦ (hlookup k).trans ?_⟩
    rw [insert_eq_alter, lookup_alter h, List.reverse_cons, List.lookup_append, lookup_cons,
      Option.or_assoc]
    split_ifs with hk
    · rfl
    · rfl

/-- Read members are in order, and the last value of a key is the one it has. -/
theorem ofMembers_eq_object_iff {entries sorted : List (String × Value)} :
    Value.ofMembers entries = .object sorted ↔
      Ascending sorted ∧ ∀ k, sorted.lookup k = entries.reverse.lookup k := by
  obtain ⟨hsorted, hlookup⟩ := @foldl_insert entries [] Ascending.nil
  rw [Value.ofMembers, Value.object.injEq]
  constructor
  · rintro rfl
    exact ⟨hsorted, fun k ↦ (hlookup k).trans (Option.or_none)⟩
  · rintro ⟨hothers, hlast⟩
    exact hsorted.ext hothers fun k ↦ ((hlookup k).trans Option.or_none).trans (hlast k).symm

/-! ### The relation and the function -/

/-- An object that does not begin with a key that is set apart is made of its members. -/
theorem meaning_object {apart : Apart} {members : List (Member Tree)} (inner : Blanks)
    (hfirst : ∀ m ∈ members.head?, ∀ key, m.key.unescaped = some key →
      apart (String.ofList key) = none) :
    (Tree.object inner members).meaning apart =
      (membersMeaning apart members).map .ofMembers := by
  cases members with
  | nil =>
    rw [Tree.meaning, membersMeaning]
    rfl
  | cons m members =>
    have hfirst := hfirst m rfl
    obtain ⟨before, ps, between, behind, t, after⟩ := m
    rw [Tree.meaning, membersMeaning]
    cases hkey : ps.unescaped with
    | none => rfl
    | some key =>
      simp only [Option.bind_some, hfirst key hkey, Option.map_bind, Function.comp_def,
        Option.map_map]

theorem meaning_heldNumber {inner before between behind after : Blanks} {key ps : Pieces}
    {l : Literal} (hkey : key.unescaped = some numberKey.toList)
    (htext : ps.unescaped = some l.chars) :
    (Tree.object inner [⟨before, key, between, behind, .string ps, after⟩]).meaning
      (apartOf document) = some (.number l.numeral) := by
  have hnumber := Numeral.ofText_eq_ok_iff.mpr ⟨l, rfl, rfl⟩
  rw [Tree.meaning, hkey, Option.bind_some, String.ofList_toList, apartOf_numberKey]
  simp only [soleText, htext, Option.bind_some, hnumber]
  rfl

theorem meaning_heldText {inner before between behind after : Blanks} {key ps : Pieces}
    {text : List Char} {v : Value} (hkey : key.unescaped = some textKey.toList)
    (htext : ps.unescaped = some text) (hv : document (encode text) = .ok v) :
    (Tree.object inner [⟨before, key, between, behind, .string ps, after⟩]).meaning
      (apartOf document) = some v := by
  rw [Tree.meaning, hkey, Option.bind_some, String.ofList_toList, apartOf_textKey]
  simp only [soleText, htext, Option.bind_some, hv]
  rfl

mutual

/-- A tree is read as what it means. -/
theorem meaning_of_means {t : Tree} {v : Value} (h : Means t v) :
    t.meaning (apartOf document) = some v := by
  match h with
  | .null => rw [Tree.meaning]
  | .bool b => rw [Tree.meaning]
  | .number l => rw [Tree.meaning]
  | .string htext =>
    rw [Tree.meaning, htext]
    rfl
  | .list hitems =>
    rw [Tree.meaning, itemsMeaning_of_itemsMean hitems]
    rfl
  | .emptyObject inner => rw [Tree.meaning]
  | .object hfirst hnumber htext hmembers hsorted hlast =>
    have hkey : apartOf document (String.ofList _) = none :=
      apartOf_eq_none_iff.mpr ⟨hnumber, htext⟩
    rw [meaning_object _ (by simpa [hfirst] using hkey), membersMeaning_of_membersMean hmembers,
      Option.map_some, ofMembers_eq_object_iff.mpr ⟨hsorted, hlast⟩]
  | .heldNumber hkey htext => exact meaning_heldNumber hkey htext
  | .heldText hkey htext hdepth hv =>
    exact meaning_heldText hkey htext
      (document_eq_ok_iff.mpr ⟨_, _, _, rfl, hdepth, meaning_of_means hv⟩)

theorem itemsMeaning_of_itemsMean {items : List (Padded Tree)} {xs : List Value}
    (h : ItemsMean items xs) : itemsMeaning (apartOf document) items = some xs := by
  match h with
  | .nil => rw [itemsMeaning]
  | .cons hv hitems =>
    rw [itemsMeaning, meaning_of_means hv, itemsMeaning_of_itemsMean hitems]
    rfl

theorem membersMeaning_of_membersMean {members : List (Member Tree)}
    {entries : List (String × Value)} (h : MembersMean members entries) :
    membersMeaning (apartOf document) members = some entries := by
  match h with
  | .nil => rw [membersMeaning]
  | .cons hkey hv hmembers =>
    rw [membersMeaning, hkey, meaning_of_means hv, membersMeaning_of_membersMean hmembers]
    rfl

end

/-- Trees with a text that is shorter than `n` mean what they are read as. -/
def MeansBelow (n : Nat) : Prop :=
  ∀ {t : Tree} {v : Value}, (encode t.chars).length < n →
    t.meaning (apartOf document) = some v → Means t v

variable {n : Nat}

/-- What is held by a string that is not too long means what it is read as. -/
theorem means_of_held (hheld : MeansBelow n) {inner before between behind after : Blanks}
    {key ps : Pieces} {name text : List Char} {held : List Char → Option Value} {v : Value}
    (hkey : key.unescaped = some name) (happart : apartOf document (String.ofList name) = some held)
    (hps : ps.unescaped = some text) (hlt : (encode text).length < n) (hv : held text = some v) :
    Means (.object inner [⟨before, key, between, behind, .string ps, after⟩]) v := by
  obtain ⟨hname, rfl⟩ | ⟨hname, rfl⟩ := eq_of_apartOf happart
  · dsimp only at hv
    cases hnumber : Numeral.ofText (encode text) with
    | error e =>
      rw [hnumber] at hv
      exact absurd hv (by simp [Except.map, Except.toOption])
    | ok n =>
      rw [hnumber] at hv
      obtain rfl := Option.some_inj.mp hv
      obtain ⟨l, rfl, rfl⟩ := Numeral.ofText_eq_ok_iff.mp hnumber
      rw [← @String.toList_ofList name, hname] at hkey
      exact .heldNumber hkey hps
  · obtain ⟨u, t, w, htext, hdepth, hmeaning⟩ :=
      document_eq_ok_iff.mp (toOption_eq_some_iff.mp hv)
    rw [encode_injective htext] at hps hlt
    rw [← @String.toList_ofList name, hname] at hkey
    refine .heldText hkey hps hdepth (hheld ?_ hmeaning)
    rw [encode_append, encode_append, List.length_append, List.length_append] at hlt
    omega

mutual

/-- A tree with a text of at most `n` bytes means what it is read as, if shorter ones do. -/
theorem means_of_meaning_of_le (hheld : MeansBelow n) (t : Tree)
    (ht : (encode t.chars).length ≤ n) {v : Value}
    (h : t.meaning (apartOf document) = some v) : Means t v := by
  match t with
  | .null =>
    rw [Tree.meaning] at h
    exact Option.some_inj.mp h ▸ .null
  | .bool b =>
    rw [Tree.meaning] at h
    exact Option.some_inj.mp h ▸ .bool b
  | .number l =>
    rw [Tree.meaning] at h
    exact Option.some_inj.mp h ▸ .number l
  | .string ps =>
    rw [Tree.meaning] at h
    obtain ⟨text, htext, rfl⟩ := Option.map_eq_some_iff.mp h
    exact .string htext
  | .list inner [] =>
    rw [Tree.meaning, itemsMeaning] at h
    exact Option.some_inj.mp h ▸ .list .nil
  | .list inner (⟨before, t, after⟩ :: items) =>
    have hlength := length_list_cons inner before after t items
    rw [Tree.meaning, itemsMeaning] at h
    obtain ⟨xs, hxs, rfl⟩ := Option.map_eq_some_iff.mp h
    obtain ⟨x, hx, hbehind⟩ := Option.bind_eq_some_iff.mp hxs
    obtain ⟨more, hmore, rfl⟩ := Option.map_eq_some_iff.mp hbehind
    exact .list (.cons (means_of_meaning_of_le hheld t (by omega) hx)
      (itemsMean_of_le hheld items (by omega) hmore))
  | .object inner [] =>
    rw [Tree.meaning] at h
    exact Option.some_inj.mp h ▸ .emptyObject inner
  | .object inner (⟨before, key, between, behind, t, after⟩ :: members) =>
    have hlength := length_object_cons inner before between behind after key t members
    rw [Tree.meaning] at h
    obtain ⟨name, hname, hopened⟩ := Option.bind_eq_some_iff.mp h
    cases hapart : apartOf document (String.ofList name) with
    | none =>
      rw [hapart] at hopened
      obtain ⟨hnumber, htext⟩ := apartOf_eq_none_iff.mp hapart
      obtain ⟨x, hx, hbehind⟩ := Option.bind_eq_some_iff.mp hopened
      obtain ⟨entries, hentries, rfl⟩ := Option.map_eq_some_iff.mp hbehind
      obtain ⟨hsorted, hlast⟩ := ofMembers_eq_object_iff.mp rfl
      exact .object hname hnumber htext (.cons hname (means_of_meaning_of_le hheld t (by omega) hx)
        (membersMean_of_le hheld members (by omega) hentries)) hsorted hlast
    | some held =>
      rw [hapart] at hopened
      obtain ⟨text, hsole, hv⟩ := Option.bind_eq_some_iff.mp hopened
      have hlt := length_soleText_lt hsole
      obtain ⟨ps, rfl, rfl, hps⟩ := soleText_eq_some_iff.mp hsole
      exact means_of_held hheld hname hapart hps (by omega) hv

theorem itemsMean_of_le (hheld : MeansBelow n) (items : List (Padded Tree))
    (hitems : (encode (commaed (itemTexts items))).length ≤ n) {xs : List Value}
    (h : itemsMeaning (apartOf document) items = some xs) : ItemsMean items xs := by
  match items with
  | [] =>
    rw [itemsMeaning] at h
    exact Option.some_inj.mp h ▸ .nil
  | ⟨before, t, after⟩ :: items =>
    have hlength := length_items_cons before after t items
    rw [itemsMeaning] at h
    obtain ⟨x, hx, hbehind⟩ := Option.bind_eq_some_iff.mp h
    obtain ⟨more, hmore, rfl⟩ := Option.map_eq_some_iff.mp hbehind
    exact .cons (means_of_meaning_of_le hheld t (by omega) hx)
      (itemsMean_of_le hheld items (by omega) hmore)

theorem membersMean_of_le (hheld : MeansBelow n) (members : List (Member Tree))
    (hmembers : (encode (commaed (memberTexts members))).length ≤ n)
    {entries : List (String × Value)}
    (h : membersMeaning (apartOf document) members = some entries) :
    MembersMean members entries := by
  match members with
  | [] =>
    rw [membersMeaning] at h
    exact Option.some_inj.mp h ▸ .nil
  | ⟨before, key, between, behind, t, after⟩ :: members =>
    have hlength := length_members_cons before between behind after key t members
    rw [membersMeaning] at h
    obtain ⟨name, hname, hvalue⟩ := Option.bind_eq_some_iff.mp h
    obtain ⟨x, hx, hbehind⟩ := Option.bind_eq_some_iff.mp hvalue
    obtain ⟨more, hmore, rfl⟩ := Option.map_eq_some_iff.mp hbehind
    exact .cons hname (means_of_meaning_of_le hheld t (by omega) hx)
      (membersMean_of_le hheld members (by omega) hmore)

end

/-- A tree means what it is read as, and nothing else. -/
theorem means_iff {t : Tree} {v : Value} :
    Means t v ↔ t.meaning (apartOf document) = some v := by
  refine ⟨meaning_of_means, fun h ↦ ?_⟩
  induction hn : (encode t.chars).length using Nat.strong_induction_on generalizing t v with
  | _ n ih =>
    exact means_of_meaning_of_le (fun hlt h ↦ ih _ hlt h rfl) t hn.le h

end Tree

end Intake.Json
