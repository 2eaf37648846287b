import Intake.Proofs.Json.Writing

/-!
# Reading what was written

A value that was read and is written out is not always read as itself again, and for two reasons. It
may be too deep by then, since it may stand in a text where more lists and objects are open around
it. And an object may have got a key to the front that is set apart, since members are written in
the order of their keys (`document_bytes_iff`). Such an object does not consist of one string under
that key (`readable_of_means`), so it is not taken for anything else but turned away.
-/

set_option autoImplicit false
set_option relaxedAutoImplicit false

namespace Intake.Json

open Json.Tree

/-- A key under which an object is read as something else. -/
def SetApart (key : String) : Prop :=
  key = numberKey ∨ key = textKey

instance (key : String) : Decidable (SetApart key) :=
  inferInstanceAs (Decidable (_ ∨ _))

theorem apartOf_eq_none_iff_not_setApart {embedded : Bytes → Except Error Value} {key : String} :
    apartOf embedded key = none ↔ ¬ SetApart key := by
  rw [apartOf_eq_none_iff, SetApart, not_or]

namespace Value

mutual

/-- How many lists and objects are nested in a value. -/
def depth : Value → Nat
  | .list items => itemsDepth items + 1
  | .object members => membersDepth members + 1
  | _ => 0

def itemsDepth : List Value → Nat
  | [] => 0
  | x :: items => max (depth x) (itemsDepth items)

def membersDepth : List (String × Value) → Nat
  | [] => 0
  | (_, x) :: members => max (depth x) (membersDepth members)

end

mutual

/-- No object in a value begins with a key that is set apart. -/
def Plain : Value → Prop
  | .list items => ItemsPlain items
  | .object [] => True
  | .object ((key, x) :: members) => ¬ SetApart key ∧ Plain x ∧ MembersPlain members
  | _ => True

def ItemsPlain : List Value → Prop
  | [] => True
  | x :: items => Plain x ∧ ItemsPlain items

def MembersPlain : List (String × Value) → Prop
  | [] => True
  | (_, x) :: members => Plain x ∧ MembersPlain members

end

mutual

/-- A value that reading may give. The members of an object in it are in ascending order of their
keys, and a sole member that is a string has a key that is not set apart. -/
inductive Readable : Value → Prop
  | null : Readable .null
  | bool (b : Bool) : Readable (.bool b)
  | number (n : Numeral) : Readable (.number n)
  | string (text : String) : Readable (.string text)
  | list {items : List Value} (hitems : ItemsReadable items) : Readable (.list items)
  | object {members : List (String × Value)} (hsorted : Ascending members)
      (hsole : ∀ key text, members = [(key, .string text)] → ¬ SetApart key)
      (hmembers : MembersReadable members) : Readable (.object members)

inductive ItemsReadable : List Value → Prop
  | nil : ItemsReadable []
  | cons {x : Value} {items : List Value} (hx : Readable x) (hitems : ItemsReadable items) :
    ItemsReadable (x :: items)

inductive MembersReadable : List (String × Value) → Prop
  | nil : MembersReadable []
  | cons {key : String} {x : Value} {members : List (String × Value)} (hx : Readable x)
      (hmembers : MembersReadable members) : MembersReadable ((key, x) :: members)

end

theorem itemsReadable_iff {items : List Value} :
    ItemsReadable items ↔ ∀ x ∈ items, Readable x := by
  induction items with
  | nil => exact iff_of_true .nil (by simp)
  | cons x items ih =>
    rw [List.forall_mem_cons, ← ih]
    constructor
    · intro h
      cases h with
      | cons hx hitems => exact ⟨hx, hitems⟩
    · rintro ⟨hx, hitems⟩
      exact .cons hx hitems

theorem membersReadable_iff {members : List (String × Value)} :
    MembersReadable members ↔ ∀ entry ∈ members, Readable entry.2 := by
  induction members with
  | nil => exact iff_of_true .nil (by simp)
  | cons entry members ih =>
    obtain ⟨key, x⟩ := entry
    rw [List.forall_mem_cons, ← ih]
    constructor
    · intro h
      cases h with
      | cons hx hmembers => exact ⟨hx, hmembers⟩
    · rintro ⟨hx, hmembers⟩
      exact .cons hx hmembers

theorem itemsDepth_le_iff {items : List Value} {n : Nat} :
    itemsDepth items ≤ n ↔ ∀ x ∈ items, x.depth ≤ n := by
  induction items with
  | nil => simp [itemsDepth]
  | cons x items ih => rw [itemsDepth, Nat.max_le, ih, List.forall_mem_cons]

theorem membersDepth_le_iff {members : List (String × Value)} {n : Nat} :
    membersDepth members ≤ n ↔ ∀ entry ∈ members, entry.2.depth ≤ n := by
  induction members with
  | nil => simp [membersDepth]
  | cons entry members ih =>
    obtain ⟨key, x⟩ := entry
    rw [membersDepth, Nat.max_le, ih, List.forall_mem_cons]

theorem itemsPlain_iff {items : List Value} : ItemsPlain items ↔ ∀ x ∈ items, x.Plain := by
  induction items with
  | nil => simp [ItemsPlain]
  | cons x items ih => rw [ItemsPlain, ih, List.forall_mem_cons]

theorem membersPlain_iff {members : List (String × Value)} :
    MembersPlain members ↔ ∀ entry ∈ members, entry.2.Plain := by
  induction members with
  | nil => simp [MembersPlain]
  | cons entry members ih =>
    obtain ⟨key, x⟩ := entry
    rw [MembersPlain, ih, List.forall_mem_cons]

/-- What it is for an object to be plain. -/
theorem plain_object_iff {members : List (String × Value)} :
    Plain (.object members) ↔
      (∀ entry ∈ members.head?, ¬ SetApart entry.1) ∧ ∀ entry ∈ members, entry.2.Plain := by
  cases members with
  | nil => simp [Plain]
  | cons entry members =>
    obtain ⟨key, x⟩ := entry
    rw [Plain, membersPlain_iff, List.forall_mem_cons]
    simp

end Value

/-! ### What reading gives -/

theorem exists_first_entry {m : Member Tree} {members : List (Member Tree)} {key : List Char}
    {entries : List (String × Value)} (hfirst : m.key.unescaped = some key)
    (hmembers : MembersMean (m :: members) entries) :
    ∃ x more, entries = (String.ofList key, x) :: more := by
  cases hmembers with
  | cons hkey hv hmore =>
    rw [Option.some_inj.mp (hfirst.symm.trans hkey)]
    exact ⟨_, _, rfl⟩

/-- The key that an object was written with in front is still one of its keys. -/
theorem eq_of_sole {first key : String} {x y : Value} {more : List (String × Value)}
    (hlast : ∀ k, List.lookup k [(key, y)] = List.lookup k ((first, x) :: more).reverse) :
    first = key := by
  have hfirst := hlast first
  rw [List.reverse_cons, List.lookup_append, lookup_cons, lookup_cons, if_pos rfl] at hfirst
  by_contra hne
  rw [if_neg hne] at hfirst
  cases hmore : List.lookup first more.reverse with
  | none =>
    rw [hmore] at hfirst
    exact absurd hfirst (by simp)
  | some z =>
    rw [hmore] at hfirst
    exact absurd hfirst (by simp)

mutual

/-- What a tree means is a value that reading may give. -/
theorem readable_of_means {t : Tree} {v : Value} (h : Means t v) : v.Readable := by
  match h with
  | .null => exact .null
  | .bool b => exact .bool b
  | .number l => exact .number l.numeral
  | .string _ => exact .string _
  | .list hitems => exact .list (itemsReadable_of_itemsMean hitems)
  | .emptyObject inner => exact .object .nil (by simp) .nil
  | .object hfirst hnumber htext hmembers hsorted hlast =>
    have hreadable := Value.membersReadable_iff.mp (membersReadable_of_membersMean hmembers)
    obtain ⟨x, more, rfl⟩ := exists_first_entry hfirst hmembers
    refine .object hsorted ?_ (Value.membersReadable_iff.mpr fun entry hentry ↦ ?_)
    · rintro key text rfl
      rw [← eq_of_sole hlast]
      exact not_or.mpr ⟨hnumber, htext⟩
    · have hlookup := (hlast entry.1).symm.trans (hsorted.mem_iff.mp hentry)
      exact hreadable entry (List.mem_reverse.mp (mem_of_lookup hlookup))
  | .heldNumber _ _ => exact .number _
  | .heldText _ _ _ hv => exact readable_of_means hv

theorem itemsReadable_of_itemsMean {items : List (Padded Tree)} {xs : List Value}
    (h : ItemsMean items xs) : Value.ItemsReadable xs := by
  match h with
  | .nil => exact .nil
  | .cons hv hitems => exact .cons (readable_of_means hv) (itemsReadable_of_itemsMean hitems)

theorem membersReadable_of_membersMean {members : List (Member Tree)}
    {entries : List (String × Value)} (h : MembersMean members entries) :
    Value.MembersReadable entries := by
  match h with
  | .nil => exact .nil
  | .cons _ hv hmembers =>
    exact .cons (readable_of_means hv) (membersReadable_of_membersMean hmembers)

end

/-! ### What was written -/

mutual

theorem depth_ofValue (v : Value) : (Tree.ofValue v).depth = v.depth := by
  match v with
  | .null => rfl
  | .bool b => rfl
  | .number n => rfl
  | .string text => rfl
  | .list items => rw [Tree.ofValue, Tree.depth, Value.depth, itemsDepth_ofItems]
  | .object members => rw [Tree.ofValue, Tree.depth, Value.depth, membersDepth_ofMembers]

theorem itemsDepth_ofItems (items : List Value) :
    itemsDepth (ofItems items) = Value.itemsDepth items := by
  match items with
  | [] => rfl
  | x :: items =>
    rw [ofItems, itemsDepth, Value.itemsDepth, depth_ofValue, itemsDepth_ofItems]

theorem membersDepth_ofMembers (members : List (String × Value)) :
    membersDepth (ofMembers members) = Value.membersDepth members := by
  match members with
  | [] => rfl
  | (key, x) :: members =>
    rw [ofMembers, membersDepth, Value.membersDepth, depth_ofValue, membersDepth_ofMembers]

end

/-- Members in order are the object that they are read as. -/
theorem ofMembers_eq {members : List (String × Value)} (h : Ascending members) :
    Value.ofMembers members = .object members :=
  ofMembers_eq_object_iff.mpr ⟨h, fun k ↦ (lookup_reverse h.nodup_keys k).symm⟩

theorem exists_string_of_ofValue {v : Value} {ps : Pieces} (h : Tree.ofValue v = .string ps) :
    ∃ text, v = .string text := by
  cases v with
  | string text => exact ⟨text, rfl⟩
  | _ => simp [Tree.ofValue] at h

theorem eq_nil_of_ofMembers {members : List (String × Value)} (h : ofMembers members = []) :
    members = [] := by
  cases members with
  | nil => rfl
  | cons entry members => simp [ofMembers] at h

variable {embedded : Bytes → Except Error Value}

mutual

/-- What a value is written as is read as that value if no object in it begins with a key that is
set apart, and otherwise it is not read. -/
theorem meaning_ofValue {v w : Value} (h : v.Readable) :
    (Tree.ofValue v).meaning (apartOf embedded) = some w ↔ v.Plain ∧ v = w := by
  match v, h with
  | .null, _ => simp [Tree.ofValue, Tree.meaning, Value.Plain]
  | .bool b, _ => simp [Tree.ofValue, Tree.meaning, Value.Plain]
  | .number n, _ => simp [Tree.ofValue, Tree.meaning, Value.Plain, numeral_ofNumeral]
  | .string text, _ => simp [Tree.ofValue, Tree.meaning, Value.Plain, unescaped_ofText]
  | .list items, .list hitems =>
    rw [Tree.ofValue, Tree.meaning, Value.Plain, Option.map_eq_some_iff]
    simp only [itemsMeaning_ofItems hitems]
    constructor
    · rintro ⟨xs, ⟨hplain, rfl⟩, rfl⟩
      exact ⟨hplain, rfl⟩
    · rintro ⟨hplain, rfl⟩
      exact ⟨_, ⟨hplain, rfl⟩, rfl⟩
  | .object [], _ => simp [Tree.ofValue, Tree.ofMembers, Tree.meaning, Value.Plain]
  | .object ((key, x) :: members), .object hsorted hsole (.cons hx hmembers) =>
    rw [Tree.ofValue, Tree.ofMembers, Tree.meaning, unescaped_ofText, Option.bind_some,
      String.ofList_toList, Value.Plain]
    cases hapart : apartOf embedded key with
    | none =>
      dsimp only
      simp only [Option.bind_eq_some_iff, Option.map_eq_some_iff, meaning_ofValue hx,
        membersMeaning_ofMembers hmembers]
      constructor
      · rintro ⟨_, ⟨hplain, rfl⟩, _, ⟨hplains, rfl⟩, rfl⟩
        exact ⟨⟨apartOf_eq_none_iff_not_setApart.mp hapart, hplain, hplains⟩,
          (ofMembers_eq hsorted).symm⟩
      · rintro ⟨⟨-, hplain, hplains⟩, rfl⟩
        exact ⟨_, ⟨hplain, rfl⟩, _, ⟨hplains, rfl⟩, ofMembers_eq hsorted⟩
    | some held =>
      -- What is in front is no string or has other members behind it, so nothing is held.
      have hset : SetApart key := by
        by_contra hnot
        rw [apartOf_eq_none_iff_not_setApart.mpr hnot] at hapart
        exact absurd hapart (by simp)
      have hnone : soleText (Tree.ofValue x) (ofMembers members) = none := by
        rw [Option.eq_none_iff_forall_ne_some]
        intro text htext
        obtain ⟨ps, hstring, hnil, -⟩ := soleText_eq_some_iff.mp htext
        obtain ⟨sole, rfl⟩ := exists_string_of_ofValue hstring
        exact hsole key sole (by rw [eq_nil_of_ofMembers hnil]) hset
      dsimp only
      rw [hnone, Option.bind_none]
      exact iff_of_false (by simp) fun h ↦ h.1.1 hset

theorem itemsMeaning_ofItems {items xs : List Value} (h : Value.ItemsReadable items) :
    itemsMeaning (apartOf embedded) (ofItems items) = some xs ↔
      Value.ItemsPlain items ∧ items = xs := by
  match items, h with
  | [], _ => simp [ofItems, itemsMeaning, Value.ItemsPlain]
  | x :: items, .cons hx hitems =>
    rw [ofItems, itemsMeaning, Value.ItemsPlain, Option.bind_eq_some_iff]
    simp only [Option.map_eq_some_iff, meaning_ofValue hx, itemsMeaning_ofItems hitems]
    constructor
    · rintro ⟨_, ⟨hplain, rfl⟩, _, ⟨hplains, rfl⟩, rfl⟩
      exact ⟨⟨hplain, hplains⟩, rfl⟩
    · rintro ⟨⟨hplain, hplains⟩, rfl⟩
      exact ⟨_, ⟨hplain, rfl⟩, _, ⟨hplains, rfl⟩, rfl⟩

theorem membersMeaning_ofMembers {members entries : List (String × Value)}
    (h : Value.MembersReadable members) :
    membersMeaning (apartOf embedded) (ofMembers members) = some entries ↔
      Value.MembersPlain members ∧ members = entries := by
  match members, h with
  | [], _ => simp [ofMembers, membersMeaning, Value.MembersPlain]
  | (key, x) :: members, .cons hx hmembers =>
    rw [ofMembers, membersMeaning, Value.MembersPlain, unescaped_ofText, Option.bind_some,
      Option.bind_eq_some_iff]
    simp only [Option.map_eq_some_iff, meaning_ofValue hx, membersMeaning_ofMembers hmembers,
      String.ofList_toList]
    constructor
    · rintro ⟨_, ⟨hplain, rfl⟩, _, ⟨hplains, rfl⟩, rfl⟩
      exact ⟨⟨hplain, hplains⟩, rfl⟩
    · rintro ⟨⟨hplain, hplains⟩, rfl⟩
      exact ⟨_, ⟨hplain, rfl⟩, _, ⟨hplains, rfl⟩, rfl⟩

end

/-- The text of a value that reading may give is a document if the value is not too deep and no
object in it begins with a key that is set apart, and then it is read as that value. -/
theorem document_bytes_iff {v w : Value} (h : v.Readable) :
    document v.bytes = .ok w ↔ v.depth ≤ depthLimit ∧ v.Plain ∧ v = w := by
  rw [bytes_between, document_chars_iff, depth_ofValue, meaning_ofValue h]

end Intake.Json
