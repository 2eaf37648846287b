import Intake.Proofs.Json.Denotes
import Intake.Proofs.Json.RoundTrip

/-!
# Kinds of values

What is read is compared here to what was sent, place by place. Two values are `Alike` if both have
the same kind, and so have their parts. A tree in which no object begins with a key that is set
apart is `Ordinary`, and it is read as what it denotes (`meaning_of_ordinary`). Any other tree is
not read as anything like it (`ordinary_of_alike`): the object is a number then, or it is what its
string is the text of, which is never an object of one string under the same key. If an object may
have a key twice, what is read of the first member does not show, so keys have to be `Distinct` for
that.
-/

set_option autoImplicit false
set_option relaxedAutoImplicit false

namespace Intake.Json

open Utf8 Json.Tree

namespace Value

mutual

/-- Two values have the same kind, and so have their parts at every place. Objects have the same
keys. -/
inductive Alike : Value → Value → Prop
  | null : Alike .null .null
  | bool (a b : Bool) : Alike (.bool a) (.bool b)
  | number (m n : Numeral) : Alike (.number m) (.number n)
  | string (s t : String) : Alike (.string s) (.string t)
  | list {xs ys : List Value} (hitems : ItemsAlike xs ys) : Alike (.list xs) (.list ys)
  | object {ms ns : List (String × Value)} (hmembers : MembersAlike ms ns) :
    Alike (.object ms) (.object ns)

inductive ItemsAlike : List Value → List Value → Prop
  | nil : ItemsAlike [] []
  | cons {x y : Value} {xs ys : List Value} (hx : Alike x y) (hitems : ItemsAlike xs ys) :
    ItemsAlike (x :: xs) (y :: ys)

inductive MembersAlike : List (String × Value) → List (String × Value) → Prop
  | nil : MembersAlike [] []
  | cons {key : String} {x y : Value} {ms ns : List (String × Value)} (hx : Alike x y)
      (hmembers : MembersAlike ms ns) : MembersAlike ((key, x) :: ms) ((key, y) :: ns)

end

mutual

theorem Alike.refl (v : Value) : Alike v v := by
  match v with
  | .null => exact .null
  | .bool b => exact .bool b b
  | .number n => exact .number n n
  | .string text => exact .string text text
  | .list items => exact .list (ItemsAlike.refl items)
  | .object members => exact .object (MembersAlike.refl members)

theorem ItemsAlike.refl (items : List Value) : ItemsAlike items items := by
  match items with
  | [] => exact .nil
  | x :: items => exact .cons (Alike.refl x) (ItemsAlike.refl items)

theorem MembersAlike.refl (members : List (String × Value)) : MembersAlike members members := by
  match members with
  | [] => exact .nil
  | (key, x) :: members => exact .cons (Alike.refl x) (MembersAlike.refl members)

end

/-! ### Members in another order -/

variable {ms ns : List (String × Value)}

theorem MembersAlike.lookup (h : MembersAlike ms ns) {key : String} {x y : Value}
    (hx : ms.lookup key = some x) (hy : ns.lookup key = some y) : Alike x y := by
  induction ms generalizing ns with
  | nil => exact absurd hx (by simp)
  | cons m ms ih =>
    cases h with
    | cons hfirst hmembers =>
      rw [lookup_cons] at hx hy
      split_ifs at hx hy
      · rw [← Option.some_inj.mp hx, ← Option.some_inj.mp hy]
        exact hfirst
      · exact ih hmembers hx hy

/-- Members with the same keys are alike if what is found under every key is. -/
theorem membersAlike_of_lookup (hkeys : ms.map Prod.fst = ns.map Prod.fst)
    (hnodup : (ms.map Prod.fst).Nodup)
    (h : ∀ key x y, ms.lookup key = some x → ns.lookup key = some y → Alike x y) :
    MembersAlike ms ns := by
  induction ms generalizing ns with
  | nil =>
    rw [List.map_eq_nil_iff.mp hkeys.symm]
    exact .nil
  | cons m ms ih =>
    cases ns with
    | nil => exact absurd hkeys (by simp)
    | cons n ns =>
      obtain ⟨name, x⟩ := m
      obtain ⟨other, y⟩ := n
      obtain ⟨hname, hrest⟩ := List.cons.inj hkeys
      obtain ⟨hfirst, hmore⟩ := List.nodup_cons.mp hnodup
      dsimp only at hname hfirst
      subst hname
      -- The first key does not occur again, so what is found behind it has another one.
      have hbehind : ∀ key z, ms.lookup key = some z → key ≠ name := fun key z hz heq ↦
        hfirst (heq ▸ List.mem_map_of_mem (f := Prod.fst) (mem_of_lookup hz))
      refine .cons (h name x y (by simp) (by simp)) (ih hrest hmore fun key x' y' hx' hy' ↦ ?_)
      have hne := hbehind key x' hx'
      exact h key x' y' (by rw [lookup_cons, if_neg hne, hx'])
        (by rw [lookup_cons, if_neg hne, hy'])

end Value

/-! ### Ordinary trees -/

namespace Tree

mutual

/-- No object in a tree begins with a key that is set apart. -/
def Ordinary : Tree → Prop
  | list _ items => ItemsOrdinary items
  | object _ members =>
    (∀ m ∈ members.head?, ∀ key, m.key.unescaped = some key → ¬ SetApart (String.ofList key)) ∧
      MembersOrdinary members
  | _ => True

def ItemsOrdinary : List (Padded Tree) → Prop
  | [] => True
  | ⟨_, t, _⟩ :: items => Ordinary t ∧ ItemsOrdinary items

def MembersOrdinary : List (Member Tree) → Prop
  | [] => True
  | ⟨_, _, _, _, t, _⟩ :: members => Ordinary t ∧ MembersOrdinary members

end

mutual

/-- No object in a tree has the same key twice, however the keys are written. -/
def Distinct : Tree → Prop
  | list _ items => ItemsDistinct items
  | object _ members => (members.map fun m ↦ m.key.unescaped).Nodup ∧ MembersDistinct members
  | _ => True

def ItemsDistinct : List (Padded Tree) → Prop
  | [] => True
  | ⟨_, t, _⟩ :: items => Distinct t ∧ ItemsDistinct items

def MembersDistinct : List (Member Tree) → Prop
  | [] => True
  | ⟨_, _, _, _, t, _⟩ :: members => Distinct t ∧ MembersDistinct members

end

variable {embedded : Bytes → Except Error Value}

mutual

/-- An ordinary tree is read as what it denotes. -/
theorem meaning_of_ordinary {t : Tree} (h : t.Ordinary) :
    t.meaning (apartOf embedded) = t.denoted := by
  match t, h with
  | null, _ => rfl
  | bool b, _ => rfl
  | number l, _ => rfl
  | string ps, _ => rfl
  | list inner items, h =>
    rw [denoted_list, Tree.meaning, itemsMeaning_of_ordinary h]
  | object inner members, ⟨hfirst, hmembers⟩ =>
    rw [denoted_object, ← membersMeaning_of_ordinary hmembers]
    exact meaning_object inner fun m hm key hkey ↦
      apartOf_eq_none_iff_not_setApart.mpr (hfirst m hm key hkey)

theorem itemsMeaning_of_ordinary {items : List (Padded Tree)} (h : ItemsOrdinary items) :
    itemsMeaning (apartOf embedded) items = itemsMeaning noneApart items := by
  match items, h with
  | [], _ => rfl
  | ⟨before, t, after⟩ :: items, ⟨ht, hitems⟩ =>
    rw [itemsMeaning, itemsMeaning, meaning_of_ordinary ht, itemsMeaning_of_ordinary hitems,
      denoted]

theorem membersMeaning_of_ordinary {members : List (Member Tree)} (h : MembersOrdinary members) :
    membersMeaning (apartOf embedded) members = membersMeaning noneApart members := by
  match members, h with
  | [], _ => rfl
  | ⟨before, key, between, behind, t, after⟩ :: members, ⟨ht, hmembers⟩ =>
    rw [membersMeaning, membersMeaning, meaning_of_ordinary ht,
      membersMeaning_of_ordinary hmembers, denoted]

end

/-! ### Trees that are written -/

theorem isSome_unescaped_ofText (text : List Char) : (Pieces.ofText text).unescaped.isSome := by
  rw [unescaped_ofText]
  rfl

mutual

theorem textual_ofValue (v : Value) : (ofValue v).Textual := by
  match v with
  | .null => trivial
  | .bool b => trivial
  | .number n => trivial
  | .string text => exact isSome_unescaped_ofText text.toList
  | .list items => exact itemsTextual_ofItems items
  | .object members => exact membersTextual_ofMembers members

theorem itemsTextual_ofItems (items : List Value) : ItemsTextual (ofItems items) := by
  match items with
  | [] => trivial
  | x :: items => exact ⟨textual_ofValue x, itemsTextual_ofItems items⟩

theorem membersTextual_ofMembers (members : List (String × Value)) :
    MembersTextual (ofMembers members) := by
  match members with
  | [] => trivial
  | (key, x) :: members =>
    exact ⟨isSome_unescaped_ofText key.toList, textual_ofValue x, membersTextual_ofMembers members⟩

end

mutual

/-- What a plain value is written as is ordinary. -/
theorem ordinary_ofValue {v : Value} (h : v.Plain) : (ofValue v).Ordinary := by
  match v, h with
  | .null, _ => trivial
  | .bool b, _ => trivial
  | .number n, _ => trivial
  | .string text, _ => trivial
  | .list items, h => exact itemsOrdinary_ofItems h
  | .object [], _ => exact ⟨nofun, trivial⟩
  | .object ((key, x) :: members), ⟨hkey, hx, hmembers⟩ =>
    refine ⟨fun m hm name hname ↦ ?_, ordinary_ofValue hx, membersOrdinary_ofMembers hmembers⟩
    rw [← Option.some_inj.mp hm, unescaped_ofText] at hname
    rwa [← Option.some_inj.mp hname, String.ofList_toList]

theorem itemsOrdinary_ofItems {items : List Value} (h : Value.ItemsPlain items) :
    ItemsOrdinary (ofItems items) := by
  match items, h with
  | [], _ => trivial
  | x :: items, ⟨hx, hitems⟩ => exact ⟨ordinary_ofValue hx, itemsOrdinary_ofItems hitems⟩

theorem membersOrdinary_ofMembers {members : List (String × Value)}
    (h : Value.MembersPlain members) : MembersOrdinary (ofMembers members) := by
  match members, h with
  | [], _ => trivial
  | (key, x) :: members, ⟨hx, hmembers⟩ =>
    exact ⟨ordinary_ofValue hx, membersOrdinary_ofMembers hmembers⟩

end

/-! ### Trees that are not ordinary -/

theorem keys_of_membersMeaning {apart : Apart} {members : List (Member Tree)}
    {entries : List (String × Value)} (h : membersMeaning apart members = some entries) :
    members.map (fun m ↦ m.key.unescaped) =
      (entries.map Prod.fst).map fun key ↦ some key.toList := by
  induction members generalizing entries with
  | nil =>
    rw [membersMeaning] at h
    rw [← Option.some_inj.mp h]
    rfl
  | cons m members ih =>
    obtain ⟨before, key, between, behind, t, after⟩ := m
    rw [membersMeaning] at h
    obtain ⟨name, hname, hvalue⟩ := Option.bind_eq_some_iff.mp h
    obtain ⟨x, -, hbehind⟩ := Option.bind_eq_some_iff.mp hvalue
    obtain ⟨more, hmore, rfl⟩ := Option.map_eq_some_iff.mp hbehind
    rw [List.map_cons, ih hmore, List.map_cons, List.map_cons, hname, String.toList_ofList]

theorem keys_injective : Function.Injective fun key : String ↦ some key.toList :=
  fun _ _ h ↦ String.toList_inj.mp (Option.some_inj.mp h)

/-- Objects whose members have the same keys, no key twice, are alike only if their members are. -/
theorem membersAlike_of_sorted {members : List (Member Tree)}
    {sent read sorted sorted' : List (String × Value)}
    (hdistinct : (members.map fun m ↦ m.key.unescaped).Nodup)
    (hsent : membersMeaning noneApart members = some sent)
    (hread : membersMeaning (apartOf document) members = some read)
    (hsorted : Value.ofMembers sent = .object sorted)
    (hsorted' : Value.ofMembers read = .object sorted')
    (h : Value.MembersAlike sorted sorted') : Value.MembersAlike sent read := by
  have hkeys : sent.map Prod.fst = read.map Prod.fst := by
    apply List.map_injective_iff.mpr keys_injective
    rw [← keys_of_membersMeaning hsent, ← keys_of_membersMeaning hread]
  have hnodup : (sent.map Prod.fst).Nodup := by
    rw [keys_of_membersMeaning hsent] at hdistinct
    exact List.Pairwise.of_map _ (fun _ _ hne heq ↦ hne (by rw [heq])) hdistinct
  have hnodup' : (read.map Prod.fst).Nodup := hkeys ▸ hnodup
  -- Sorting forgets the order of the members, but not what is found under a key.
  obtain ⟨-, hlast⟩ := ofMembers_eq_object_iff.mp hsorted
  obtain ⟨-, hlast'⟩ := ofMembers_eq_object_iff.mp hsorted'
  refine Value.membersAlike_of_lookup hkeys hnodup fun key x y hx hy ↦ ?_
  rw [← lookup_reverse hnodup, ← hlast] at hx
  rw [← lookup_reverse hnodup', ← hlast'] at hy
  exact h.lookup hx hy

theorem denoted_held {inner before between behind after : Blanks} {key ps : Pieces}
    {name text : List Char} (hkey : key.unescaped = some name) (htext : ps.unescaped = some text) :
    (Tree.object inner [⟨before, key, between, behind, .string ps, after⟩]).denoted =
      some (.object [(String.ofList name, .string (String.ofList text))]) := by
  rw [denoted_object, membersMeaning, hkey, Tree.meaning, htext, membersMeaning]
  rfl

/-- No value that reading may give is like an object of one string under a key that is set apart. -/
theorem not_alike_of_setApart {key : String} {text : String} {w : Value} (hkey : SetApart key)
    (hw : w.Readable) : ¬ Value.Alike (.object [(key, .string text)]) w := by
  intro h
  cases h with
  | object hmembers =>
    cases hmembers with
    | cons hx hmore =>
      cases hx
      cases hmore
      cases hw with
      | object _ hsole _ => exact hsole key _ rfl hkey

mutual

/-- A tree that is read as something like what it denotes is ordinary. -/
theorem ordinary_of_alike {t : Tree} {v w : Value} (hdistinct : t.Distinct)
    (hv : t.denoted = some v) (hw : Means t w) (h : v.Alike w) : t.Ordinary := by
  match t, hw with
  | null, _ => trivial
  | bool b, _ => trivial
  | number l, _ => trivial
  | string ps, _ => trivial
  | list inner items, .list hitems =>
    rw [denoted_list] at hv
    obtain ⟨xs, hxs, rfl⟩ := Option.map_eq_some_iff.mp hv
    cases h with
    | list halike => exact itemsOrdinary_of_alike hdistinct hxs hitems halike
  | object inner [], _ => exact ⟨nofun, trivial⟩
  | object inner (m :: members), .object hfirst hnumber htext hmembers hsorted hlast =>
    rw [denoted_object] at hv
    obtain ⟨sent, hsent, hform⟩ := Option.map_eq_some_iff.mp hv
    cases h with
    | object halike =>
      -- The members are alike in order of their keys, but the tree has them as they were sent.
      have hmembersAlike := membersAlike_of_sorted hdistinct.1 hsent
        (membersMeaning_of_membersMean hmembers) hform
        (ofMembers_eq_object_iff.mpr ⟨hsorted, hlast⟩) halike
      refine ⟨fun other hother key hkey ↦ ?_,
        membersOrdinary_of_alike hdistinct.2 hsent hmembers hmembersAlike⟩
      rw [← Option.some_inj.mp hother, hfirst] at hkey
      rw [← Option.some_inj.mp hkey]
      exact not_or.mpr ⟨hnumber, htext⟩
  | object inner [⟨before, key, between, behind, .string ps, after⟩], .heldNumber hkey htext =>
    rw [denoted_held hkey htext] at hv
    rw [← Option.some_inj.mp hv] at h
    exact nomatch h
  | object inner [⟨before, key, between, behind, .string ps, after⟩],
      .heldText hkey htext hdepth hheld =>
    rw [denoted_held hkey htext] at hv
    rw [← Option.some_inj.mp hv] at h
    -- What is held has been read itself.
    exact absurd h (not_alike_of_setApart (Or.inr String.ofList_toList) (readable_of_means hheld))

theorem itemsOrdinary_of_alike {items : List (Padded Tree)} {xs ys : List Value}
    (hdistinct : ItemsDistinct items) (hxs : itemsMeaning noneApart items = some xs)
    (hys : ItemsMean items ys) (h : Value.ItemsAlike xs ys) : ItemsOrdinary items := by
  match items, hys with
  | [], _ => trivial
  | ⟨before, t, after⟩ :: items, .cons hy hitems =>
    rw [itemsMeaning] at hxs
    obtain ⟨x, hx, hbehind⟩ := Option.bind_eq_some_iff.mp hxs
    obtain ⟨more, hmore, rfl⟩ := Option.map_eq_some_iff.mp hbehind
    cases h with
    | cons hfirst hrest =>
      exact ⟨ordinary_of_alike hdistinct.1 hx hy hfirst,
        itemsOrdinary_of_alike hdistinct.2 hmore hitems hrest⟩

theorem membersOrdinary_of_alike {members : List (Member Tree)}
    {sent read : List (String × Value)} (hdistinct : MembersDistinct members)
    (hsent : membersMeaning noneApart members = some sent) (hread : MembersMean members read)
    (h : Value.MembersAlike sent read) : MembersOrdinary members := by
  match members, hread with
  | [], _ => trivial
  | ⟨before, key, between, behind, t, after⟩ :: members, .cons hkey hy hmembers =>
    rw [membersMeaning] at hsent
    obtain ⟨name, hname, hvalue⟩ := Option.bind_eq_some_iff.mp hsent
    obtain ⟨x, hx, hbehind⟩ := Option.bind_eq_some_iff.mp hvalue
    obtain ⟨more, hmore, rfl⟩ := Option.map_eq_some_iff.mp hbehind
    obtain rfl := Option.some_inj.mp (hname.symm.trans hkey)
    cases h with
    | cons hfirst hrest =>
      exact ⟨ordinary_of_alike hdistinct.1 hx hy hfirst,
        membersOrdinary_of_alike hdistinct.2 hmore hmembers hrest⟩

end

end Tree

end Intake.Json
