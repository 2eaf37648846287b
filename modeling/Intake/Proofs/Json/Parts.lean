import Intake.Proofs.Json.RoundTrip
import Intake.Proofs.Text.Order

/-!
# Parts of a value

Whether a value is plain was said along its shape. It can also be said of the objects within it, one
by one: none of the keys that are set apart is the least key of any of them (`plain_iff_nowhere`).
Keys are compared by the bytes of their forms here, so the order of the members plays no part in it.
-/

set_option autoImplicit false
set_option relaxedAutoImplicit false

namespace Intake.Json.Value

open Utf8

/-- A value is a part of another one: it is that one, or it is a part of an item or a member. -/
inductive Within : Value → Value → Prop
  | refl (v : Value) : Within v v
  | item {v x : Value} {items : List Value} (hx : x ∈ items) (h : Within v x) :
    Within v (.list items)
  | member {v : Value} {entry : String × Value} {members : List (String × Value)}
      (hentry : entry ∈ members) (h : Within v entry.2) : Within v (.object members)

/-- A key of an object whose form is less than those of the other keys. -/
def IsLeastKey (key : String) (members : List (String × Value)) : Prop :=
  key ∈ members.map Prod.fst ∧
    ∀ other ∈ members.map Prod.fst, other ≠ key → encode key.toList < encode other.toList

/-- A key is not the least one of any object within a value. -/
def NowhereLeast (key : String) (v : Value) : Prop :=
  ∀ members, Within (.object members) v → ¬ IsLeastKey key members

variable {key : String} {items : List Value} {members : List (String × Value)}

/-! ### The least key -/

/-- In ascending order, the least key is the one in front. -/
theorem isLeastKey_iff (h : Ascending members) :
    IsLeastKey key members ↔ ∃ entry ∈ members.head?, entry.1 = key := by
  constructor
  · intro hleast
    obtain ⟨entry, hentry, rfl⟩ := List.mem_map.mp hleast.1
    cases hfirst : members.head? with
    | none =>
      rw [List.head?_eq_none_iff.mp hfirst] at hentry
      exact absurd hentry List.not_mem_nil
    | some first =>
      refine ⟨first, rfl, ?_⟩
      by_contra hne
      have hmem := List.mem_map_of_mem (f := Prod.fst) (List.mem_of_mem_head? hfirst)
      have hlt := encode_toList_lt_iff.mp (hleast.2 first.1 hmem hne)
      exact absurd hlt (h.head_le hfirst hentry).not_gt
  · intro hfirst
    obtain ⟨first, hfirst, rfl⟩ := hfirst
    refine ⟨List.mem_map_of_mem (List.mem_of_mem_head? hfirst), fun other hother hne ↦ ?_⟩
    obtain ⟨entry, hentry, rfl⟩ := List.mem_map.mp hother
    exact encode_toList_lt_iff.mpr ((h.head_le hfirst hentry).lt_of_ne hne.symm)

theorem head_not_setApart_iff (h : Ascending members) :
    (∀ entry ∈ members.head?, ¬ SetApart entry.1) ↔
      ¬ IsLeastKey numberKey members ∧ ¬ IsLeastKey textKey members := by
  rw [isLeastKey_iff h, isLeastKey_iff h]
  cases members.head? with
  | none => simp
  | some first => simp [SetApart]

/-! ### Parts of lists and objects -/

theorem nowhereLeast_list_iff :
    NowhereLeast key (.list items) ↔ ∀ x ∈ items, NowhereLeast key x := by
  constructor
  · intro h x hx others hwithin
    exact h others (.item hx hwithin)
  · intro h others hwithin
    cases hwithin with
    | item hx hwithin => exact h _ hx others hwithin

theorem nowhereLeast_object_iff :
    NowhereLeast key (.object members) ↔
      ¬ IsLeastKey key members ∧ ∀ entry ∈ members, NowhereLeast key entry.2 := by
  constructor
  · intro h
    exact ⟨h members (.refl _), fun entry hentry others hwithin ↦
      h others (.member hentry hwithin)⟩
  · intro h others hwithin
    cases hwithin with
    | refl => exact h.1
    | member hentry hwithin => exact h.2 _ hentry others hwithin

mutual

/-- A value that reading may give is plain if no key that is set apart is the least one of an object
within it. -/
theorem plain_iff_nowhere {v : Value} (h : v.Readable) :
    v.Plain ↔ NowhereLeast numberKey v ∧ NowhereLeast textKey v := by
  match v, h with
  | .null, _ => exact iff_of_true trivial ⟨fun _ ↦ nofun, fun _ ↦ nofun⟩
  | .bool b, _ => exact iff_of_true trivial ⟨fun _ ↦ nofun, fun _ ↦ nofun⟩
  | .number n, _ => exact iff_of_true trivial ⟨fun _ ↦ nofun, fun _ ↦ nofun⟩
  | .string text, _ => exact iff_of_true trivial ⟨fun _ ↦ nofun, fun _ ↦ nofun⟩
  | .list items, .list hitems =>
    rw [nowhereLeast_list_iff, nowhereLeast_list_iff, ← forall₂_and]
    exact itemsPlain_iff_nowhere hitems
  | .object members, .object hsorted _ hmembers =>
    rw [plain_object_iff, head_not_setApart_iff hsorted, ← membersPlain_iff,
      membersPlain_iff_nowhere hmembers, nowhereLeast_object_iff, nowhereLeast_object_iff,
      forall₂_and, and_and_and_comm]

theorem itemsPlain_iff_nowhere {items : List Value} (h : ItemsReadable items) :
    ItemsPlain items ↔ ∀ x ∈ items, NowhereLeast numberKey x ∧ NowhereLeast textKey x := by
  match items, h with
  | [], _ => exact iff_of_true trivial nofun
  | x :: items, .cons hx hitems =>
    rw [ItemsPlain, plain_iff_nowhere hx, itemsPlain_iff_nowhere hitems, List.forall_mem_cons]

theorem membersPlain_iff_nowhere {members : List (String × Value)} (h : MembersReadable members) :
    MembersPlain members ↔
      ∀ entry ∈ members, NowhereLeast numberKey entry.2 ∧ NowhereLeast textKey entry.2 := by
  match members, h with
  | [], _ => exact iff_of_true trivial nofun
  | (key, x) :: members, .cons hx hmembers =>
    rw [MembersPlain, plain_iff_nowhere hx, membersPlain_iff_nowhere hmembers,
      List.forall_mem_cons]

end

end Intake.Json.Value
