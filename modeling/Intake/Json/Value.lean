import Intake.Json.Numeral

/-!
# JSON values

An object is the list of its members in ascending order of their keys, which is the order of their
UTF-8 forms. `insert` keeps that order and gives a key the last of the values it is given. Values
are equal where their texts are: numbers digit by digit, objects member by member (`same_iff`).
-/

set_option autoImplicit false
set_option relaxedAutoImplicit false

namespace Intake.Json

inductive Value
  | null
  | bool (b : Bool)
  | number (n : Numeral)
  | string (text : String)
  | list (items : List Value)
  | object (members : List (String × Value))

/-- The members with the key given this value, in place of one that it had. -/
def insert {α : Type} (key : String) (value : α) : List (String × α) → List (String × α)
  | [] => [(key, value)]
  | (k, v) :: members =>
    if key < k then (key, value) :: (k, v) :: members
    else if key = k then (key, value) :: members
    else (k, v) :: insert key value members

namespace Value

mutual

/-- Whether two values are the same. -/
def same : Value → Value → Bool
  | null, null => true
  | bool a, bool b => a == b
  | number m, number n => m == n
  | string s, string t => s == t
  | list xs, list ys => sameItems xs ys
  | object ms, object ns => sameMembers ms ns
  | _, _ => false

/-- Whether two lists hold the same values. -/
def sameItems : List Value → List Value → Bool
  | [], [] => true
  | x :: xs, y :: ys => if same x y then sameItems xs ys else false
  | _, _ => false

/-- Whether two lists hold the same members. -/
def sameMembers : List (String × Value) → List (String × Value) → Bool
  | [], [] => true
  | (k, v) :: ms, (l, w) :: ns => if k = l ∧ same v w then sameMembers ms ns else false
  | _, _ => false

end

mutual

theorem same_iff (a b : Value) : same a b = true ↔ a = b := by
  cases a with
  | null => cases b <;> simp [same]
  | bool _ => cases b <;> simp [same]
  | number _ => cases b <;> simp [same]
  | string _ => cases b <;> simp [same]
  | list xs =>
    cases b with
    | list ys => simpa [same] using sameItems_iff xs ys
    | _ => simp [same]
  | object ms =>
    cases b with
    | object ns => simpa [same] using sameMembers_iff ms ns
    | _ => simp [same]

theorem sameItems_iff (xs ys : List Value) : sameItems xs ys = true ↔ xs = ys := by
  cases xs with
  | nil => cases ys <;> simp [sameItems]
  | cons x xs =>
    cases ys with
    | nil => simp [sameItems]
    | cons y ys => simp [sameItems, same_iff x y, sameItems_iff xs ys]

theorem sameMembers_iff (ms ns : List (String × Value)) : sameMembers ms ns = true ↔ ms = ns := by
  cases ms with
  | nil => cases ns <;> simp [sameMembers]
  | cons m ms =>
    obtain ⟨k, v⟩ := m
    cases ns with
    | nil => simp [sameMembers]
    | cons n ns => simp [sameMembers, same_iff v n.2, sameMembers_iff ms ns, Prod.ext_iff]

end

instance : DecidableEq Value := fun a b ↦ decidable_of_iff _ (same_iff a b)

/-- The object with these members, the last value of a key that occurs more than once. -/
def ofMembers (members : List (String × Value)) : Value :=
  .object (members.foldl (fun read (key, value) ↦ insert key value read) [])

end Value

end Intake.Json
