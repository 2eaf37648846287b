import Intake.Proofs.Batch
import Intake.Proofs.Json.Verbatim

/-!
# The text of a batch as its canonical form

Values are equal as data if they have the same shape, their numbers have the same texts, and their
objects have equal values under the same keys (`Value.Equal`). Values that reading may give are then
the same (`Value.equal_iff`), since the members of their objects are in order. Such a value can be
told from its text: read plainly, the text denotes that value and no other, whether or not a reader
takes it back (`Value.bytes_eq_iff`). So batches that were decoded are equal exactly if their texts
are (`Batch.toJson_bytes_eq_iff`).
-/

set_option autoImplicit false
set_option relaxedAutoImplicit false

namespace Intake

open Utf8 Json Json.Tree

namespace Json.Value

/-- Two values are equal as data. It does not matter in which order an object has its members. -/
inductive Equal : Value → Value → Prop
  | null : Equal .null .null
  | bool (b : Bool) : Equal (.bool b) (.bool b)
  | number {m n : Numeral} (htext : m.text = n.text) : Equal (.number m) (.number n)
  | string (text : String) : Equal (.string text) (.string text)
  | list {xs ys : List Value} (hlength : xs.length = ys.length)
    (hitems : ∀ (i : Nat) (x y : Value), xs[i]? = some x → ys[i]? = some y → Equal x y) :
    Equal (.list xs) (.list ys)
  | object {ms ns : List (String × Value)}
    (hkeys : ∀ key, (ms.lookup key).isSome ↔ (ns.lookup key).isSome)
    (hvalues : ∀ key x y, ms.lookup key = some x → ns.lookup key = some y → Equal x y) :
    Equal (.object ms) (.object ns)

mutual

theorem Equal.refl (v : Value) : Equal v v := by
  match v with
  | .null => exact .null
  | .bool b => exact .bool b
  | .number n => exact .number rfl
  | .string text => exact .string text
  | .list items =>
    refine .list rfl fun i x y hx hy ↦ ?_
    obtain rfl := Option.some_inj.mp (hx.symm.trans hy)
    exact equal_of_mem_items items x (List.mem_of_getElem? hx)
  | .object members =>
    refine .object (fun _ ↦ Iff.rfl) fun key x y hx hy ↦ ?_
    obtain rfl := Option.some_inj.mp (hx.symm.trans hy)
    exact equal_of_mem_members members (key, x) (mem_of_lookup hx)

theorem equal_of_mem_items (items : List Value) : ∀ x ∈ items, Equal x x := by
  match items with
  | [] => exact nofun
  | x :: items => exact List.forall_mem_cons.mpr ⟨Equal.refl x, equal_of_mem_items items⟩

theorem equal_of_mem_members (members : List (String × Value)) :
    ∀ entry ∈ members, Equal entry.2 entry.2 := by
  match members with
  | [] => exact nofun
  | (key, x) :: members =>
    exact List.forall_mem_cons.mpr ⟨Equal.refl x, equal_of_mem_members members⟩

end

/-- Numbers are told apart by their texts. -/
theorem numeral_eq_of_text {m n : Numeral} (h : m.text = n.text) : m = n := by
  have hchars : (Literal.ofNumeral m).chars = n.text.toList := by
    rw [chars_ofNumeral, ← h, Numeral.text, String.toList_ofList]
  rw [← numeral_eq_of_chars hchars, numeral_ofNumeral]

/-- Equal values that reading may give are the same. -/
theorem Equal.eq {v w : Value} (h : Equal v w) (hv : v.Readable) (hw : w.Readable) : v = w := by
  induction h with
  | null => rfl
  | bool b => rfl
  | number htext => rw [numeral_eq_of_text htext]
  | string text => rfl
  | @list xs ys hlength hitems ih =>
    cases hv with
    | list hxs =>
      cases hw with
      | list hys =>
        refine congrArg Value.list (List.ext_getElem hlength fun i hi hi' ↦ ?_)
        exact ih i xs[i] ys[i] (List.getElem?_eq_getElem hi) (List.getElem?_eq_getElem hi')
          (itemsReadable_iff.mp hxs _ (List.getElem_mem hi))
          (itemsReadable_iff.mp hys _ (List.getElem_mem hi'))
  | @object ms ns hkeys hvalues ih =>
    cases hv with
    | object hsorted hsole hmembers =>
      cases hw with
      | object hsorted' hsole' hmembers' =>
        refine congrArg Value.object (hsorted.ext hsorted' fun key ↦ ?_)
        have hkey := hkeys key
        cases hx : ms.lookup key with
        | none =>
          rw [hx, Option.isSome_none, Bool.false_eq_true, false_iff, Option.not_isSome_iff_eq_none]
            at hkey
          exact hkey.symm
        | some x =>
          rw [hx, Option.isSome_some, eq_self_iff_true, true_iff, Option.isSome_iff_exists] at hkey
          obtain ⟨y, hy⟩ := hkey
          rw [hy, ih key x y hx hy (membersReadable_iff.mp hmembers _ (mem_of_lookup hx))
            (membersReadable_iff.mp hmembers' _ (mem_of_lookup hy))]

theorem equal_iff {v w : Value} (hv : v.Readable) (hw : w.Readable) : Equal v w ↔ v = w := by
  constructor
  · intro h
    exact h.eq hv hw
  · rintro rfl
    exact .refl v

/-- The text of a value tells it from all others that reading may give. -/
theorem bytes_eq_iff {v w : Value} (hv : v.Readable) (hw : w.Readable) :
    v.bytes = w.bytes ↔ v = w := by
  constructor
  · intro hbytes
    have hdenotes : Denotes w.bytes v := hbytes ▸ (denotes_bytes_iff hv).mpr rfl
    exact (denotes_bytes_iff hw).mp hdenotes
  · rintro rfl
    rfl

end Json.Value

namespace Batch

variable {codec codec' : Codec} {body body' : Bytes} {a b : Batch}

/-- Batches that were decoded, whatever coding each of them came in, are equal if and only if their
texts are, and that is whether they are compared as they are kept or as data. -/
theorem toJson_bytes_eq_iff (ha : decode codec body = .ok a) (hb : decode codec' body' = .ok b) :
    (a = b ↔ a.toJson.bytes = b.toJson.bytes) ∧
      (Value.Equal a.toJson b.toJson ↔ a.toJson.bytes = b.toJson.bytes) := by
  have hread := readable_of_decode ha
  have hread' := readable_of_decode hb
  have hsame : a = b ↔ a.toJson = b.toJson := by
    obtain ⟨events⟩ := a
    obtain ⟨others⟩ := b
    simp [toJson]
  rw [Value.bytes_eq_iff hread hread', Value.equal_iff hread hread']
  exact ⟨hsame, Iff.rfl⟩

/-- An object with the key for numbers in front, as the order of the keys has it. -/
def numbered (b : Bool) : Value :=
  .object [("$serde_json::private::Number", .null), ("a", .bool b)]

/-- The object may be sent with its members the other way round. -/
theorem decode_numbered (b : Bool) :
    decode .identity (encode (Blanks.none.chars ++ (Tree.list .none
      (ofItems [.object [("a", .bool b), (numberKey, .null)]])).chars ++ Blanks.none.chars)) =
        .ok ⟨[numbered b]⟩ := by
  have hkeys : numberKey < "a" := by decide
  have hsorted : Ascending [(numberKey, Value.null), ("a", Value.bool b)] :=
    List.pairwise_pair.mpr hkeys
  have hmembers : MembersMean (ofMembers [("a", .bool b), (numberKey, .null)])
      [("a", .bool b), (numberKey, .null)] :=
    .cons (unescaped_ofText "a".toList) (.bool b)
      (.cons (unescaped_ofText numberKey.toList) .null .nil)
  have hobject : Means (.object .none (ofMembers [("a", .bool b), (numberKey, .null)]))
      (numbered b) :=
    .object (unescaped_ofText "a".toList) (by decide) (by decide) hmembers hsorted fun k ↦ rfl
  rw [decode_chars_iff]
  exact ⟨by cases b <;> decide, .list (.cons hobject .nil)⟩

theorem toJson_bytes_ne_numbered :
    decode .identity (encode
        "[\x7b\"a\":false,\"$serde_json::private::Number\":null\x7d]".toList) =
      .ok ⟨[numbered false]⟩ ∧
    decode .identity (encode
        "[\x7b\"a\":true,\"$serde_json::private::Number\":null\x7d]".toList) =
      .ok ⟨[numbered true]⟩ ∧
    (toJson ⟨[numbered false]⟩).bytes ≠ (toJson ⟨[numbered true]⟩).bytes ∧
      ¬ (toJson ⟨[numbered false]⟩).Equal (toJson ⟨[numbered true]⟩) := by
  have hfalse := decode_numbered false
  have htrue := decode_numbered true
  obtain ⟨hsame, hequal⟩ := toJson_bytes_eq_iff hfalse htrue
  have hne : (⟨[numbered false]⟩ : Batch) ≠ ⟨[numbered true]⟩ := by simp [numbered]
  have hbytes := mt hsame.mpr hne
  exact ⟨hfalse, htrue, hbytes, mt hequal.mp hbytes⟩

end Batch

end Intake
