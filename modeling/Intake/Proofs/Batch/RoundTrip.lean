import Intake.Proofs.Batch
import Intake.Proofs.Json.Parts

/-!
# Decoding a batch again

A batch that was decoded is written as a body that need not be a batch. It is one, and the same one,
if it is not too deep and if no key that is set apart is the least one of an object in it
(`decode_toJson_iff`). A body that holds a text under the key for texts shows that the first
condition is needed: the text has a depth of its own, so it may be deeper than the batch it is in.
-/

set_option autoImplicit false
set_option relaxedAutoImplicit false

namespace Intake.Batch

open Utf8 Json Json.Tree Json.Value

/-! ### Bodies that are written -/

theorem bytes_toJson (batch : Batch) :
    batch.toJson.bytes = encode (Blanks.none.chars ++
      (Tree.list .none (ofItems batch.events)).chars ++ Blanks.none.chars) := by
  rw [bytes_between, toJson, Tree.ofValue]

theorem decode_bytes_iff {batch other : Batch} (h : batch.toJson.Readable) :
    decode .identity batch.toJson.bytes = .ok other ↔
      batch.toJson.depth ≤ depthLimit ∧ batch.toJson.Plain ∧ other = batch := by
  have htree : Tree.list .none (ofItems batch.events) = Tree.ofValue batch.toJson := by
    rw [toJson, Tree.ofValue]
  have hsame : batch.toJson = other.toJson ↔ other = batch := by
    obtain ⟨events⟩ := batch
    obtain ⟨others⟩ := other
    simp [toJson, eq_comm]
  rw [bytes_toJson, decode_chars_iff, htree, means_iff, depth_ofValue, meaning_ofValue h, hsame]

/-! ### Texts that are held -/

/-- A list in a list, and so on, `n + 1` lists in all. -/
def nested : Nat → Value
  | 0 => .list []
  | n + 1 => .list [nested n]

theorem depth_nested (n : Nat) : (nested n).depth = n + 1 := by
  induction n with
  | zero => rfl
  | succ n ih => rw [nested, Value.depth, Value.itemsDepth, Value.itemsDepth, ih, Nat.max_zero]

theorem readable_nested (n : Nat) : (nested n).Readable := by
  induction n with
  | zero => exact .list .nil
  | succ n ih => exact .list (.cons ih .nil)

theorem plain_nested (n : Nat) : (nested n).Plain := by
  induction n with
  | zero => trivial
  | succ n ih => exact ⟨ih, trivial⟩

theorem nowhereLeast_nested (key : String) (n : Nat) : NowhereLeast key (nested n) := by
  induction n with
  | zero => exact nowhereLeast_list_iff.mpr nofun
  | succ n ih => exact nowhereLeast_list_iff.mpr (List.forall_mem_singleton.mpr ih)

/-- An object that holds the text of a value. -/
def held (v : Value) : Value :=
  .object [(textKey, .string v.text)]

/-- A value that is held is read on its own, so it may be as deep as a document. -/
theorem decode_held {v : Value} (hread : v.Readable) (hplain : v.Plain)
    (hdepth : v.depth ≤ depthLimit) :
    decode .identity (toJson ⟨[held v]⟩).bytes = .ok ⟨[v]⟩ := by
  have hlimit : (Tree.list .none (ofItems [held v])).depth ≤ depthLimit := by
    simp [held, ofItems, Tree.ofValue, Tree.ofMembers, Tree.depth, Tree.itemsDepth,
      Tree.membersDepth, depthLimit]
  have htext : (Pieces.ofText v.text.toList).unescaped =
      some (Blanks.none.chars ++ (Tree.ofValue v).chars ++ Blanks.none.chars) := by
    rw [unescaped_ofText, Value.text, toList_onto]
    simp [Blanks.none]
  have hmeans : Means (Tree.ofValue v) v :=
    means_iff.mpr ((meaning_ofValue hread).mpr ⟨hplain, rfl⟩)
  rw [bytes_toJson, decode_chars_iff]
  exact ⟨hlimit, .list (.cons (.heldText (unescaped_ofText textKey.toList) htext
    ((depth_ofValue v).trans_le hdepth) hmeans) .nil)⟩

/-! ### Decoding again -/

/-- The text of a batch that was decoded is decoded as that batch again if at most 127 lists and
objects are nested in it and no key that is set apart is the least key of any object in it.
Otherwise it is not decoded at all. -/
theorem decode_toJson_iff {codec : Codec} {body : Bytes} {batch : Batch}
    (h : decode codec body = .ok batch) (other : Batch) :
    decode .identity batch.toJson.bytes = .ok other ↔
      other = batch ∧ batch.toJson.depth ≤ 127 ∧
        NowhereLeast "$serde_json::private::Number" batch.toJson ∧
          NowhereLeast "$serde_json::private::RawValue" batch.toJson := by
  have hread := readable_of_decode h
  rw [decode_bytes_iff hread, plain_iff_nowhere hread]
  constructor
  · intro ⟨hdepth, hkeys, hsame⟩
    exact ⟨hsame, hdepth, hkeys⟩
  · intro ⟨hsame, hdepth, hkeys⟩
    exact ⟨hdepth, hkeys, hsame⟩

/-- A batch that is as deep as one can be that is decoded again. The body that it comes from is not
so deep. -/
theorem decode_toJson_nested :
    decode .identity (toJson ⟨[held (nested 125)]⟩).bytes = .ok ⟨[nested 125]⟩ ∧
      decode .identity (toJson ⟨[nested 125]⟩).bytes = .ok ⟨[nested 125]⟩ := by
  have hbody : decode .identity (toJson ⟨[held (nested 125)]⟩).bytes = .ok ⟨[nested 125]⟩ :=
    decode_held (readable_nested 125) (plain_nested 125) (by rw [depth_nested, depthLimit]; decide)
  exact ⟨hbody, (decode_toJson_iff hbody _).mpr ⟨rfl, (depth_nested 126).le,
    nowhereLeast_nested _ 126, nowhereLeast_nested _ 126⟩⟩

/-- An object with a key that is set apart in front, as the order of the keys has it. -/
def ordered : Value :=
  .object [("$serde_json::private::RawValue", .null), ("a", .null)]

/-- The members of an object are put in order, which may bring a key to the front that is set
apart. -/
theorem decode_unordered :
    decode .identity (encode
        "[\x7b\"a\":null,\"$serde_json::private::RawValue\":null\x7d]".toList) =
      .ok ⟨[ordered]⟩ := by
  have htext : "[\x7b\"a\":null,\"$serde_json::private::RawValue\":null\x7d]".toList =
      Blanks.none.chars ++ (Tree.list .none
        (ofItems [.object [("a", .null), (textKey, .null)]])).chars ++ Blanks.none.chars := by
    decide
  have hsorted : Ascending [(textKey, Value.null), ("a", Value.null)] :=
    List.pairwise_pair.mpr (by decide)
  have hmembers : MembersMean (ofMembers [("a", .null), (textKey, .null)])
      [("a", .null), (textKey, .null)] :=
    .cons (unescaped_ofText "a".toList) .null
      (.cons (unescaped_ofText textKey.toList) .null .nil)
  rw [htext, decode_chars_iff]
  exact ⟨by decide, .list (.cons (.object (unescaped_ofText "a".toList) (by decide) (by decide)
    hmembers hsorted fun k ↦ rfl) .nil)⟩

theorem nowhereLeast_ordered : NowhereLeast numberKey (toJson ⟨[ordered]⟩) := by
  refine nowhereLeast_list_iff.mpr (List.forall_mem_singleton.mpr ?_)
  apply nowhereLeast_object_iff.mpr
  refine ⟨fun hleast ↦ absurd hleast.1 (by decide), List.forall_mem_cons.mpr ⟨?_, ?_⟩⟩
  · exact fun _ ↦ nofun
  · exact List.forall_mem_singleton.mpr fun _ ↦ nofun

/-- A batch need not be decoded again although the key for numbers is nowhere the least one in it.
In the first body it is the key for texts that comes to the front, and in the second one a list is
held that is too deep to be an event. -/
theorem not_decode_toJson :
    (decode .identity (encode
          "[\x7b\"a\":null,\"$serde_json::private::RawValue\":null\x7d]".toList) =
        .ok ⟨[ordered]⟩ ∧
      NowhereLeast "$serde_json::private::Number" (toJson ⟨[ordered]⟩) ∧
      decode .identity (toJson ⟨[ordered]⟩).bytes ≠ .ok ⟨[ordered]⟩) ∧
    decode .identity (toJson ⟨[held (nested 126)]⟩).bytes = .ok ⟨[nested 126]⟩ ∧
      NowhereLeast "$serde_json::private::Number" (toJson ⟨[nested 126]⟩) ∧
      decode .identity (toJson ⟨[nested 126]⟩).bytes ≠ .ok ⟨[nested 126]⟩ := by
  have hdeep : decode .identity (toJson ⟨[held (nested 126)]⟩).bytes = .ok ⟨[nested 126]⟩ :=
    decode_held (readable_nested 126) (plain_nested 126) (depth_nested 126).le
  refine ⟨⟨decode_unordered, nowhereLeast_ordered, fun h ↦ ?_⟩, hdeep, nowhereLeast_nested _ 127,
    fun h ↦ ?_⟩
  · obtain ⟨-, hplain, -⟩ := (decode_bytes_iff (readable_of_decode decode_unordered)).mp h
    exact hplain.1.1 (Or.inr rfl)
  · obtain ⟨hdepth, -, -⟩ := (decode_bytes_iff (readable_of_decode hdeep)).mp h
    exact absurd ((depth_nested 127).symm.trans_le hdepth) (by decide)

end Intake.Batch
