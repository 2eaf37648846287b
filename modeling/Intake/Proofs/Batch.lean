import Intake.Batch
import Intake.Proofs.Json.RoundTrip

/-!
# The language of batches

A body is a batch if it is a list between blanks that is not too deep and means something
(`Batch.decode_identity_eq_ok_iff`). The list counts for the depth, so the events in it may be one
less deep than a document. They are the values that the items of the list mean.
-/

set_option autoImplicit false
set_option relaxedAutoImplicit false

namespace Intake.Batch

open Utf8 Json Json.Tree

theorem outcome_read_iff {s rest : Bytes} {batch : Batch} :
    outcome (read s) = some (batch, rest) ↔
      outcome (listFor (valueIn document (depthLimit - 1)) s) = some (batch.events, rest) := by
  unfold read
  rw [outcome_map, map_eq_some_iff]
  constructor
  · rintro ⟨events, h, rfl⟩
    exact h
  · intro h
    exact ⟨batch.events, h, rfl⟩

/-- A list between blanks is a batch if it is not too deep and means the list of its events. -/
theorem ofJson_chars_iff {u inner w : Blanks} {items : List (Padded Tree)} {batch : Batch} :
    ofJson (encode (u.chars ++ (Tree.list inner items).chars ++ w.chars)) = .ok batch ↔
      (Tree.list inner items).depth ≤ depthLimit ∧
        Means (.list inner items) (.list batch.events) := by
  rw [ofJson, whole_eq_ok_iff, means_iff, encode_append, encode_append, List.append_assoc]
  simp only [outcome_read_iff, listFor_chars_iff _ (endsNumber_encode w)]
  exact ⟨fun ⟨_, hdepth, hmeaning, _⟩ ↦ ⟨hdepth, hmeaning⟩,
    fun ⟨hdepth, hmeaning⟩ ↦ ⟨w, hdepth, hmeaning, rfl⟩⟩

/-- The decoded bodies that are batches are the lists between blanks that are not too deep and that
mean something. -/
theorem ofJson_eq_ok_iff {raw : Bytes} {batch : Batch} :
    ofJson raw = .ok batch ↔ ∃ (u inner w : Blanks) (items : List (Padded Tree)),
      raw = encode (u.chars ++ (Tree.list inner items).chars ++ w.chars) ∧
        (Tree.list inner items).depth ≤ depthLimit ∧
          Means (.list inner items) (.list batch.events) := by
  constructor
  · intro h
    obtain ⟨w, hw⟩ := whole_eq_ok_iff.mp h
    obtain ⟨u, inner, items, rfl⟩ := exists_list_of_listFor (outcome_read_iff.mp hw)
    rw [← List.append_assoc, ← encode_append, ← encode_append] at h
    exact ⟨u, inner, w, items, by simp, ofJson_chars_iff.mp h⟩
  · rintro ⟨u, inner, w, items, rfl, h⟩
    exact ofJson_chars_iff.mpr h

/-! ### Bodies that are decoded -/

/-- A body is decoded in two steps, and each of them has to succeed. -/
theorem decode_eq_ok_iff {codec : Codec} {body : Bytes} {batch : Batch} :
    decode codec body = .ok batch ↔
      ∃ raw, codec.decode body = .ok raw ∧ ofJson raw = .ok batch := by
  rw [decode]
  cases codec.decode body with
  | error fault => simp
  | ok raw => simp [mapError_eq_ok]

theorem decode_identity (body : Bytes) :
    decode .identity body = (ofJson body).mapError .json :=
  rfl

/-- A tree of a list between blanks is decoded as the events that the list means. -/
theorem decode_chars_iff {u inner w : Blanks} {items : List (Padded Tree)} {batch : Batch} :
    decode .identity (encode (u.chars ++ (Tree.list inner items).chars ++ w.chars)) = .ok batch ↔
      (Tree.list inner items).depth ≤ depthLimit ∧ Means (.list inner items) batch.toJson := by
  rw [decode_identity, mapError_eq_ok, ofJson_chars_iff]
  rfl

/-- Whatever the coding is, the events of a body are values that reading may give. -/
theorem readable_of_decode {codec : Codec} {body : Bytes} {batch : Batch}
    (h : decode codec body = .ok batch) : batch.toJson.Readable := by
  obtain ⟨raw, -, hraw⟩ := decode_eq_ok_iff.mp h
  obtain ⟨u, inner, w, items, -, -, hmeans⟩ := ofJson_eq_ok_iff.mp hraw
  exact readable_of_means hmeans

/-- A body that is not encoded is a batch if and only if it is the text of a list between blanks in
which at most 127 lists and objects are open at once, and which means something. The events are what
the items of the list mean. -/
theorem decode_identity_eq_ok_iff (body : Bytes) (batch : Batch) :
    decode .identity body = .ok batch ↔ ∃ (u inner w : Blanks) (items : List (Padded Tree)),
      body = encode (u.chars ++ (Tree.list inner items).chars ++ w.chars) ∧
        (Tree.list inner items).depth ≤ 127 ∧ Means (.list inner items) (.list batch.events) := by
  rw [decode_identity, mapError_eq_ok, ofJson_eq_ok_iff]
  rfl

/-- What a tree would stand for if only the key for numbers were set apart. -/
def numberApart : Apart := fun key ↦
  if key = numberKey then some fun text ↦ ((Numeral.ofText (encode text)).map .number).toOption
  else none

/-- The number one as it is written. -/
def one : Literal :=
  ⟨false, ⟨1, []⟩, none, none, by decide⟩

/-- An object with the key for texts is not read as an object, even though it would be one if only
the key for numbers were set apart. -/
theorem decode_held_list :
    (∃ t : Tree,
      encode "[\x7b\"$serde_json::private::RawValue\":\"[1]\"\x7d]".toList = encode t.chars ∧
        t.depth ≤ 127 ∧ t.meaning numberApart =
          some (.list [.object [("$serde_json::private::RawValue", .string "[1]")]])) ∧
      decode .identity
          (encode "[\x7b\"$serde_json::private::RawValue\":\"[1]\"\x7d]".toList) =
        .ok ⟨[.list [.number one.numeral]]⟩ ∧
      decode .identity
          (encode "[\x7b\"$serde_json::private::RawValue\":\"[1]\"\x7d]".toList) ≠
        .ok ⟨[.object [("$serde_json::private::RawValue", .string "[1]")]]⟩ := by
  have htext : ("[\x7b\"$serde_json::private::RawValue\":\"[1]\"\x7d]".toList : List Char) =
      Blanks.none.chars ++ (Tree.list .none
        (Tree.ofItems [.object [(textKey, .string "[1]")]])).chars ++ Blanks.none.chars := by
    decide
  have hheld : (Pieces.ofText "[1]".toList).unescaped = some (Blanks.none.chars ++
      (Tree.list .none [⟨.none, .number one, .none⟩]).chars ++ Blanks.none.chars) :=
    (unescaped_ofText _).trans (congrArg some (by decide))
  have hmeans : Means (Tree.list .none (Tree.ofItems [.object [(textKey, .string "[1]")]]))
      (.list [.list [.number one.numeral]]) :=
    .list (.cons (.heldText (unescaped_ofText textKey.toList) hheld (by decide)
      (.list (.cons (.number one) .nil))) .nil)
  have hdecode : decode .identity (encode
      "[\x7b\"$serde_json::private::RawValue\":\"[1]\"\x7d]".toList) =
        .ok ⟨[.list [.number one.numeral]]⟩ := by
    rw [htext]
    exact decode_chars_iff.mpr ⟨by decide, hmeans⟩
  refine ⟨⟨Tree.ofValue (.list [.object [("$serde_json::private::RawValue", .string "[1]")]]),
    congrArg encode (by decide), by decide, ?_⟩, hdecode, ?_⟩
  · have hnone : numberApart "$serde_json::private::RawValue" = none := if_neg (by decide)
    simp [Tree.ofValue, Tree.ofItems, Tree.ofMembers, Tree.meaning, itemsMeaning, membersMeaning,
      unescaped_ofText, hnone]
    rfl
  · rw [hdecode]
    simp

end Intake.Batch
