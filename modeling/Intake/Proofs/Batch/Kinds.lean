import Intake.Proofs.Batch
import Intake.Proofs.Json.Kinds
import Intake.Proofs.Json.Verbatim

/-!
# Batches that are taken as they were sent

An event is the business of its sender, but some of them are not taken for what they are. A list
whose strings stand for texts is decoded as what it denotes if no object in it begins with a key
that is set apart. Otherwise it is refused, or an event in it is taken for one of another shape
(`decode_textual_iff`).
-/

set_option autoImplicit false
set_option relaxedAutoImplicit false

namespace Intake.Batch

open Utf8 Json Json.Tree Json.Value

variable {u inner w : Blanks} {items : List (Padded Tree)} {sent : List Value}

theorem decode_of_ordinary (hsent : (Tree.list inner items).denoted = some (.list sent))
    (hdepth : (Tree.list inner items).depth ≤ depthLimit)
    (hordinary : (Tree.list inner items).Ordinary) :
    decode .identity (encode (u.chars ++ (Tree.list inner items).chars ++ w.chars)) =
      .ok ⟨sent⟩ := by
  rw [decode_chars_iff, means_iff, meaning_of_ordinary hordinary]
  exact ⟨hdepth, hsent⟩

theorem ordinary_of_decode (hsent : (Tree.list inner items).denoted = some (.list sent))
    (hdistinct : (Tree.list inner items).Distinct) {batch : Batch}
    (hbatch : decode .identity (encode (u.chars ++ (Tree.list inner items).chars ++ w.chars)) =
      .ok batch) (halike : ItemsAlike sent batch.events) : (Tree.list inner items).Ordinary :=
  ordinary_of_alike hdistinct hsent (decode_chars_iff.mp hbatch).2 (.list halike)

/-- Let the body be the text of a list between blanks whose strings stand for texts and in which at
most 127 lists and objects are open at once. It denotes a list of events. If no object in it begins
with a key that is set apart, it is decoded as that list. If no object in it has a key twice, there
is no other way to get events of the same kinds and keys out of it. -/
theorem decode_textual_iff (u inner w : Blanks) {items : List (Padded Tree)}
    (htextual : (Tree.list inner items).Textual) (hdepth : (Tree.list inner items).depth ≤ 127) :
    ∃ sent, (Tree.list inner items).denoted = some (.list sent) ∧
      ((Tree.list inner items).Ordinary →
        decode .identity (encode (u.chars ++ (Tree.list inner items).chars ++ w.chars)) =
          .ok ⟨sent⟩) ∧
      ((Tree.list inner items).Distinct →
        ((∃ batch, decode .identity (encode (u.chars ++ (Tree.list inner items).chars ++ w.chars)) =
            .ok batch ∧ ItemsAlike sent batch.events) ↔ (Tree.list inner items).Ordinary)) := by
  obtain ⟨v, hv⟩ := exists_denoted htextual
  have hlist := hv
  rw [denoted_list] at hlist
  obtain ⟨sent, -, rfl⟩ := Option.map_eq_some_iff.mp hlist
  refine ⟨sent, hv, decode_of_ordinary hv hdepth, fun hdistinct ↦ ⟨?_, fun hordinary ↦ ?_⟩⟩
  · intro h
    obtain ⟨batch, hbatch, halike⟩ := h
    exact ordinary_of_decode hv hdistinct hbatch halike
  · exact ⟨⟨sent⟩, decode_of_ordinary hv hdepth hordinary, ItemsAlike.refl sent⟩

/-- An object with a key that is set apart behind another one. -/
def late : Value :=
  .object [("a", .null), ("$serde_json::private::Number", .null)]

/-- A key that is set apart does no harm behind another one. -/
theorem decode_textual_late :
    (Tree.ofValue (.list [late])).Textual ∧ (Tree.ofValue (.list [late])).depth ≤ 127 ∧
      ∃ sent, (Tree.ofValue (.list [late])).denoted = some (.list sent) ∧
        decode .identity (encode
          "[\x7b\"a\":null,\"$serde_json::private::Number\":null\x7d]".toList) = .ok ⟨sent⟩ := by
  have htext : "[\x7b\"a\":null,\"$serde_json::private::Number\":null\x7d]".toList =
      Blanks.none.chars ++ (Tree.ofValue (.list [late])).chars ++ Blanks.none.chars := by
    decide
  have hplain : (Value.list [late]).Plain := ⟨⟨by decide, trivial, trivial, trivial⟩, trivial⟩
  have htextual := textual_ofValue (.list [late])
  obtain ⟨sent, hsent, hdecode, -⟩ := decode_textual_iff .none .none .none htextual (by decide)
  refine ⟨htextual, by decide, sent, hsent, ?_⟩
  rw [htext]
  exact hdecode (ordinary_ofValue hplain)

/-- An object with the key for numbers is taken for the number in its string. -/
theorem decode_held_number :
    (∃ t : Tree,
      encode "[\x7b\"$serde_json::private::Number\":\"1\"\x7d]".toList = encode t.chars ∧
        t.depth ≤ 127 ∧ t.denoted =
          some (.list [.object [("$serde_json::private::Number", .string "1")]])) ∧
      decode .identity
          (encode "[\x7b\"$serde_json::private::Number\":\"1\"\x7d]".toList) =
        .ok ⟨[.number one.numeral]⟩ ∧
      ¬ ItemsAlike [.object [("$serde_json::private::Number", .string "1")]]
        [.number one.numeral] := by
  have htext : "[\x7b\"$serde_json::private::Number\":\"1\"\x7d]".toList =
      Blanks.none.chars ++ (Tree.list .none
        (ofItems [.object [(numberKey, .string "1")]])).chars ++ Blanks.none.chars := by
    decide
  have hmeans : Means (Tree.list .none (ofItems [.object [(numberKey, .string "1")]]))
      (.list [.number one.numeral]) :=
    .list (.cons (.heldNumber (unescaped_ofText numberKey.toList)
      (unescaped_ofText one.chars)) .nil)
  have hwrites : Writes (Tree.list .none (ofItems [.object [(numberKey, .string "1")]]))
      (.list [.object [(numberKey, .string "1")]]) :=
    .list (.cons (.object (List.pairwise_singleton _ _) (.cons (unescaped_ofText numberKey.toList)
      (.string (unescaped_ofText "1".toList)) .nil)) .nil)
  refine ⟨⟨Tree.list .none (ofItems [.object [(numberKey, .string "1")]]), ?_, by decide,
    denoted_of_writes hwrites⟩, ?_, ?_⟩
  · rw [htext]
    simp [Blanks.none]
  · rw [htext, decode_chars_iff]
    exact ⟨by decide, hmeans⟩
  · intro h
    cases h with
    | cons hx _ => exact nomatch hx

end Intake.Batch
