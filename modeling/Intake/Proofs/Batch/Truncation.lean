import Intake.Proofs.Batch
import Intake.Proofs.Json.CutValues
import Mathlib.Data.List.Induction
import Mathlib.Data.List.TakeWhile

/-!
# Bodies that are cut

A body that is a batch is still the same one if blanks are cut off its end. If anything else is cut
off, it is refused for ending too early, and the place is its end (`decode_front`). So what is
refused for another reason is no batch, whatever is put behind it.
-/

set_option autoImplicit false
set_option relaxedAutoImplicit false

namespace Intake

open Utf8 Json Json.Tree

/-- The end of a text is in the line behind its last line feed. -/
theorem Json.Position.after_length (s : Bytes) :
    Position.after s.length s =
      ⟨1 + s.count '\n'.toUInt8, (s.reverse.takeWhile (· ≠ '\n'.toUInt8)).length⟩ := by
  rw [Position.after, List.take_length]
  induction s using List.reverseRecOn with
  | nil => rfl
  | append_singleton s b ih =>
    rw [List.foldl_append, ih, List.foldl_cons, List.foldl_nil, Position.step, List.count_append,
      List.count_singleton, List.reverse_append, List.reverse_singleton, List.singleton_append,
      List.takeWhile_cons]
    by_cases hb : b = '\n'.toUInt8
    · simp [hb, Nat.add_assoc]
    · simp [hb]

/-- A fault at the end of a text is one of a text that was cut short. -/
theorem Json.Fault.IsEnd.ofFault {e : Fault} (h : e.IsEnd) (text : Bytes) :
    (Error.ofFault text e).cause.refusal = .cutShort ∧
      (Error.ofFault text e).position = Position.after text.length text := by
  obtain ⟨problem, hproblem, rfl⟩ := h
  refine ⟨?_, rfl⟩
  show (if problem.isEnd then Refusal.cutShort else .malformed) = _
  rw [if_pos hproblem]

theorem Json.skipBlanks_eq_nil_iff_forall {s : Bytes} :
    skipBlanks s = [] ↔ ∀ b ∈ s, isBlank b = true :=
  List.dropWhile_eq_nil_iff

namespace Batch

theorem noticesCut_read : NoticesCut read := by
  intro s cut batch final h
  have hlist := noticesCut_listFor (passesBlanks_valueIn (depthLimit - 1))
    (noticesCutWithin_valueIn (depthLimit - 1)) (outcome_read_iff.mp h)
  exact hlist.map Batch.mk

/-- A batch ends with a bracket, so blanks at the end are no part of it. -/
theorem ofJson_of_append_blanks {front back : Bytes} {batch : Batch}
    (hback : ∀ b ∈ back, isBlank b = true) (h : ofJson (front ++ back) = .ok batch) :
    ofJson front = .ok batch := by
  obtain ⟨u, inner, w, items, hbody, hbatch⟩ := ofJson_eq_ok_iff.mp h
  obtain ⟨start, hstart⟩ : ∃ start, ∀ v : Blanks,
      encode (u.chars ++ (Tree.list inner items).chars ++ v.chars) =
        start ++ ']'.toUInt8 :: encode v.chars := by
    refine ⟨encode (u.chars ++ '[' :: (inner.chars ++ [','].intercalate (itemTexts items))),
      fun v ↦ ?_⟩
    have hbracket : encode (']' :: v.chars) = ']'.toUInt8 :: encode v.chars := by
      rw [encode_cons, utf8EncodeChar_of_lt (by decide)]
      rfl
    rw [← hbracket, ← encode_append, Tree.chars]
    simp
  rw [hstart, List.append_eq_append_iff] at hbody
  obtain ⟨more, -, hmore⟩ | ⟨more, hfront, hmore⟩ := hbody
  · have hbracket : isBlank ']'.toUInt8 = true := hback _ (by simp [hmore])
    exact absurd hbracket (by decide)
  · cases more with
    | nil =>
      obtain rfl : ']'.toUInt8 :: encode w.chars = back := hmore
      have hbracket : isBlank ']'.toUInt8 = true := hback _ List.mem_cons_self
      exact absurd hbracket (by decide)
    | cons b more =>
      obtain ⟨rfl, hw⟩ := List.cons.inj hmore
      have hblank := skipBlanks_eq_nil_iff_forall.mp (skipBlanks_eq_nil_iff.mpr ⟨w, rfl⟩)
      obtain ⟨v, rfl⟩ := skipBlanks_eq_nil_iff.mp
        (skipBlanks_eq_nil_iff_forall.mpr fun b hb ↦ hblank b (hw ▸ List.mem_append_left _ hb))
      rw [hfront, ← hstart]
      exact ofJson_chars_iff.mpr hbatch

/-- A batch from which more than blanks is cut off is refused at its end. -/
theorem exists_error_of_cut {front back : Bytes} {batch : Batch}
    (hback : ¬ ∀ b ∈ back, isBlank b = true) (h : ofJson (front ++ back) = .ok batch) :
    ∃ e, ofJson front = .error e ∧ e.cause.refusal = .cutShort ∧
      e.position = Position.after front.length front := by
  obtain ⟨w, hw⟩ := whole_eq_ok_iff.mp h
  cases hread : read front with
  | error fault =>
    refine ⟨.ofFault front fault, ?_, (noticesCut_read.isEnd hw hread).ofFault front⟩
    rw [ofJson, whole, hread]
  | ok t =>
    obtain ⟨-, hrest⟩ := noticesCut_read.eq hw hread
    have hblank := skipBlanks_eq_nil_iff_forall.mp (skipBlanks_eq_nil_iff.mpr ⟨w, rfl⟩)
    exact absurd (fun b hb ↦ hblank b (hrest ▸ List.mem_append_right _ hb)) hback

/-- If a body is a batch, so is every front of it that lacks nothing but blanks, and every other
front is refused for ending too early, behind all its lines and all bytes of the last of them. If a
body is refused for another reason, it is the front of no batch. -/
theorem decode_front (front back : Bytes) :
    (∀ batch, decode .identity (front ++ back) = .ok batch →
      ((∀ b ∈ back, isBlank b = true) → decode .identity front = .ok batch) ∧
      ((¬ ∀ b ∈ back, isBlank b = true) → ∃ e, decode .identity front = .error (.json e) ∧
        e.cause.refusal = .cutShort ∧ e.position = ⟨1 + front.count '\n'.toUInt8,
          (front.reverse.takeWhile (· ≠ '\n'.toUInt8)).length⟩)) ∧
    (∀ e, decode .identity front = .error (.json e) → e.cause.refusal ≠ .cutShort →
      ∀ batch, decode .identity (front ++ back) ≠ .ok batch) := by
  have hblanks : ∀ batch, decode .identity (front ++ back) = .ok batch →
      (∀ b ∈ back, isBlank b = true) → decode .identity front = .ok batch := by
    intro batch hbatch hback
    rw [decode_identity, mapError_eq_ok] at hbatch ⊢
    exact ofJson_of_append_blanks hback hbatch
  have hcut : ∀ batch, decode .identity (front ++ back) = .ok batch →
      (¬ ∀ b ∈ back, isBlank b = true) → ∃ e, decode .identity front = .error (.json e) ∧
        e.cause.refusal = .cutShort ∧ e.position = Position.after front.length front := by
    intro batch hbatch hback
    rw [decode_identity, mapError_eq_ok] at hbatch
    obtain ⟨e, he, hposition⟩ := exists_error_of_cut hback hbatch
    exact ⟨e, by rw [decode_identity, he, mapError_error], hposition⟩
  rw [← Position.after_length]
  refine ⟨fun batch hbatch ↦ ⟨hblanks batch hbatch, hcut batch hbatch⟩, ?_⟩
  intro e he hrefusal batch hbatch
  by_cases hback : ∀ b ∈ back, isBlank b = true
  · exact absurd (he.symm.trans (hblanks batch hbatch hback)) (by simp)
  · obtain ⟨e', he', hshort, -⟩ := hcut batch hbatch hback
    obtain rfl := Fault.json.inj (Except.error.inj (he.symm.trans he'))
    exact hrefusal hshort

/-- The end of a line. -/
def lineFeed : Blanks :=
  ⟨['\n'], by simp⟩

/-- A list of one number, cut behind the number in its second line. -/
theorem decode_front_number :
    decode .identity (encode "[\n1".toList ++ encode "]\n".toList) =
        .ok ⟨[.number one.numeral]⟩ ∧
      (¬ ∀ b ∈ encode "]\n".toList, isBlank b = true) ∧
        ∃ e, decode .identity (encode "[\n1".toList) = .error (.json e) ∧
          e.cause.refusal = .cutShort ∧ e.position = ⟨2, 1⟩ := by
  have hbody : encode "[\n1".toList ++ encode "]\n".toList =
      encode (Blanks.none.chars ++ (Tree.list .none [⟨lineFeed, .number one, .none⟩]).chars ++
        lineFeed.chars) := by
    decide
  have hbatch : decode .identity (encode "[\n1".toList ++ encode "]\n".toList) =
      .ok ⟨[.number one.numeral]⟩ := by
    rw [hbody]
    exact decode_chars_iff.mpr ⟨by decide, .list (.cons (.number one) .nil)⟩
  have hback : ¬ ∀ b ∈ encode "]\n".toList, isBlank b = true := by decide
  exact ⟨hbatch, hback, ((decode_front _ _).1 _ hbatch).2 hback⟩

end Batch

end Intake
