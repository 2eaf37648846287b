import Intake.Ack.Reader
import Intake.Proofs.Json.Skipping
import Intake.Proofs.Json.Typed

/-!
# The trees that are acknowledgements

The members of an object are gone through with the status that was read so far, if any: a member
with the key of the status gives one where there is none yet, and any other is skipped (`statusOf`).
What the reader takes a tree for is then `ackOf` (`readsTrees_read`), and whole texts are lists of
such trees (`listOfJson_chars_iff`).
-/

set_option autoImplicit false
set_option relaxedAutoImplicit false

namespace Intake.Ack

open Utf8 Json Json.Tree

/-! ### Members -/

/-- The status behind a member, given the one in front of it. -/
def statusBehind (status : Option UInt16) (key : String) (t : Tree) : Option (Option UInt16) :=
  if key = statusKey then
    if status.isSome then none else t.word?.map some
  else some status

/-- The status behind all members of an object. There is none where they cannot be read. -/
def statusOf : Option UInt16 → List (Member Tree) → Option UInt16
  | status, [] => status
  | status, ⟨_, key, _, _, t, _⟩ :: members =>
    key.unescaped.bind fun text ↦
      (statusBehind status (String.ofList text) t).bind fun status ↦ statusOf status members

theorem outcome_readMember (status : Option UInt16) (key : String)
    (between behind after : Blanks) (t : Tree) {s : Bytes} (hs : EndsNumber s) :
    outcome (readMember status key (memberTail between behind after t s)) =
      (statusBehind status key t).map (·, encode after.chars ++ s) := by
  have hends := endsNumber_blanks after hs
  have hcolon : outcome (colon (memberTail between behind after t s)) =
      some ((), encode behind.chars ++ (encode t.chars ++ (encode after.chars ++ s))) :=
    outcome_colon_iff.mpr (skipBlanks_encode_cons between _ (by decide))
  obtain ⟨hshorter, hbehind⟩ := exists_of_outcome_eq_some hcolon
  unfold readMember statusBehind
  rw [hbehind]
  dsimp only
  split_ifs with hkey hstatus
  · rfl
  · rw [outcome_map_widen_map, outcome_word16 behind t hends, Option.map_map, Option.map_map]
    rfl
  · rw [outcome_map_widen_map, outcome_skip behind t hends]
    rfl

theorem outcome_ofStatus {source rest : Bytes} (status : Option UInt16)
    (h : rest.length < source.length) :
    outcome (ofStatus status rest h) = status.map fun w ↦ (⟨w⟩, rest) := by
  cases status with
  | none => rfl
  | some w => rfl

section Steps

variable {source s s₁ s₂ s₃ : Bytes} {status status' : Option UInt16} {key : String}

theorem outcome_membersOnto_eq_none (h : s.length ≤ source.length)
    (hread : outcome (readMember status key s) = none) :
    outcome (membersOnto source status key s h) = none := by
  obtain ⟨e, hmember⟩ := exists_of_outcome_eq_none hread
  rw [membersOnto, hmember]
  rfl

theorem outcome_membersOnto_brace (h : s.length ≤ source.length)
    (hread : outcome (readMember status key s) = some (status', s₁))
    (hend : skipBlanks s₁ = '\x7d'.toUInt8 :: s₂) :
    outcome (membersOnto source status key s h) = status'.map fun w ↦ (⟨w⟩, s₂) := by
  obtain ⟨hshorter, hmember⟩ := exists_of_outcome_eq_some hread
  rw [membersOnto, hmember]
  dsimp only
  split
  · rename_i hnil
    exact absurd (hend.symm.trans hnil) (by simp)
  · rename_i b after hs
    obtain ⟨rfl, rfl⟩ := List.cons.inj (hend.symm.trans hs)
    rw [if_pos rfl, outcome_ofStatus]

theorem outcome_membersOnto_comma (h : s.length ≤ source.length)
    (hread : outcome (readMember status key s) = some (status', s₁))
    (hcomma : skipBlanks s₁ = ','.toUInt8 :: s₂) (hmark : skipBlanks s₂ = '"'.toUInt8 :: s₃) :
    (outcome (Quote.read s₃) = none → outcome (membersOnto source status key s h) = none) ∧
      ∀ {next : String} {s₄ : Bytes}, outcome (Quote.read s₃) = some (next, s₄) →
        ∃ h₄ : s₄.length ≤ source.length, outcome (membersOnto source status key s h) =
          outcome (membersOnto source status' next s₄ h₄) := by
  obtain ⟨hshorter, hmember⟩ := exists_of_outcome_eq_some hread
  have hafter := length_lt_of_skipBlanks hcomma
  have hbehind := length_lt_of_skipBlanks hmark
  rw [membersOnto, hmember]
  dsimp only
  split
  · rename_i hnil
    exact absurd (hcomma.symm.trans hnil) (by simp)
  · rename_i b after hs
    obtain ⟨rfl, rfl⟩ := List.cons.inj (hcomma.symm.trans hs)
    rw [if_neg comma_ne_brace, if_pos rfl]
    split
    · rename_i hnil
      exact absurd (hmark.symm.trans hnil) (by simp)
    · rename_i c behind hs'
      obtain ⟨rfl, rfl⟩ := List.cons.inj (hmark.symm.trans hs')
      rw [if_pos rfl]
      refine ⟨fun hkey ↦ ?_, fun {next s₄} hkey ↦ ?_⟩
      · obtain ⟨e, hquote⟩ := exists_of_outcome_eq_none hkey
        rw [hquote]
        rfl
      · obtain ⟨h₄, hquote⟩ := exists_of_outcome_eq_some hkey
        rw [hquote]
        exact ⟨by omega, rfl⟩

end Steps

/-- The members from behind the key of the first of them give the status that they have. -/
theorem outcome_membersOnto {source : Bytes} (members : List (Member Tree))
    (status : Option UInt16) (key : String) (between behind after : Blanks) (t : Tree) (s : Bytes)
    (h : (memberTail between behind after t (objectTail members s)).length ≤ source.length) :
    outcome (membersOnto source status key
        (memberTail between behind after t (objectTail members s)) h) =
      ((statusBehind status key t).bind fun status ↦ statusOf status members).map
        fun w ↦ (⟨w⟩, s) := by
  induction members generalizing status key between behind after t with
  | nil =>
    have hread := outcome_readMember status key between behind after t (endsNumber_objectTail [] s)
    have hend : skipBlanks (encode after.chars ++ objectTail [] s) = '\x7d'.toUInt8 :: s :=
      skipBlanks_objectTail_iff.mpr ⟨rfl, rfl⟩
    cases hstatus : statusBehind status key t with
    | none =>
      rw [hstatus, Option.map_none] at hread
      rw [outcome_membersOnto_eq_none h hread]
      rfl
    | some status' =>
      rw [hstatus, Option.map_some] at hread
      rw [outcome_membersOnto_brace h hread hend, Option.bind_some, statusOf]
  | cons m members ih =>
    obtain ⟨before, next, between', behind', t', after'⟩ := m
    have hread := outcome_readMember status key between behind after t
      (endsNumber_objectTail (⟨before, next, between', behind', t', after'⟩ :: members) s)
    have hcomma : skipBlanks (encode after.chars ++
        objectTail (⟨before, next, between', behind', t', after'⟩ :: members) s) =
          ','.toUInt8 :: (encode before.chars ++ '"'.toUInt8 :: (encode next.chars ++
            '"'.toUInt8 :: memberTail between' behind' after' t' (objectTail members s))) := by
      rw [skipBlanks_encode, skipBlanks_objectTail, objectTail_cons]
    have hquote := outcome_read_pieces next
      (memberTail between' behind' after' t' (objectTail members s))
    cases hstatus : statusBehind status key t with
    | none =>
      rw [hstatus, Option.map_none] at hread
      rw [outcome_membersOnto_eq_none h hread]
      rfl
    | some status' =>
      rw [hstatus, Option.map_some] at hread
      obtain ⟨hfail, hgo⟩ := outcome_membersOnto_comma h hread hcomma
        (skipBlanks_encode_cons before _ (by decide))
      rw [Option.bind_some, statusOf]
      cases htext : next.unescaped with
      | none =>
        rw [htext, Option.map_none] at hquote
        rw [hfail hquote]
        rfl
      | some text =>
        rw [htext, Option.map_some] at hquote
        obtain ⟨h₄, hstep⟩ := hgo hquote
        rw [hstep, ih, Option.bind_some]

/-! ### Objects and lists -/

/-- The acknowledgement that a tree is, if it is one. -/
def ackOf : Tree → Option Ack
  | .object _ members => (statusOf none members).map Ack.mk
  | .list _ [⟨_, t, _⟩] => t.word?.map Ack.mk
  | _ => none

theorem outcome_readObject (inner : Blanks) (members : List (Member Tree)) (s : Bytes) :
    outcome (readObject (encode inner.chars ++ objectBody members s)) =
      (statusOf none members).map fun w ↦ (⟨w⟩, s) := by
  unfold readObject
  cases members with
  | nil =>
    split
    · rfl
    · rename_i b rest hs
      obtain ⟨rfl, rfl⟩ := List.cons.inj (skipBlanks_objectBody_nil.symm.trans hs)
      rw [if_pos rfl, outcome_ofStatus]
      rfl
  | cons m members =>
    obtain ⟨before, key, between, behind, t, after⟩ := m
    have hquote := outcome_read_pieces key
      (memberTail between behind after t (objectTail members s))
    split
    · rename_i hnil
      exact absurd (skipBlanks_objectBody_cons.symm.trans hnil) (by simp)
    · rename_i b rest hs
      obtain ⟨rfl, rfl⟩ := List.cons.inj (skipBlanks_objectBody_cons.symm.trans hs)
      rw [if_neg mark_ne_brace, if_pos rfl, statusOf]
      cases htext : key.unescaped with
      | none =>
        rw [htext, Option.map_none] at hquote
        obtain ⟨e, hread⟩ := exists_of_outcome_eq_none hquote
        rw [hread]
        rfl
      | some text =>
        rw [htext, Option.map_some] at hquote
        obtain ⟨hshorter, hread⟩ := exists_of_outcome_eq_some hquote
        rw [hread, Option.bind_some]
        exact outcome_membersOnto members none _ between behind after t s _

theorem outcome_endOfList_iff {s rest : Bytes} {u : Unit} :
    outcome (endOfList s) = some (u, rest) ↔ skipBlanks s = ']'.toUInt8 :: rest := by
  unfold endOfList
  split
  · simp [*]
  · rename_i b after h
    split_ifs with hb hcomma
    · simp [h, hb]
    · dsimp only
      split_ifs <;> simp [h, hb]
    · simp [h, hb]

theorem outcome_readList_of_head {s rest : Bytes} {b : UInt8} (h : skipBlanks s = b :: rest)
    (hb : b ≠ ']'.toUInt8) :
    outcome (readList s) = (outcome (word16 (b :: rest))).bind fun p ↦
      (outcome (endOfList p.2)).map fun e ↦ (⟨p.1⟩, e.2) := by
  unfold readList
  split
  · rename_i hnil
    exact absurd (h.symm.trans hnil) (by simp)
  · rename_i b' rest' hs
    obtain ⟨rfl, rfl⟩ := List.cons.inj (h.symm.trans hs)
    rw [if_neg hb]
    cases word16 (b :: rest) with
    | error e => rfl
    | ok t =>
      obtain ⟨status, after, h₁⟩ := t
      rw [outcome_ok, Option.bind_some]
      dsimp only
      cases endOfList after with
      | error e => rfl
      | ok e => rfl

theorem outcome_endOfList_nil (after : Blanks) (s : Bytes) :
    outcome (endOfList (encode after.chars ++ listTail [] s)) = some ((), s) := by
  rw [outcome_endOfList_iff, skipBlanks_encode, listTail_nil,
    skipBlanks_of_not_isBlank _ (by decide)]

theorem outcome_endOfList_cons (after : Blanks) (item : Padded Tree) (items : List (Padded Tree))
    (s : Bytes) :
    outcome (endOfList (encode after.chars ++ listTail (item :: items) s)) = none := by
  refine Option.eq_none_iff_forall_ne_some.mpr fun ⟨_, rest⟩ hsome ↦ ?_
  rw [outcome_endOfList_iff, skipBlanks_encode, listTail_cons,
    skipBlanks_of_not_isBlank _ (by decide)] at hsome
  exact absurd (List.cons.inj hsome).1 (by decide)

/-- A list is an acknowledgement if a word stands in it alone. -/
theorem outcome_readList (inner : Blanks) (items : List (Padded Tree)) (s : Bytes) :
    outcome (readList (encode inner.chars ++ listBody items s)) =
      (ackOf (.list inner items)).map (·, s) := by
  cases items with
  | nil =>
    unfold readList
    split
    · rfl
    · rename_i b rest hs
      obtain ⟨rfl, rfl⟩ := List.cons.inj (skipBlanks_listBody_nil.symm.trans hs)
      rfl
  | cons item items =>
    obtain ⟨before, t, after⟩ := item
    obtain ⟨b, more, hform, -, hbracket, -⟩ := exists_encode_tree t
    have hfirst : skipBlanks (encode inner.chars ++ listBody (⟨before, t, after⟩ :: items) s) =
        b :: (more ++ (encode after.chars ++ listTail items s)) := by
      rw [skipBlanks_listBody_cons, hform, List.cons_append]
    have hword := outcome_word16 .none t
      (endsNumber_blanks after (endsNumber_listTail items s))
    rw [hform] at hword
    rw [outcome_readList_of_head hfirst hbracket]
    show (outcome (word16 (encode Blanks.none.chars ++ (b :: more ++
      (encode after.chars ++ listTail items s))))).bind _ = _
    rw [hword]
    cases items with
    | nil =>
      rw [ackOf]
      cases t.word? with
      | none => rfl
      | some w =>
        rw [Option.map_some, Option.bind_some, outcome_endOfList_nil]
        rfl
    | cons next items =>
      cases t.word? with
      | none => rfl
      | some w =>
        rw [Option.map_some, Option.bind_some, outcome_endOfList_cons]
        rfl

theorem outcome_read_of_head {s rest : Bytes} {b : UInt8} (h : skipBlanks s = b :: rest) :
    outcome (read s) =
      if b = '['.toUInt8 then outcome (readList rest)
      else if b = '\x7b'.toUInt8 then outcome (readObject rest)
      else none := by
  unfold read
  split
  · rename_i hnil
    exact absurd (h.symm.trans hnil) (by simp)
  · rename_i b' rest' hs
    obtain ⟨rfl, rfl⟩ := List.cons.inj (h.symm.trans hs)
    split_ifs with hlist hobject
    · rw [outcome_map_widen]
    · rw [outcome_map_widen]
    · rfl

theorem passesBlanks_read : PassesBlanks read where
  skip s := by
    cases hs : skipBlanks s with
    | nil =>
      have hnil : ∀ {s : Bytes}, skipBlanks s = [] → outcome (read s) = none := by
        intro s hs
        unfold read
        split
        · rfl
        · rename_i b rest hcons
          exact absurd (hs.symm.trans hcons) (by simp)
      rw [hnil hs, hnil rfl]
    | cons b rest =>
      rw [outcome_read_of_head hs, outcome_read_of_head
        (skipBlanks_of_not_isBlank rest (not_isBlank_of_skipBlanks hs))]
  bracket s rest hs := by
    rw [outcome_read_of_head hs]
    rfl

/-- What a tree is read as is the acknowledgement that it is. -/
theorem readsTrees_read : ReadsTrees read ackOf := by
  intro t s hs
  obtain ⟨b, more, hform, hblank, -, hlist, hobject⟩ := exists_head t
  have hhead : skipBlanks (encode t.chars ++ s) = b :: (more ++ s) := by
    rw [hform, List.cons_append, skipBlanks_of_not_isBlank _ hblank]
  cases t with
  | list inner items =>
    rw [encode_list, outcome_read_of_head (skipBlanks_of_not_isBlank _ (by decide)), if_pos rfl,
      outcome_readList]
  | object inner members =>
    rw [encode_object, outcome_read_of_head (skipBlanks_of_not_isBlank _ (by decide)),
      if_neg (by decide), if_pos rfl, outcome_readObject, ackOf, Option.map_map]
    rfl
  | _ =>
    rw [outcome_read_of_head hhead, if_neg (by simpa using hlist), if_neg (by simpa using hobject)]
    rfl

/-- The lists that are read are those of trees that are acknowledgements. -/
theorem listOfJson_chars_iff {u inner w : Blanks} {items : List (Padded Tree)} {acks : List Ack} :
    listOfJson (encode (u.chars ++ (Tree.list inner items).chars ++ w.chars)) = .ok acks ↔
      List.Forall₂ (fun item ack ↦ ackOf item.value = some ack) items acks :=
  whole_listFor_iff passesBlanks_read readsTrees_read

end Intake.Ack
