import Intake.Batch
import Intake.Proofs.Ack
import Intake.Proofs.Json.Writing

/-!
# Acknowledgements are read back

An object acknowledges if one of its members has the status, as the decimal of a word, and the
others have other keys; a list does if it holds such a decimal alone (`Acknowledges`). The texts of
lists of such trees are read as the statuses in them, and no other texts of lists are read
(`listOfJson_acknowledging`). The key of a member has to stand for some text, though the value of a
member that is skipped need not stand for anything (`listOfJson_unpairedKey`).
-/

set_option autoImplicit false
set_option relaxedAutoImplicit false

namespace Intake.Ack

open Utf8 Json Json.Tree

/-- The key is the one of the status, however it is escaped. -/
def IsStatusKey (key : Pieces) : Prop :=
  key.unescaped = some statusKey.toList

/-- The key stands for another text. -/
def IsOtherKey (key : Pieces) : Prop :=
  ∃ text, key.unescaped = some text ∧ text ≠ statusKey.toList

/-- The tree stands for the acknowledgement. -/
inductive Acknowledges : Tree → Ack → Prop
  | object (inner : Blanks) {front back : List (Member Tree)} {m : Member Tree} {l : Literal}
      {ack : Ack} (hfront : ∀ o ∈ front, IsOtherKey o.key) (hback : ∀ o ∈ back, IsOtherKey o.key)
      (hkey : IsStatusKey m.key) (hvalue : m.value = .number l)
      (hl : l.IsNatural ack.status.toNat) : Acknowledges (.object inner (front ++ m :: back)) ack
  | list (inner before after : Blanks) {l : Literal} {ack : Ack}
      (hl : l.IsNatural ack.status.toNat) :
      Acknowledges (.list inner [⟨before, .number l, after⟩]) ack

/-- The members are those of no acknowledgement. -/
inductive Unfit : List (Member Tree) → Prop
  | missing {members : List (Member Tree)} (h : ∀ m ∈ members, ¬ IsStatusKey m.key) : Unfit members
  | twice {front middle back : List (Member Tree)} {m n : Member Tree} (hm : IsStatusKey m.key)
      (hn : IsStatusKey n.key) : Unfit (front ++ m :: (middle ++ n :: back))
  | large {members : List (Member Tree)} {m : Member Tree} {l : Literal} {n : Nat}
      (hm : m ∈ members) (hkey : IsStatusKey m.key) (hvalue : m.value = .number l)
      (hl : l.IsNatural n) (hn : 65535 < n) : Unfit members
  | unpaired {members : List (Member Tree)} {m : Member Tree} (hm : m ∈ members)
      (hkey : m.key.unescaped = none) : Unfit members

/-! ### Members in a row -/

section Members

variable {status : Option UInt16} {m : Member Tree} {members front back : List (Member Tree)}
  {v w : UInt16}

theorem statusOf_cons_other (h : IsOtherKey m.key) :
    statusOf status (m :: members) = statusOf status members := by
  obtain ⟨text, htext, hne⟩ := h
  have hkey : String.ofList text ≠ statusKey := fun heq ↦ hne (by rw [← heq, String.toList_ofList])
  rw [statusOf, htext, Option.bind_some, statusBehind, if_neg hkey, Option.bind_some]

theorem statusOf_cons_status (h : IsStatusKey m.key) :
    statusOf status (m :: members) = match status with
      | none => m.value.word?.bind fun w ↦ statusOf (some w) members
      | some _ => none := by
  rw [statusOf, show m.key.unescaped = _ from h, Option.bind_some, String.ofList_toList,
    statusBehind, if_pos rfl]
  cases status with
  | none =>
    cases m.value.word? with
    | none => rfl
    | some w => rfl
  | some w => rfl

theorem statusOf_cons_unpaired (h : m.key.unescaped = none) :
    statusOf status (m :: members) = none := by
  rw [statusOf, h, Option.bind_none]

theorem key_cases (key : Pieces) :
    IsStatusKey key ∨ IsOtherKey key ∨ key.unescaped = none := by
  unfold IsStatusKey IsOtherKey
  cases key.unescaped with
  | none => simp
  | some text =>
    by_cases htext : text = statusKey.toList
    · exact .inl (congrArg some htext)
    · exact .inr (.inl ⟨text, rfl, htext⟩)

theorem IsOtherKey.not_isStatusKey {key : Pieces} (h : IsOtherKey key) : ¬ IsStatusKey key := by
  obtain ⟨text, htext, hne⟩ := h
  exact fun hkey ↦ hne (Option.some_inj.mp (htext.symm.trans hkey))

/-- Behind the status, only members with other keys may come. -/
theorem statusOf_some_iff :
    statusOf (some w) members = some v ↔ w = v ∧ ∀ m ∈ members, IsOtherKey m.key := by
  induction members with
  | nil => simp [statusOf]
  | cons m members ih =>
    rw [List.forall_mem_cons]
    obtain hkey | hkey | hkey := key_cases m.key
    · rw [statusOf_cons_status hkey]
      exact iff_of_false (by simp) fun h ↦ h.2.1.not_isStatusKey hkey
    · rw [statusOf_cons_other hkey, ih]
      simp [hkey]
    · rw [statusOf_cons_unpaired hkey]
      refine iff_of_false (by simp) fun h ↦ ?_
      obtain ⟨text, htext, -⟩ := h.2.1
      exact absurd (hkey.symm.trans htext) (by simp)

theorem statusOf_append (hfront : ∀ o ∈ front, IsOtherKey o.key)
    (hback : ∀ o ∈ back, IsOtherKey o.key) (hkey : IsStatusKey m.key) :
    statusOf none (front ++ m :: back) = m.value.word? := by
  induction front with
  | nil =>
    rw [List.nil_append, statusOf_cons_status hkey]
    cases m.value.word? with
    | none => rfl
    | some w => exact statusOf_some_iff.mpr ⟨rfl, hback⟩
  | cons o front ih =>
    obtain ⟨ho, hfront⟩ := List.forall_mem_cons.mp hfront
    rw [List.cons_append, statusOf_cons_other ho, ih hfront]

theorem exists_of_statusOf (h : statusOf none members = some w) :
    ∃ front m back, members = front ++ m :: back ∧ (∀ o ∈ front, IsOtherKey o.key) ∧
      (∀ o ∈ back, IsOtherKey o.key) ∧ IsStatusKey m.key ∧ m.value.word? = some w := by
  induction members with
  | nil => exact absurd h (by simp [statusOf])
  | cons m members ih =>
    obtain hkey | hkey | hkey := key_cases m.key
    · rw [statusOf_cons_status hkey] at h
      obtain ⟨v, hv, hmembers⟩ := Option.bind_eq_some_iff.mp h
      obtain ⟨rfl, hback⟩ := statusOf_some_iff.mp hmembers
      exact ⟨[], m, members, rfl, List.forall_mem_nil _, hback, hkey, hv⟩
    · rw [statusOf_cons_other hkey] at h
      obtain ⟨front, n, back, rfl, hfront, hrest⟩ := ih h
      exact ⟨m :: front, n, back, rfl, List.forall_mem_cons.mpr ⟨hkey, hfront⟩, hrest⟩
    · rw [statusOf_cons_unpaired hkey] at h
      exact absurd h (by simp)

theorem key_of_mem {n : Member Tree} (h : statusOf none members = some w) (hn : n ∈ members) :
    IsOtherKey n.key ∨ IsStatusKey n.key ∧ n.value.word? = some w := by
  obtain ⟨front, m, back, rfl, hfront, hback, hkey, hword⟩ := exists_of_statusOf h
  rw [List.mem_append, List.mem_cons] at hn
  obtain hn | rfl | hn := hn
  · exact .inl (hfront n hn)
  · exact .inr ⟨hkey, hword⟩
  · exact .inl (hback n hn)

/-- Behind the status it is not written again. -/
theorem statusOf_twice (middle : List (Member Tree)) {n : Member Tree} (hm : IsStatusKey m.key)
    (hn : IsStatusKey n.key) : statusOf status (front ++ m :: (middle ++ n :: back)) = none := by
  have hagain : ∀ w, statusOf (some w) (middle ++ n :: back) = none := by
    refine fun w ↦ Option.eq_none_iff_forall_ne_some.mpr fun v hv ↦ ?_
    obtain ⟨-, hall⟩ := statusOf_some_iff.mp hv
    exact (hall n (by simp)).not_isStatusKey hn
  induction front generalizing status with
  | nil =>
    rw [List.nil_append, statusOf_cons_status hm]
    cases status with
    | none => simp [hagain]
    | some w => rfl
  | cons o front ih =>
    rw [List.cons_append]
    obtain hkey | hkey | hkey := key_cases o.key
    · rw [statusOf_cons_status hkey]
      cases status with
      | none => simp [ih]
      | some w => rfl
    · rw [statusOf_cons_other hkey, ih]
    · exact statusOf_cons_unpaired hkey

/-- Unfit members have no status. -/
theorem statusOf_of_unfit (h : Unfit members) : statusOf none members = none := by
  refine Option.eq_none_iff_forall_ne_some.mpr fun w hw ↦ ?_
  cases h with
  | twice hm hn => exact absurd ((statusOf_twice _ hm hn).symm.trans hw) (by simp)
  | missing hmissing =>
    obtain ⟨front, m, back, rfl, -, -, hkey, -⟩ := exists_of_statusOf hw
    exact hmissing m (by simp) hkey
  | @large _ n l k hn hkey hvalue hl hk =>
    obtain hother | ⟨-, hword⟩ := key_of_mem hw hn
    · exact hother.not_isStatusKey hkey
    · obtain ⟨l', hl', hnatural⟩ := Tree.word?_eq_some_iff.mp hword
      obtain rfl := Tree.number.inj (hvalue.symm.trans hl')
      have heq : k = w.toNat := hl.whole.symm.trans hnatural.whole
      have hlt := w.toNat_lt
      omega
  | unpaired hn hkey =>
    obtain ⟨text, htext, -⟩ | ⟨hstatus, -⟩ := key_of_mem hw hn
    · exact absurd (hkey.symm.trans htext) (by simp)
    · exact absurd (hkey.symm.trans hstatus) (by simp)

end Members

/-! ### Whole texts -/

theorem ackOf_eq_some_iff {t : Tree} {ack : Ack} : ackOf t = some ack ↔ Acknowledges t ack := by
  constructor
  · intro h
    unfold ackOf at h
    split at h
    · rename_i inner members
      obtain ⟨w, hw, rfl⟩ := Option.map_eq_some_iff.mp h
      obtain ⟨front, m, back, rfl, hfront, hback, hkey, hword⟩ := exists_of_statusOf hw
      obtain ⟨l, hvalue, hl⟩ := Tree.word?_eq_some_iff.mp hword
      exact .object inner hfront hback hkey hvalue hl
    · rename_i inner before t after
      obtain ⟨w, hw, rfl⟩ := Option.map_eq_some_iff.mp h
      obtain ⟨l, rfl, hl⟩ := Tree.word?_eq_some_iff.mp hw
      exact .list inner before after hl
    · exact absurd h (by simp)
  · intro h
    cases h with
    | object inner hfront hback hkey hvalue hl =>
      rw [ackOf, statusOf_append hfront hback hkey, Tree.word?_eq_some_iff.mpr ⟨_, hvalue, hl⟩]
      rfl
    | list inner before after hl =>
      rw [ackOf, Tree.word?_eq_some_iff.mpr ⟨_, rfl, hl⟩]
      rfl

theorem listOfJson_iff_acknowledges {u inner w : Blanks} {items : List (Padded Tree)}
    {acks : List Ack} :
    listOfJson (encode (u.chars ++ (Tree.list inner items).chars ++ w.chars)) = .ok acks ↔
      List.Forall₂ (fun item ack ↦ Acknowledges item.value ack) items acks := by
  simp only [listOfJson_chars_iff, ackOf_eq_some_iff]

theorem exists_error_of_unfit {u inner w : Blanks} {items : List (Padded Tree)}
    {item : Padded Tree} (hitem : item ∈ items) {inner' : Blanks} {members : List (Member Tree)}
    (hvalue : item.value = .object inner' members) (h : Unfit members) :
    ∃ e, listOfJson (encode (u.chars ++ (Tree.list inner items).chars ++ w.chars)) = .error e := by
  cases hread : listOfJson (encode (u.chars ++ (Tree.list inner items).chars ++ w.chars)) with
  | error e => exact ⟨e, rfl⟩
  | ok acks =>
    have hsome : ∀ item ∈ items, ∃ ack, ackOf item.value = some ack :=
      ((List.forall₂_and_left _ _).mp ((listOfJson_chars_iff.mp hread).imp
        fun _ ack hack ↦ ⟨⟨ack, hack⟩, hack⟩)).1
    obtain ⟨ack, hack⟩ := hsome item hitem
    rw [hvalue, ackOf, statusOf_of_unfit h] at hack
    exact absurd hack (by simp)

theorem acknowledges_toJson (ack : Ack) : Acknowledges (Tree.ofValue ack.toJson) ack := by
  show Acknowledges (.object .none ([] ++ (⟨.none, .ofText statusKey.toList, .none, .none,
    .number (.ofNumeral (.ofNat ack.status.toNat)), .none⟩ : Member Tree) :: [])) ack
  exact .object .none (List.forall_mem_nil _) (List.forall_mem_nil _) (unescaped_ofText _) rfl
    (isNatural_ofNumeral _)

/-- Acknowledgements that are written are read as themselves. -/
theorem listOfJson_listToJson (acks : List Ack) :
    listOfJson (listToJson acks).bytes = .ok acks := by
  rw [bytes_between, listToJson, Tree.ofValue, listOfJson_iff_acknowledges]
  induction acks with
  | nil => exact .nil
  | cons ack acks ih => exact .cons (acknowledges_toJson ack) ih

/-- Let the text be a list between blanks. If its items stand for acknowledgements, it is read as
these, and nothing else is read as any. It is not read if there is an object in it whose members
have no status, two of them, one that is too large, or a key that stands for no text. What is
written for a batch is read as an acceptance of each event. -/
theorem listOfJson_acknowledging (u inner w : Blanks) (items : List (Padded Tree)) :
    (∀ acks,
      listOfJson (encode (u.chars ++ (Tree.list inner items).chars ++ w.chars)) = .ok acks ↔
        List.Forall₂ (fun item ack ↦ Acknowledges item.value ack) items acks) ∧
    ((∃ item ∈ items, ∃ inner members, item.value = .object inner members ∧ Unfit members) →
      ∃ e, listOfJson (encode (u.chars ++ (Tree.list inner items).chars ++ w.chars)) = .error e) ∧
    ∀ batch : Batch, listOfJson (listToJson batch.acks).bytes =
      .ok (List.replicate batch.events.length .accepted) := by
  refine ⟨fun acks ↦ listOfJson_iff_acknowledges, ?_, fun batch ↦ ?_⟩
  · rintro ⟨item, hitem, inner', members, hvalue, h⟩
    exact exists_error_of_unfit hitem hvalue h
  · rw [listOfJson_listToJson, Batch.acks, List.map_const']

/-- The greatest status. -/
def greatest : Literal :=
  ⟨false, ⟨6, [5, 5, 3, 5]⟩, none, none, by decide⟩

/-- The least status. -/
def least : Literal :=
  ⟨false, ⟨0, []⟩, none, none, fun _ ↦ rfl⟩

/-- The escape with these digits. -/
def escape (a b c d : Fin 16) : Piece :=
  .unit ⟨⟨a, false⟩, ⟨b, false⟩, ⟨c, false⟩, ⟨d, false⟩⟩

/-- A member without blanks. -/
def bare (key : Pieces) (t : Tree) : Member Tree :=
  ⟨.none, key, .none, .none, t, .none⟩

/-- The member of an acceptance. -/
def accepting : Member Tree :=
  bare (.ofText statusKey.toList) (.number ⟨false, ⟨2, [0, 2]⟩, none, none, by decide⟩)

/-- The greatest status between two members of one key, of which one has a status further inside
and the other half of a surrogate pair. In the text that is not read the status is written twice. -/
theorem listOfJson_acknowledging_surrounded :
    listOfJson (encode ("[\x7b\"a\":[\x7b\"status\":202\x7d],\"\\u0073tatus\"\n:65535," ++
        "\"a\":\"\\udc00\"\x7d,[0]]").toList) = .ok [⟨65535⟩, ⟨0⟩] ∧
    ∃ e, listOfJson (encode "[\x7b\"status\":202,\"status\":202\x7d]".toList) = .error e := by
  have htext : ("[\x7b\"a\":[\x7b\"status\":202\x7d],\"\\u0073tatus\"\n:65535," ++
      "\"a\":\"\\udc00\"\x7d,[0]]").toList = Blanks.none.chars ++ (Tree.list .none
        [⟨.none, .object .none ([bare (.ofText "a".toList)
            (.list .none [⟨.none, .object .none [accepting], .none⟩])] ++
          ⟨.none, escape 0 0 7 3 :: Pieces.ofText "tatus".toList, ⟨['\n'], by simp⟩, .none,
            .number greatest, .none⟩ ::
          [bare (.ofText "a".toList) (.string [escape 13 12 0 0])]), .none⟩,
        ⟨.none, .list .none [⟨.none, .number least, .none⟩], .none⟩]).chars ++
          Blanks.none.chars := by
    decide
  have htwice : "[\x7b\"status\":202,\"status\":202\x7d]".toList = Blanks.none.chars ++
      (Tree.list .none [⟨.none, .object .none ([] ++ accepting :: ([] ++ accepting :: [])),
        .none⟩]).chars ++ Blanks.none.chars := by
    decide
  have hother : IsOtherKey (.ofText "a".toList) := ⟨_, unescaped_ofText _, by decide⟩
  have hstatus : Pieces.unescaped (escape 0 0 7 3 :: Pieces.ofText "tatus".toList) =
      some statusKey.toList := by
    decide
  rw [htext, htwice]
  constructor
  · refine ((listOfJson_acknowledging _ _ _ _).1 _).mpr (.cons ?_ (.cons ?_ .nil))
    · exact .object .none (List.forall_mem_singleton.mpr hother)
        (List.forall_mem_singleton.mpr hother) hstatus rfl ⟨rfl, by decide, rfl, rfl⟩
    · exact .list .none .none .none ⟨rfl, by decide, rfl, rfl⟩
  · refine (listOfJson_acknowledging _ _ _ _).2.1 ⟨_, List.mem_singleton_self _, .none, _, rfl, ?_⟩
    exact .twice (unescaped_ofText _) (unescaped_ofText _)

/-- A further member with any other key would be too much: this one is not skipped, because its key
is half of a surrogate pair. -/
theorem listOfJson_unpairedKey :
    (Tree.list .none [⟨.none, .object .none [bare [escape 13 8 0 0] (.number least), accepting],
        .none⟩]).chars = "[\x7b\"\\ud800\":0,\"status\":202\x7d]".toList ∧
      ¬ IsStatusKey [escape 13 8 0 0] ∧ Acknowledges (.object .none [accepting]) .accepted ∧
      ∃ e, listOfJson (encode "[\x7b\"\\ud800\":0,\"status\":202\x7d]".toList) = .error e := by
  have hchars : (Tree.list .none [⟨.none, .object .none [bare [escape 13 8 0 0] (.number least),
      accepting], .none⟩]).chars = "[\x7b\"\\ud800\":0,\"status\":202\x7d]".toList := by
    decide
  have htext : "[\x7b\"\\ud800\":0,\"status\":202\x7d]".toList = Blanks.none.chars ++
      (Tree.list .none [⟨.none, .object .none [bare [escape 13 8 0 0] (.number least), accepting],
        .none⟩]).chars ++ Blanks.none.chars := by
    rw [hchars]
    rfl
  have hkey : Pieces.unescaped [escape 13 8 0 0] = none := by decide
  refine ⟨hchars, fun h ↦ absurd (hkey.symm.trans h) (by simp), ?_, ?_⟩
  · show Acknowledges (.object .none ([] ++ accepting :: [])) .accepted
    exact .object .none (List.forall_mem_nil _) (List.forall_mem_nil _) (unescaped_ofText _) rfl
      ⟨rfl, by decide, rfl, rfl⟩
  · rw [htext]
    exact exists_error_of_unfit (List.mem_singleton_self _) rfl
      (.unpaired List.mem_cons_self hkey)

end Intake.Ack
