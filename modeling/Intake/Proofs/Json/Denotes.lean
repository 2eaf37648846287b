import Intake.Proofs.Json.Means

/-!
# The plain reading of JSON

RFC 8259 sets no key apart and knows no limit of depth. Read that way, a tree denotes a value as
soon as its strings stand for texts. A text denotes one value at most (`Denotes.unique`), although a
value has many texts: blanks can be told from tokens, every value but a number ends with a token of
its own, and a number ends in front of anything that does not go on with it (`isDetermined`).
-/

set_option autoImplicit false
set_option relaxedAutoImplicit false

namespace Intake.Json

open Utf8 Json.Tree

namespace Tree

/-- No key is set apart. -/
def noneApart : Apart := fun _ ↦ none

/-- The value that a tree denotes. Every key in it is like any other. -/
def denoted (t : Tree) : Option Value :=
  t.meaning noneApart

theorem denoted_object (inner : Blanks) (members : List (Member Tree)) :
    (Tree.object inner members).denoted = (membersMeaning noneApart members).map .ofMembers :=
  meaning_object inner fun _ _ _ _ ↦ rfl

theorem denoted_list (inner : Blanks) (items : List (Padded Tree)) :
    (Tree.list inner items).denoted = (itemsMeaning noneApart items).map .list := by
  rw [denoted, Tree.meaning]

mutual

/-- Every string in a tree stands for a text, and so does every key. -/
def Textual : Tree → Prop
  | string ps => ps.unescaped.isSome
  | list _ items => ItemsTextual items
  | object _ members => MembersTextual members
  | _ => True

def ItemsTextual : List (Padded Tree) → Prop
  | [] => True
  | ⟨_, t, _⟩ :: items => Textual t ∧ ItemsTextual items

def MembersTextual : List (Member Tree) → Prop
  | [] => True
  | ⟨_, key, _, _, t, _⟩ :: members =>
    key.unescaped.isSome ∧ Textual t ∧ MembersTextual members

end

mutual

/-- A tree denotes a value as soon as its strings stand for texts. -/
theorem exists_denoted {t : Tree} (h : t.Textual) : ∃ v, t.denoted = some v := by
  match t, h with
  | null, _ => exact ⟨.null, rfl⟩
  | bool b, _ => exact ⟨.bool b, rfl⟩
  | number l, _ => exact ⟨.number l.numeral, rfl⟩
  | string ps, h =>
    obtain ⟨text, htext⟩ := Option.isSome_iff_exists.mp h
    exact ⟨_, by rw [denoted, Tree.meaning, htext, Option.map_some]⟩
  | list inner items, h =>
    obtain ⟨xs, hxs⟩ := exists_itemsMeaning h
    exact ⟨_, by rw [denoted_list, hxs, Option.map_some]⟩
  | object inner members, h =>
    obtain ⟨entries, hentries⟩ := exists_membersMeaning h
    exact ⟨_, by rw [denoted_object, hentries, Option.map_some]⟩

theorem exists_itemsMeaning {items : List (Padded Tree)} (h : ItemsTextual items) :
    ∃ xs, itemsMeaning noneApart items = some xs := by
  match items, h with
  | [], _ => exact ⟨[], rfl⟩
  | ⟨before, t, after⟩ :: items, ⟨ht, hitems⟩ =>
    obtain ⟨x, hx⟩ := exists_denoted ht
    obtain ⟨xs, hxs⟩ := exists_itemsMeaning hitems
    exact ⟨x :: xs, by rw [itemsMeaning, ← denoted, hx, hxs]; rfl⟩

theorem exists_membersMeaning {members : List (Member Tree)} (h : MembersTextual members) :
    ∃ entries, membersMeaning noneApart members = some entries := by
  match members, h with
  | [], _ => exact ⟨[], rfl⟩
  | ⟨before, key, between, behind, t, after⟩ :: members, ⟨hkey, ht, hmembers⟩ =>
    obtain ⟨name, hname⟩ := Option.isSome_iff_exists.mp hkey
    obtain ⟨x, hx⟩ := exists_denoted ht
    obtain ⟨entries, hentries⟩ := exists_membersMeaning hmembers
    exact ⟨_, by rw [membersMeaning, hname, Option.bind_some, ← denoted, hx, hentries]; rfl⟩

end

end Tree

/-- A text stands for a value: it is a tree between blanks that denotes it. -/
def Denotes (text : Bytes) (v : Value) : Prop :=
  ∃ (u w : Blanks) (t : Tree), text = encode (u.chars ++ t.chars ++ w.chars) ∧
    t.denoted = some v

/-! ### Blanks and tokens -/

/-- A text that begins with a token is what is left behind the blanks in front of it. -/
theorem eq_of_blanks {u w : Blanks} {s s' : Bytes} (hs : skipBlanks s = s)
    (hs' : skipBlanks s' = s') (h : encode u.chars ++ s = encode w.chars ++ s') : s = s' := by
  have hskip := congrArg skipBlanks h
  rwa [skipBlanks_encode, skipBlanks_encode, hs, hs'] at hskip

/-- A string is told from what stands behind it by its second quotation mark. -/
theorem eq_of_pieces {ps ps' : Pieces} {text text' : List Char} {s s' : Bytes}
    (hps : ps.unescaped = some text) (hps' : ps'.unescaped = some text')
    (h : encode ps.chars ++ '"'.toUInt8 :: s = encode ps'.chars ++ '"'.toUInt8 :: s') :
    text = text' ∧ s = s' := by
  have hread := outcome_read_pieces ps s
  rw [h, outcome_read_pieces, hps, hps'] at hread
  obtain ⟨htext, hs⟩ := Prod.mk.inj (Option.some_inj.mp hread)
  exact ⟨(String.ofList_injective htext).symm, hs.symm⟩

/-! ### What a text determines -/

/-- What a tree denotes is determined by any text that it stands in front of, if the text does not
go on with it. So is what stands behind it. -/
def IsDetermined (t : Tree) : Prop :=
  ∀ ⦃t' : Tree⦄ ⦃s s' : Bytes⦄ ⦃v v' : Value⦄, EndsNumber s → EndsNumber s' →
    encode t.chars ++ s = encode t'.chars ++ s' → t.denoted = some v →
      t'.denoted = some v' → v = v' ∧ s = s'

/-- So are the items behind an item of a list. -/
def ItemsAreDetermined (items : List (Padded Tree)) : Prop :=
  ∀ ⦃items' : List (Padded Tree)⦄ ⦃s s' : Bytes⦄ ⦃xs xs' : List Value⦄,
    listTail items s = listTail items' s' → itemsMeaning noneApart items = some xs →
      itemsMeaning noneApart items' = some xs' → xs = xs' ∧ s = s'

/-- So are the members behind a member of an object. -/
def MembersAreDetermined (members : List (Member Tree)) : Prop :=
  ∀ ⦃members' : List (Member Tree)⦄ ⦃s s' : Bytes⦄ ⦃entries entries' : List (String × Value)⦄,
    objectTail members s = objectTail members' s' →
      membersMeaning noneApart members = some entries →
        membersMeaning noneApart members' = some entries' → entries = entries' ∧ s = s'

theorem meaning_of_depth_eq_zero {t : Tree} (h : t.depth = 0) (apart : Apart) :
    t.meaning apart = t.denoted := by
  cases t with
  | list inner items => simp [Tree.depth] at h
  | object inner members => simp [Tree.depth] at h
  | _ => simp only [denoted, Tree.meaning]

/-- A value that is neither a list nor an object is read in the same way wherever it stands. -/
theorem depth_eq_zero_and_eq {t t' : Tree} {s s' : Bytes} {v v' : Value}
    (ht : t.depth = 0) (hs : EndsNumber s) (hs' : EndsNumber s')
    (h : encode t.chars ++ s = encode t'.chars ++ s') (hv : t.denoted = some v)
    (hv' : t'.denoted = some v') : t'.depth = 0 ∧ v = v' ∧ s = s' := by
  rw [← meaning_of_depth_eq_zero ht (apartOf document)] at hv
  have hread := (isRead t 0 hs).mpr ⟨ht.le, hv, rfl⟩
  rw [h] at hread
  obtain ⟨hdepth, hmeaning, hrest⟩ := (isRead t' 0 hs').mp hread
  have ht' : t'.depth = 0 := Nat.le_zero.mp hdepth
  rw [meaning_of_depth_eq_zero ht', hv'] at hmeaning
  exact ⟨ht', (Option.some_inj.mp hmeaning).symm, hrest.symm⟩

theorem isDetermined_of_depth_eq_zero {t : Tree} (ht : t.depth = 0) : IsDetermined t :=
  fun _ _ _ _ _ hs hs' h hv hv' ↦ (depth_eq_zero_and_eq ht hs hs' h hv hv').2

/-- A list or an object is told from everything else by its first byte. -/
theorem depth_ne_zero {t t' : Tree} {s s' : Bytes} {v v' : Value} (ht : t.depth ≠ 0)
    (hs : EndsNumber s) (hs' : EndsNumber s') (h : encode t.chars ++ s = encode t'.chars ++ s')
    (hv : t.denoted = some v) (hv' : t'.denoted = some v') : t'.depth ≠ 0 :=
  fun hzero ↦ ht (depth_eq_zero_and_eq hzero hs' hs h.symm hv' hv).1

theorem encode_list_ne_object {inner inner' : Blanks} {items : List (Padded Tree)}
    {members : List (Member Tree)} {s s' : Bytes} :
    encode (Tree.list inner items).chars ++ s ≠
      encode (Tree.object inner' members).chars ++ s' := by
  have hne : '['.toUInt8 ≠ '\x7b'.toUInt8 := by decide
  rw [encode_list, encode_object]
  exact fun h ↦ hne (List.cons.inj h).1

/-! ### Lists -/

section Items

variable {before after before' after' inner inner' : Blanks} {t t' : Tree}
  {items items' : List (Padded Tree)} {s s' : Bytes} {xs xs' : List Value}

/-- An item and those behind it are determined if it is and they are. -/
theorem items_determined (ht : IsDetermined t) (hitems : ItemsAreDetermined items)
    (h : encode t.chars ++ (encode after.chars ++ listTail items s) =
      encode t'.chars ++ (encode after'.chars ++ listTail items' s'))
    (hxs : itemsMeaning noneApart (⟨before, t, after⟩ :: items) = some xs)
    (hxs' : itemsMeaning noneApart (⟨before', t', after'⟩ :: items') = some xs') :
    xs = xs' ∧ s = s' := by
  rw [itemsMeaning] at hxs hxs'
  obtain ⟨x, hx, hbehind⟩ := Option.bind_eq_some_iff.mp hxs
  obtain ⟨x', hx', hbehind'⟩ := Option.bind_eq_some_iff.mp hxs'
  obtain ⟨more, hmore, rfl⟩ := Option.map_eq_some_iff.mp hbehind
  obtain ⟨more', hmore', rfl⟩ := Option.map_eq_some_iff.mp hbehind'
  obtain ⟨rfl, hrest⟩ := ht (endsNumber_blanks after (endsNumber_listTail items s))
    (endsNumber_blanks after' (endsNumber_listTail items' s')) h hx hx'
  obtain ⟨rfl, rfl⟩ := hitems
    (eq_of_blanks (skipBlanks_listTail items s) (skipBlanks_listTail items' s') hrest) hmore hmore'
  exact ⟨rfl, rfl⟩

/-- A list that begins with an item is not empty. -/
theorem listBody_nil_ne_cons :
    encode inner.chars ++ listBody [] s ≠
      encode inner'.chars ++ listBody (⟨before, t, after⟩ :: items) s' := by
  intro h
  have hskip := congrArg skipBlanks h
  obtain ⟨b, more, hform, -, hbracket, -⟩ := exists_encode_tree t
  rw [skipBlanks_listBody_nil, skipBlanks_listBody_cons, hform] at hskip
  exact hbracket (List.cons.inj hskip).1.symm

/-- What stands between the brackets of a list determines its items. -/
def BodyIsDetermined (inner : Blanks) (items : List (Padded Tree)) : Prop :=
  ∀ ⦃inner' : Blanks⦄ ⦃items' : List (Padded Tree)⦄ ⦃s s' : Bytes⦄ ⦃xs xs' : List Value⦄,
    encode inner.chars ++ listBody items s = encode inner'.chars ++ listBody items' s' →
      itemsMeaning noneApart items = some xs → itemsMeaning noneApart items' = some xs' →
        xs = xs' ∧ s = s'

theorem bodyIsDetermined_nil (inner : Blanks) : BodyIsDetermined inner [] := by
  intro inner' items' s s' xs xs' h hxs hxs'
  cases items' with
  | nil =>
    have hskip := congrArg skipBlanks h
    rw [skipBlanks_listBody_nil, skipBlanks_listBody_nil] at hskip
    exact ⟨Option.some_inj.mp (hxs.symm.trans hxs'), (List.cons.inj hskip).2⟩
  | cons item items' => exact absurd h listBody_nil_ne_cons

theorem bodyIsDetermined_cons (inner before after : Blanks) (ht : IsDetermined t)
    (hitems : ItemsAreDetermined items) :
    BodyIsDetermined inner (⟨before, t, after⟩ :: items) := by
  intro inner' items' s s' xs xs' h hxs hxs'
  cases items' with
  | nil => exact absurd h.symm listBody_nil_ne_cons
  | cons item items' =>
    obtain ⟨before', t', after'⟩ := item
    have hskip := congrArg skipBlanks h
    rw [skipBlanks_listBody_cons, skipBlanks_listBody_cons] at hskip
    exact items_determined ht hitems hskip hxs hxs'

theorem isDetermined_list (hbody : BodyIsDetermined inner items) :
    IsDetermined (.list inner items) := by
  intro t' s s' v v' hs hs' h hv hv'
  have hdepth := depth_ne_zero (by simp [Tree.depth]) hs hs' h hv hv'
  cases t' with
  | list inner' items' =>
    rw [encode_list, encode_list] at h
    rw [denoted_list] at hv hv'
    obtain ⟨xs, hxs, rfl⟩ := Option.map_eq_some_iff.mp hv
    obtain ⟨xs', hxs', rfl⟩ := Option.map_eq_some_iff.mp hv'
    obtain ⟨rfl, rfl⟩ := hbody (List.cons.inj h).2 hxs hxs'
    exact ⟨rfl, rfl⟩
  | object inner' members' => exact absurd h encode_list_ne_object
  | _ => exact absurd rfl hdepth

end Items

/-! ### Objects -/

section Members

variable {before between behind after before' between' behind' after' inner inner' : Blanks}
  {key key' : Pieces} {t t' : Tree} {members members' : List (Member Tree)} {s s' : Bytes}
  {entries entries' : List (String × Value)}

/-- A member and those behind it are determined if its value is and they are. -/
theorem members_determined (ht : IsDetermined t) (hmembers : MembersAreDetermined members)
    (h : encode key.chars ++ '"'.toUInt8 ::
        memberTail between behind after t (objectTail members s) =
      encode key'.chars ++ '"'.toUInt8 ::
        memberTail between' behind' after' t' (objectTail members' s'))
    (hentries : membersMeaning noneApart (⟨before, key, between, behind, t, after⟩ :: members) =
      some entries)
    (hentries' : membersMeaning noneApart
      (⟨before', key', between', behind', t', after'⟩ :: members') = some entries') :
    entries = entries' ∧ s = s' := by
  have hcolon : isBlank ':'.toUInt8 = false := by decide
  rw [membersMeaning] at hentries hentries'
  obtain ⟨name, hname, hvalue⟩ := Option.bind_eq_some_iff.mp hentries
  obtain ⟨name', hname', hvalue'⟩ := Option.bind_eq_some_iff.mp hentries'
  obtain ⟨x, hx, hbehind⟩ := Option.bind_eq_some_iff.mp hvalue
  obtain ⟨x', hx', hbehind'⟩ := Option.bind_eq_some_iff.mp hvalue'
  obtain ⟨more, hmore, rfl⟩ := Option.map_eq_some_iff.mp hbehind
  obtain ⟨more', hmore', rfl⟩ := Option.map_eq_some_iff.mp hbehind'
  obtain ⟨rfl, htails⟩ := eq_of_pieces hname hname' h
  rw [memberTail, memberTail] at htails
  have hvalues := eq_of_blanks (skipBlanks_of_not_isBlank _ hcolon)
    (skipBlanks_of_not_isBlank _ hcolon) htails
  obtain ⟨rfl, hrest⟩ := ht (endsNumber_blanks after (endsNumber_objectTail members s))
    (endsNumber_blanks after' (endsNumber_objectTail members' s'))
    (eq_of_blanks (skipBlanks_tree t _) (skipBlanks_tree t' _) (List.cons.inj hvalues).2) hx hx'
  obtain ⟨rfl, rfl⟩ := hmembers (eq_of_blanks (skipBlanks_objectTail members s)
    (skipBlanks_objectTail members' s') hrest) hmore hmore'
  exact ⟨rfl, rfl⟩

/-- An object that begins with a member is not empty. -/
theorem objectBody_nil_ne_cons :
    encode inner.chars ++ objectBody [] s ≠ encode inner'.chars ++
      objectBody (⟨before, key, between, behind, t, after⟩ :: members) s' := by
  intro h
  have hskip := congrArg skipBlanks h
  rw [skipBlanks_objectBody_nil, skipBlanks_objectBody_cons] at hskip
  exact mark_ne_brace (List.cons.inj hskip).1.symm

/-- What stands between the braces of an object determines its members. -/
def ObjectBodyIsDetermined (inner : Blanks) (members : List (Member Tree)) : Prop :=
  ∀ ⦃inner' : Blanks⦄ ⦃members' : List (Member Tree)⦄ ⦃s s' : Bytes⦄
    ⦃entries entries' : List (String × Value)⦄,
    encode inner.chars ++ objectBody members s = encode inner'.chars ++ objectBody members' s' →
      membersMeaning noneApart members = some entries →
        membersMeaning noneApart members' = some entries' → entries = entries' ∧ s = s'

theorem objectBodyIsDetermined_nil (inner : Blanks) : ObjectBodyIsDetermined inner [] := by
  intro inner' members' s s' entries entries' h hentries hentries'
  cases members' with
  | nil =>
    have hskip := congrArg skipBlanks h
    rw [skipBlanks_objectBody_nil, skipBlanks_objectBody_nil] at hskip
    exact ⟨Option.some_inj.mp (hentries.symm.trans hentries'), (List.cons.inj hskip).2⟩
  | cons m members' => exact absurd h objectBody_nil_ne_cons

theorem objectBodyIsDetermined_cons (inner before between behind after : Blanks) (key : Pieces)
    (ht : IsDetermined t) (hmembers : MembersAreDetermined members) :
    ObjectBodyIsDetermined inner (⟨before, key, between, behind, t, after⟩ :: members) := by
  intro inner' members' s s' entries entries' h hentries hentries'
  cases members' with
  | nil => exact absurd h.symm objectBody_nil_ne_cons
  | cons m members' =>
    obtain ⟨before', key', between', behind', t', after'⟩ := m
    have hskip := congrArg skipBlanks h
    rw [skipBlanks_objectBody_cons, skipBlanks_objectBody_cons] at hskip
    exact members_determined ht hmembers (List.cons.inj hskip).2 hentries hentries'

theorem isDetermined_object (hbody : ObjectBodyIsDetermined inner members) :
    IsDetermined (.object inner members) := by
  intro t' s s' v v' hs hs' h hv hv'
  have hdepth := depth_ne_zero (by simp [Tree.depth]) hs hs' h hv hv'
  cases t' with
  | object inner' members' =>
    rw [encode_object, encode_object] at h
    rw [denoted_object] at hv hv'
    obtain ⟨entries, hentries, rfl⟩ := Option.map_eq_some_iff.mp hv
    obtain ⟨entries', hentries', rfl⟩ := Option.map_eq_some_iff.mp hv'
    obtain ⟨rfl, rfl⟩ := hbody (List.cons.inj h).2 hentries hentries'
    exact ⟨rfl, rfl⟩
  | list inner' items' => exact absurd h.symm encode_list_ne_object
  | _ => exact absurd rfl hdepth

end Members

/-! ### All trees -/

mutual

theorem isDetermined (t : Tree) : IsDetermined t := by
  match t with
  | .null => exact isDetermined_of_depth_eq_zero rfl
  | .bool b => exact isDetermined_of_depth_eq_zero rfl
  | .number l => exact isDetermined_of_depth_eq_zero rfl
  | .string ps => exact isDetermined_of_depth_eq_zero rfl
  | .list inner [] => exact isDetermined_list (bodyIsDetermined_nil inner)
  | .list inner (⟨before, t, after⟩ :: items) =>
    exact isDetermined_list
      (bodyIsDetermined_cons inner before after (isDetermined t) (itemsAreDetermined items))
  | .object inner [] => exact isDetermined_object (objectBodyIsDetermined_nil inner)
  | .object inner (⟨before, key, between, behind, t, after⟩ :: members) =>
    exact isDetermined_object (objectBodyIsDetermined_cons inner before between behind after key
      (isDetermined t) (membersAreDetermined members))

theorem itemsAreDetermined (items : List (Padded Tree)) : ItemsAreDetermined items := by
  intro items' s s' xs xs' h hxs hxs'
  have hne : ']'.toUInt8 ≠ ','.toUInt8 := by decide
  match items, items' with
  | [], [] =>
    rw [listTail_nil, listTail_nil] at h
    exact ⟨Option.some_inj.mp (hxs.symm.trans hxs'), (List.cons.inj h).2⟩
  | [], ⟨before', t', after'⟩ :: items' =>
    rw [listTail_nil, listTail_cons] at h
    exact absurd (List.cons.inj h).1 hne
  | ⟨before, t, after⟩ :: items, [] =>
    rw [listTail_nil, listTail_cons] at h
    exact absurd (List.cons.inj h).1.symm hne
  | ⟨before, t, after⟩ :: items, ⟨before', t', after'⟩ :: items' =>
    rw [listTail_cons, listTail_cons] at h
    exact items_determined (isDetermined t) (itemsAreDetermined items)
      (eq_of_blanks (skipBlanks_tree t _) (skipBlanks_tree t' _) (List.cons.inj h).2) hxs hxs'

theorem membersAreDetermined (members : List (Member Tree)) : MembersAreDetermined members := by
  intro members' s s' entries entries' h hentries hentries'
  have hmark : isBlank '"'.toUInt8 = false := by decide
  match members, members' with
  | [], [] =>
    rw [objectTail_nil, objectTail_nil] at h
    exact ⟨Option.some_inj.mp (hentries.symm.trans hentries'), (List.cons.inj h).2⟩
  | [], ⟨before', key', between', behind', t', after'⟩ :: members' =>
    rw [objectTail_nil, objectTail_cons] at h
    exact absurd (List.cons.inj h).1 brace_ne_comma
  | ⟨before, key, between, behind, t, after⟩ :: members, [] =>
    rw [objectTail_nil, objectTail_cons] at h
    exact absurd (List.cons.inj h).1 comma_ne_brace
  | ⟨before, key, between, behind, t, after⟩ :: members,
      ⟨before', key', between', behind', t', after'⟩ :: members' =>
    rw [objectTail_cons, objectTail_cons] at h
    have hkeys := eq_of_blanks (skipBlanks_of_not_isBlank _ hmark)
      (skipBlanks_of_not_isBlank _ hmark) (List.cons.inj h).2
    exact members_determined (isDetermined t) (membersAreDetermined members)
      (List.cons.inj hkeys).2 hentries hentries'

end

/-- A text denotes one value at most. -/
theorem Denotes.unique {text : Bytes} {v v' : Value} (h : Denotes text v) (h' : Denotes text v') :
    v = v' := by
  obtain ⟨u, w, t, rfl, hv⟩ := h
  obtain ⟨u', w', t', htext, hv'⟩ := h'
  simp only [encode_append, List.append_assoc] at htext
  exact (isDetermined t (endsNumber_encode w) (endsNumber_encode w')
    (eq_of_blanks (skipBlanks_tree t _) (skipBlanks_tree t' _) htext) hv hv').1

end Intake.Json
