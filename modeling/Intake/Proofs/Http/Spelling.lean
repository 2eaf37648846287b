import Intake.Proofs.Http.Shown
import Mathlib.Data.List.TakeWhile

/-!
# The names of datasets in a path

The name of a dataset is written in a path byte by byte. An escape of two hexadecimal digits stands
for any byte, and some bytes may also stand for themselves (`Spells`). No spelling has a slash, a
question mark or a number sign in it, whatever the name has, so a spelling is one segment of the
path (`ofPath?_batchPath`), and it is undone once and gives back the name (`Spells.unescape_eq`).
A post to any spelling of a name adds to the dataset of that name and to no other, and what is shown
afterwards has one member with a key that is read back as the name (`serve_spelled`).
-/

set_option autoImplicit false
set_option relaxedAutoImplicit false

namespace Intake.Http

open Utf8 Json Json.Tree

/-! ### Spellings -/

/-- The unreserved characters of RFC 3986 and the plus sign. -/
def IsBare (b : UInt8) : Prop :=
  ('A'.toUInt8 ≤ b ∧ b ≤ 'Z'.toUInt8) ∨ ('a'.toUInt8 ≤ b ∧ b ≤ 'z'.toUInt8) ∨
    ('0'.toUInt8 ≤ b ∧ b ≤ '9'.toUInt8) ∨ b ∈ ['-', '.', '_', '~', '+'].map Char.toUInt8

instance : DecidablePred IsBare := fun _ ↦ inferInstanceAs (Decidable (_ ∨ _))

/-- The byte of two hexadecimal digits. -/
def escapedByte (high low : HexDigit) : UInt8 :=
  (high.value.val * 16 + low.value.val).toUInt8

/-- A segment of a path is a way of writing a byte string. -/
inductive Spells : Bytes → Bytes → Prop
  | nil : Spells [] []
  | bare {b : UInt8} {segment name : Bytes} (hb : IsBare b) (hmore : Spells segment name) :
    Spells (b :: segment) (b :: name)
  | escaped (high low : HexDigit) {segment name : Bytes} (hmore : Spells segment name) :
    Spells ('%'.toUInt8 :: high.char.toUInt8 :: low.char.toUInt8 :: segment)
      (escapedByte high low :: name)

theorem unescape_cons_of_ne {a : UInt8} (h : a ≠ '%'.toUInt8) (s : Bytes) :
    unescape (a :: s) = a :: unescape s := by
  match s with
  | [] => rfl
  | [_] => rfl
  | _ :: _ :: _ => rw [unescape, if_neg h]

theorem unescape_escaped (high low : HexDigit) (s : Bytes) :
    unescape ('%'.toUInt8 :: high.char.toUInt8 :: low.char.toUInt8 :: s) =
      escapedByte high low :: unescape s := by
  have hbyte : hexByte? high.char.toUInt8 low.char.toUInt8 = some (escapedByte high low) := by
    rw [hexByte?, hexDigit?_hexDigit, hexDigit?_hexDigit]
    rfl
  rw [unescape, if_pos rfl, hbyte]

theorem isBare_hexDigit (d : HexDigit) : IsBare d.char.toUInt8 := by
  obtain ⟨value, capital⟩ := d
  revert value capital
  decide

namespace Spells

variable {segment name : Bytes}

/-- A spelling is undone to what it spells. -/
theorem unescape_eq (h : Spells segment name) : unescape segment = name := by
  induction h with
  | nil => rfl
  | @bare b segment name hb hmore ih =>
    have hne : b ≠ '%'.toUInt8 := by
      rintro rfl
      exact absurd hb (by decide)
    rw [unescape_cons_of_ne hne, ih]
  | escaped high low hmore ih => rw [unescape_escaped, ih]

/-- The bytes of a spelling stand for themselves or begin an escape. -/
theorem isBare_or (h : Spells segment name) : ∀ b ∈ segment, b = '%'.toUInt8 ∨ IsBare b := by
  induction h with
  | nil => exact nofun
  | bare hb hmore ih => exact List.forall_mem_cons.mpr ⟨.inr hb, ih⟩
  | escaped high low hmore ih =>
    exact List.forall_mem_cons.mpr ⟨.inl rfl, List.forall_mem_cons.mpr
      ⟨.inr (isBare_hexDigit high), List.forall_mem_cons.mpr ⟨.inr (isBare_hexDigit low), ih⟩⟩⟩

/-- A byte that has to be escaped stands in no spelling. -/
theorem not_mem (h : Spells segment name) {b : UInt8} (hb : ¬ (b = '%'.toUInt8 ∨ IsBare b)) :
    b ∉ segment :=
  fun hmem ↦ hb (h.isBare_or b hmem)

theorem ne_nil (h : Spells segment name) (hname : name ≠ []) : segment ≠ [] := by
  rintro rfl
  cases h
  exact hname rfl

/-- A segment spells one name at most. -/
theorem unique {d e : String} (hd : Spells segment (encode d.toList))
    (he : Spells segment (encode e.toList)) : d = e :=
  String.toList_inj.mp (encode_injective (hd.unescape_eq.symm.trans he.unescape_eq))

end Spells

/-! ### Paths -/

theorem ofPath?_batchPath {segment : Bytes} (hne : segment ≠ []) (hslash : '/'.toUInt8 ∉ segment) :
    Route.ofPath? (Route.batchPath ++ segment) = some (.batch segment) := by
  have hroot : Route.batchPath ++ segment ≠ ['/'.toUInt8] := by
    intro h
    have hlength := congrArg List.length h
    have hlong : Route.batchPath.length = 9 := by decide
    rw [List.length_append, hlong, List.length_singleton] at hlength
    omega
  have hprefix : Route.batchPath.isPrefixOf (Route.batchPath ++ segment) = true :=
    List.isPrefixOf_iff_prefix.mpr (List.prefix_append _ _)
  have hsegment : (segment.isEmpty || segment.contains '/'.toUInt8) = false := by
    rw [Bool.or_eq_false_iff, List.isEmpty_eq_false_iff, List.contains_eq_mem,
      decide_eq_false_iff_not]
    exact ⟨hne, hslash⟩
  rw [Route.ofPath?, if_neg hroot, if_pos hprefix]
  simp only [List.drop_left, hsegment]
  rfl

/-- The path of a target in which nothing begins a query or a fragment is all of it. -/
theorem path_eq_target {request : Request} (hquery : '?'.toUInt8 ∉ request.target)
    (hfragment : '#'.toUInt8 ∉ request.target) : request.path = request.target := by
  refine List.takeWhile_eq_self_iff.mpr fun b hb ↦ ?_
  have hneq : b ≠ '?'.toUInt8 := fun h ↦ hquery (h ▸ hb)
  have hnef : b ≠ '#'.toUInt8 := fun h ↦ hfragment (h ▸ hb)
  simp [hneq, hnef]

/-- A path that spells a name leads to the dataset of that name. -/
theorem dataset?_of_spells {request : Request} {segment : Bytes} {d : String} (hd : d ≠ "")
    (hspells : Spells segment (encode d.toList))
    (htarget : request.target = Route.batchPath ++ segment) : request.dataset? = some d := by
  have hname : encode d.toList ≠ [] := by
    intro hnil
    exact hd (String.toList_inj.mp (encode_injective (hnil.trans encode_nil.symm)))
  have habsent : ∀ b ∉ Route.batchPath, ¬ (b = '%'.toUInt8 ∨ IsBare b) → b ∉ request.target := by
    intro b hfixed hb
    rw [htarget, List.mem_append, not_or]
    exact ⟨hfixed, hspells.not_mem hb⟩
  have hquery : '?'.toUInt8 ∉ request.target := habsent _ (by decide) (by decide)
  have hfragment : '#'.toUInt8 ∉ request.target := habsent _ (by decide) (by decide)
  have hpath : request.path = Route.batchPath ++ segment := by
    rw [path_eq_target hquery hfragment, htarget]
  have hroute := ofPath?_batchPath (hspells.ne_nil hname) (hspells.not_mem (by decide))
  rw [Request.dataset?, Request.segment?, hpath, hroute]
  simp only [Option.bind_some, segmentText?, hspells.unescape_eq]
  rw [decode?_eq_some_iff.mpr rfl, Option.map_some, String.ofList_toList]

/-! ### What is shown -/

/-- An object shows the events of a dataset: it has one member with a key that is read back as the
name, and the value of that member is the list of the events word for word. -/
def Shows (members : List (Member Tree)) (name : String) (events : List Event) : Prop :=
  ∃ member, members.filter (·.key.unescaped = some name.toList) = [member] ∧
    Writes member.value (.list events)

/-- The members with a key that is read back as a name write the entries with that name. -/
theorem membersWrite_filter {members : List (Member Tree)} {entries : List (String × Value)}
    (h : MembersWrite members entries) (name : String) :
    MembersWrite (members.filter (·.key.unescaped = some name.toList))
      (entries.filter (·.1 = name)) := by
  induction entries generalizing members with
  | nil =>
    cases h
    exact .nil
  | cons entry entries ih =>
    cases h with
    | @cons before between behind after key other t members v _ hkey hv hmembers =>
      have hmore := ih hmembers
      by_cases hname : other = name
      · rw [List.filter_cons_of_pos (by simp [hkey, hname]),
          List.filter_cons_of_pos (by simp [hname])]
        exact .cons hkey hv hmore
      · rw [List.filter_cons_of_neg (by simp [hkey, String.toList_inj, hname]),
          List.filter_cons_of_neg (by simp [hname])]
        exact hmore

/-- What is shown of the datasets are their events, under their names. -/
theorem shows_iff {members : List (Member Tree)} {datasets : Datasets}
    (hascending : Ascending datasets)
    (h : MembersWrite members (datasets.map fun (name, events) ↦ (name, .list events)))
    (name : String) (events : List Event) :
    Shows members name events ↔ datasets.events? name = some events := by
  have hfilter := membersWrite_filter h name
  have hentries : (datasets.map fun (name, events) ↦ (name, Value.list events)).filter
      (·.1 = name) = (datasets.events? name).toList.map fun events ↦ (name, .list events) := by
    rw [List.filter_map, Datasets.events?]
    show (datasets.filter (·.1 = name)).map _ = _
    rw [hascending.filter_eq name, List.map_map]
    rfl
  rw [hentries] at hfilter
  constructor
  · rintro ⟨member, hmember, hwrites⟩
    rw [hmember] at hfilter
    cases hfound : datasets.events? name with
    | none =>
      rw [hfound] at hfilter
      cases hfilter
    | some found =>
      rw [hfound] at hfilter
      cases hfilter with
      | cons hkey hv hmembers =>
        have hdenoted := denoted_of_writes hwrites
        rw [denoted_of_writes hv] at hdenoted
        rw [Value.list.inj (Option.some_inj.mp hdenoted)]
  · intro hfound
    rw [hfound] at hfilter
    rw [Shows]
    generalize members.filter (·.key.unescaped = some name.toList) = shown at hfilter ⊢
    cases hfilter with
    | @cons before between behind after key _ t _ _ _ hkey hv hmembers =>
      cases hmembers
      exact ⟨⟨before, key, between, behind, t, after⟩, rfl, hv⟩

/-- A name is kept whatever it consists of and however it is spelled. A post to it that has a batch
for a body is answered by 200 and adds the batch to the dataset of that name and to no other. What
is shown next has the events of every dataset under its name, and the path spells no other name. -/
theorem serve_spelled (registry : Registry) {store : Store} (hstore : Reachable store)
    (honline : store.offline = false) {d : String} (hd : d ≠ "") {segment : Bytes}
    (hspells : Spells segment (encode d.toList)) {request : Request}
    (hmethod : request.method = "POST") (htarget : request.target = Route.batchPath ++ segment)
    {batch : Batch} (hbatch : request.batch registry = .ok batch) :
    let effect := serve registry store request
    effect.response.status = 200 ∧
    (∀ name, effect.store.datasets.events? name =
      if name = d then some ((store.datasets.events? d).getD [] ++ batch.events)
      else store.datasets.events? name) ∧
    (∀ root : Request, root.method = "GET" → root.path = ['/'.toUInt8] →
      (serve registry effect.store root).response.status = 200 ∧
      ∃ inner members,
        decode? (serve registry effect.store root).response.body =
          some (Tree.object inner members).chars ∧
        ∀ name events, Shows members name events ↔
          effect.store.datasets.events? name = some events) ∧
    ∀ other : String, Spells segment (encode other.toList) → other = d := by
  intro effect
  have hdataset := dataset?_of_spells hd hspells htarget
  have heffect : effect = ⟨.json (Ack.listToJson batch.acks), appended store d batch,
      [.accepted d (registry.resolve request.contentEncoding) batch.events.length]⟩ := by
    rw [← post_of_online hbatch honline]
    exact serve_post hmethod hdataset
  have hreachable : Reachable effect.store := .next registry (.request request) hstore
  refine ⟨by rw [heffect]; rfl, ?_, fun root hget hroot ↦ ?_, fun other hother ↦
    hother.unique hspells⟩
  · rw [heffect]
    exact events?_appended hstore.ascending d batch
  · have hstill : effect.store.offline = false := by
      rw [heffect]
      exact honline
    obtain ⟨⟨t, hbody, hwrites⟩, -⟩ := shown_writes hreachable hstill registry hget hroot
    refine ⟨by rw [serve_root hget hroot hstill]; rfl, ?_⟩
    cases hwrites with
    | @object inner members _ hsorted hmembers =>
      exact ⟨inner, members, hbody, shows_iff hreachable.ascending hmembers⟩

/-- A spelling with a plus sign, digits of either case, and an escape of a byte that needs none. -/
def mixedSegment : Bytes :=
  encode "+%c3%A9%2F%25%32f".toList

theorem spells_mixedSegment : Spells mixedSegment (encode "+é/%2f".toList) := by
  have hsegment : mixedSegment = "+%c3%A9%2F%25%32f".toList.map Char.toUInt8 := by decide
  have hname : encode "+é/%2f".toList = [0x2B, 0xC3, 0xA9, 0x2F, 0x25, 0x32, 0x66] := by decide
  rw [hsegment, hname]
  exact .bare (by decide) <| .escaped ⟨0xC, false⟩ ⟨3, false⟩ <|
    .escaped ⟨0xA, true⟩ ⟨9, false⟩ <| .escaped ⟨2, false⟩ ⟨0xF, true⟩ <|
      .escaped ⟨2, false⟩ ⟨5, false⟩ <| .escaped ⟨3, false⟩ ⟨2, false⟩ <|
        .bare (by decide) .nil

theorem serve_spelled_mixedSegment :
    Reachable .empty ∧ Spells mixedSegment (encode "+é/%2f".toList) ∧
      (emptyPost "+%c3%A9%2F%25%32f").target = Route.batchPath ++ mixedSegment ∧
      (emptyPost "+%c3%A9%2F%25%32f").batch .full = .ok ⟨[]⟩ ∧
      (serve .full .empty (emptyPost "+%c3%A9%2F%25%32f")).store.datasets.events? "+é/%2f" =
        some [] := by
  have htarget : (emptyPost "+%c3%A9%2F%25%32f").target = Route.batchPath ++ mixedSegment := by
    decide
  have hbatch := batch_emptyPost "+%c3%A9%2F%25%32f"
  obtain ⟨-, hevents, -⟩ := serve_spelled .full .empty rfl (by decide) spells_mixedSegment rfl
    htarget hbatch
  exact ⟨.empty, spells_mixedSegment, htarget, hbatch, hevents "+é/%2f"⟩

end Intake.Http
