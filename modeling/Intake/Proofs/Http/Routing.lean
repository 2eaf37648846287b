import Intake.Proofs.Http.Spelling

/-!
# Where a request goes

The path of a request decides first, its method next, and the segment of a batch path last. Neither
the store nor the body has a part in that, so a request that none of the two handlers gets is
answered in the same way whatever they are, and leaves nothing behind (`serve_routed`). A path is
looked at before its escapes are undone: an escaped slash does not end a segment.
-/

set_option autoImplicit false
set_option relaxedAutoImplicit false

namespace Intake.Http

open Utf8 Json

/-! ### Escapes -/

/-- A percent sign with two hexadecimal digits behind it is in front. -/
def BeginsEscape (s : Bytes) : Prop :=
  ∃ (high low : HexDigit) (rest : Bytes),
    s = '%'.toUInt8 :: high.char.toUInt8 :: low.char.toUInt8 :: rest

/-- A segment stands for a byte string. Where an escape begins it is undone, and every other byte
stands for itself. -/
inductive StandsFor : Bytes → Bytes → Prop
  | nil : StandsFor [] []
  | escaped (high low : HexDigit) {segment name : Bytes} (hmore : StandsFor segment name) :
    StandsFor ('%'.toUInt8 :: high.char.toUInt8 :: low.char.toUInt8 :: segment)
      (escapedByte high low :: name)
  | kept {b : UInt8} {segment name : Bytes} (hb : ¬ BeginsEscape (b :: segment))
    (hmore : StandsFor segment name) : StandsFor (b :: segment) (b :: name)

theorem exists_of_hexByte? {b c byte : UInt8} (h : hexByte? b c = some byte) :
    ∃ high low : HexDigit, b = high.char.toUInt8 ∧ c = low.char.toUInt8 ∧
      byte = escapedByte high low := by
  unfold hexByte? at h
  split at h
  · rename_i m n hm hn
    obtain ⟨high, rfl, rfl⟩ := exists_hexDigit hm
    obtain ⟨low, rfl, rfl⟩ := exists_hexDigit hn
    exact ⟨high, low, rfl, rfl, (Option.some_inj.mp h).symm⟩
  · simp at h

theorem unescape_of_not_beginsEscape {b : UInt8} {s : Bytes} (h : ¬ BeginsEscape (b :: s)) :
    unescape (b :: s) = b :: unescape s := by
  by_cases hb : b = '%'.toUInt8
  · match s with
    | [] => rfl
    | [_] => rfl
    | c :: d :: s =>
      rw [unescape, if_pos hb]
      cases hbyte : hexByte? c d with
      | none => rfl
      | some byte =>
        obtain ⟨high, low, rfl, rfl, -⟩ := exists_of_hexByte? hbyte
        exact absurd ⟨high, low, s, by rw [hb]⟩ h
  · exact unescape_cons_of_ne hb s

theorem StandsFor.unescape_eq {segment name : Bytes} (h : StandsFor segment name) :
    unescape segment = name := by
  induction h with
  | nil => rfl
  | escaped high low hmore ih => rw [unescape_escaped, ih]
  | kept hb hmore ih => rw [unescape_of_not_beginsEscape hb, ih]

theorem standsFor_unescape (segment : Bytes) : StandsFor segment (unescape segment) := by
  induction hlength : segment.length using Nat.strong_induction_on generalizing segment with
  | h n ih =>
    subst hlength
    cases segment with
    | nil => exact .nil
    | cons b segment =>
      by_cases hb : BeginsEscape (b :: segment)
      · obtain ⟨high, low, rest, heq⟩ := hb
        rw [heq, unescape_escaped]
        refine .escaped high low (ih _ ?_ rest rfl)
        rw [heq]
        simp only [List.length_cons]
        omega
      · rw [unescape_of_not_beginsEscape hb]
        exact .kept hb (ih _ (Nat.lt_succ_self _) segment rfl)

theorem segmentText?_eq_some_iff {segment : Bytes} {d : String} :
    segmentText? segment = some d ↔ StandsFor segment (encode d.toList) := by
  rw [segmentText?, Option.map_eq_some_iff]
  simp only [decode?_eq_some_iff]
  constructor
  · rintro ⟨text, htext, rfl⟩
    rw [String.toList_ofList, ← htext]
    exact standsFor_unescape segment
  · intro h
    exact ⟨d.toList, h.unescape_eq, String.ofList_toList⟩

theorem segmentText?_eq_none_iff {segment : Bytes} :
    segmentText? segment = none ↔ ∀ d : String, ¬ StandsFor segment (encode d.toList) := by
  simp only [Option.eq_none_iff_forall_ne_some, ne_eq, segmentText?_eq_some_iff]

/-! ### Paths -/

namespace Request

/-- The path is a single slash. -/
def AtRoot (request : Request) : Prop :=
  request.path = ['/'.toUInt8]

/-- The path is `/1/batch/` and a segment, which is not empty and has no slash in it. -/
def AtBatch (request : Request) (segment : Bytes) : Prop :=
  request.path = encode "/1/batch/".toList ++ segment ∧ segment ≠ [] ∧ '/'.toUInt8 ∉ segment

end Request

variable {registry : Registry} {store : Store} {request : Request} {segment : Bytes}

theorem ofPath?_root (h : request.AtRoot) : Route.ofPath? request.path = some .root := by
  rw [h]
  rfl

theorem ofPath?_batch (h : request.AtBatch segment) :
    Route.ofPath? request.path = some (.batch segment) := by
  rw [h.1]
  exact ofPath?_batchPath h.2.1 h.2.2

theorem Request.AtBatch.not_atRoot (h : request.AtBatch segment) : ¬ request.AtRoot := by
  intro hroot
  have hsome := ofPath?_batch h
  rw [ofPath?_root hroot] at hsome
  exact absurd hsome (by simp)

theorem Request.AtBatch.eq {other : Bytes} (h : request.AtBatch segment)
    (hother : request.AtBatch other) : other = segment := by
  have hsome := ofPath?_batch hother
  rw [ofPath?_batch h] at hsome
  exact (Route.batch.inj (Option.some_inj.mp hsome)).symm

/-- A path leads nowhere, or it is the root, or it is a batch path. -/
theorem ofPath?_eq_none_or (request : Request) :
    (¬ request.AtRoot ∧ (∀ segment, ¬ request.AtBatch segment) ∧
      Route.ofPath? request.path = none) ∨
    request.AtRoot ∨ ∃ segment, request.AtBatch segment := by
  cases hroute : Route.ofPath? request.path with
  | none =>
    refine Or.inl ⟨fun h ↦ ?_, fun segment h ↦ ?_, rfl⟩
    · rw [ofPath?_root h] at hroute
      exact absurd hroute (by simp)
    · rw [ofPath?_batch h] at hroute
      exact absurd hroute (by simp)
  | some route =>
    refine Or.inr ?_
    unfold Route.ofPath? at hroute
    split_ifs at hroute with hroot hbatch
    · exact Or.inl hroot
    · obtain ⟨segment, hsegment⟩ := List.isPrefixOf_iff_prefix.mp hbatch
      rw [← hsegment, List.drop_left] at hroute
      dsimp only at hroute
      split_ifs at hroute with hbad
      rw [Bool.or_eq_true, not_or, Bool.not_eq_true, Bool.not_eq_true, List.isEmpty_eq_false_iff,
        List.contains_eq_mem, decide_eq_false_iff_not] at hbad
      exact Or.inr ⟨segment, hsegment.symm, hbad⟩

/-! ### Handlers -/

/-- The response has one header that names a length, and it is that of the body. -/
def NamesLength (response : Response) : Prop :=
  response.headers.filter (·.1 = "content-length") =
    [("content-length", toString response.body.length)]

/-- What both handlers have in common: they have succeeded or failed, and they say how long their
answer is. -/
structure Handled (effect : Effect) : Prop where
  status : effect.response.status = 200 ∨ effect.response.status = 500
  length : NamesLength effect.response

theorem Handled.status_ne {effect : Effect} (h : Handled effect) {status : Nat}
    (hother : 200 ≠ status ∧ 500 ≠ status) : effect.response.status ≠ status := by
  obtain hok | hfailed := h.status
  · exact hok ▸ hother.1
  · exact hfailed ▸ hother.2

theorem namesLength_ofBody (status : Nat) {type : String} {body : Bytes} :
    NamesLength (.ofBody status type body) := by
  have htype : ("content-type" : String) ≠ "content-length" := by decide
  simp [NamesLength, Response.ofBody, Response.lengthHeader, htype]

theorem namesLength_notAllowed (allowed : String) : NamesLength (.notAllowed allowed) := by
  have hallow : ("allow" : String) ≠ "content-length" := by decide
  simp [NamesLength, Response.notAllowed, Response.lengthHeader, hallow]

theorem handled_failure (store : Store) (log : List Log.Entry) :
    Handled ⟨.failure, store, log⟩ where
  status := Or.inr rfl
  length := by simp [NamesLength, Response.failure, Response.lengthHeader]

theorem handled_json (v : Value) (store : Store) (log : List Log.Entry) :
    Handled ⟨.json v, store, log⟩ where
  status := Or.inl rfl
  length := namesLength_ofBody 200

theorem handled_inspect (store : Store) : Handled (inspect store) := by
  unfold inspect
  split
  · exact handled_json _ store _
  · exact handled_failure store _

theorem handled_post (registry : Registry) (store : Store) (d : String) (request : Request) :
    Handled (post registry store d request) := by
  cases hbatch : request.batch registry with
  | error fault =>
    rw [post_of_error hbatch]
    exact handled_failure store _
  | ok batch =>
    cases hoffline : store.offline with
    | true =>
      rw [post_of_offline hbatch hoffline]
      exact handled_failure store _
    | false =>
      rw [post_of_online hbatch hoffline]
      exact handled_json _ _ _

/-! ### All requests -/

/-- What a request brings about, by its path and its method and the segment of a batch path. The
last three ways lead to a handler. -/
inductive Answered (registry : Registry) (store : Store) (request : Request) : Effect → Prop
  | notFound (hroot : ¬ request.AtRoot) (hbatch : ∀ segment, ¬ request.AtBatch segment) :
    Answered registry store request ⟨⟨404, [], []⟩, store, []⟩
  | rootNotAllowed (hroot : request.AtRoot) (hget : request.method ≠ "GET")
    (hhead : request.method ≠ "HEAD") :
    Answered registry store request
      ⟨⟨405, [("allow", "GET,HEAD"), ("content-length", "0")], []⟩, store, []⟩
  | batchNotAllowed {segment : Bytes} (hbatch : request.AtBatch segment)
    (hpost : request.method ≠ "POST") :
    Answered registry store request
      ⟨⟨405, [("allow", "POST"), ("content-length", "0")], []⟩, store, []⟩
  | badSegment {segment : Bytes} (hbatch : request.AtBatch segment)
    (hpost : request.method = "POST")
    (hname : ∀ d : String, ¬ StandsFor segment (encode d.toList)) :
    Answered registry store request ⟨.badSegment, store, []⟩
  | inspected (hroot : request.AtRoot) (hget : request.method = "GET") :
    Answered registry store request (inspect store)
  | summarized (hroot : request.AtRoot) (hhead : request.method = "HEAD") :
    Answered registry store request
      { inspect store with response := { (inspect store).response with body := [] } }
  | posted {segment : Bytes} (hbatch : request.AtBatch segment) (hpost : request.method = "POST")
    {d : String} (hname : StandsFor segment (encode d.toList)) :
    Answered registry store request (post registry store d request)

theorem answered_root (registry : Registry) (store : Store) (h : request.AtRoot) :
    Answered registry store request (serve registry store request) := by
  simp only [serve, ofPath?_root h, dispatch]
  split_ifs with hget hhead
  · exact .inspected h hget
  · exact .summarized h hhead
  · exact .rootNotAllowed h hget hhead

theorem answered_batch (registry : Registry) (store : Store) (h : request.AtBatch segment) :
    Answered registry store request (serve registry store request) := by
  simp only [serve, ofPath?_batch h, dispatch]
  split_ifs with hpost
  · cases hname : segmentText? segment with
    | none => exact .badSegment h hpost (segmentText?_eq_none_iff.mp hname)
    | some d => exact .posted h hpost (segmentText?_eq_some_iff.mp hname)
  · exact .batchNotAllowed h hpost

theorem answered (registry : Registry) (store : Store) (request : Request) :
    Answered registry store request (serve registry store request) := by
  obtain ⟨hroot, hbatch, hroute⟩ | hroot | ⟨segment, hbatch⟩ := ofPath?_eq_none_or request
  · simp only [serve, hroute]
    exact .notFound hroot hbatch
  · exact answered_root registry store hroot
  · exact answered_batch registry store hbatch

namespace Answered

variable {effect : Effect}

/-- Only a path that leads nowhere is not found. -/
theorem status_eq_notFound_iff (h : Answered registry store request effect) :
    effect.response.status = 404 ↔ ¬ request.AtRoot ∧ ∀ segment, ¬ request.AtBatch segment := by
  cases h with
  | notFound hroot hbatch => exact iff_of_true rfl ⟨hroot, hbatch⟩
  | rootNotAllowed hroot hget hhead =>
    exact iff_of_false (show 405 ≠ 404 by decide) fun h ↦ h.1 hroot
  | batchNotAllowed hbatch hpost =>
    exact iff_of_false (show 405 ≠ 404 by decide) fun h ↦ h.2 _ hbatch
  | badSegment hbatch hpost hname =>
    exact iff_of_false (show 400 ≠ 404 by decide) fun h ↦ h.2 _ hbatch
  | inspected hroot hget =>
    exact iff_of_false ((handled_inspect store).status_ne (by decide)) fun h ↦ h.1 hroot
  | summarized hroot hhead =>
    exact iff_of_false ((handled_inspect store).status_ne (by decide)) fun h ↦ h.1 hroot
  | posted hbatch hpost hname =>
    exact iff_of_false ((handled_post registry store _ request).status_ne (by decide))
      fun h ↦ h.2 _ hbatch

/-- A method is not allowed if the path leads somewhere, but not for this method. -/
theorem status_eq_notAllowed_iff (h : Answered registry store request effect) :
    effect.response.status = 405 ↔
      request.AtRoot ∧ request.method ≠ "GET" ∧ request.method ≠ "HEAD" ∨
        (∃ segment, request.AtBatch segment) ∧ request.method ≠ "POST" := by
  cases h with
  | notFound hroot hbatch =>
    refine iff_of_false (show 404 ≠ 405 by decide) ?_
    rintro (⟨h, -⟩ | ⟨⟨segment, h⟩, -⟩)
    · exact hroot h
    · exact hbatch segment h
  | rootNotAllowed hroot hget hhead => exact iff_of_true rfl (Or.inl ⟨hroot, hget, hhead⟩)
  | batchNotAllowed hbatch hpost => exact iff_of_true rfl (Or.inr ⟨⟨_, hbatch⟩, hpost⟩)
  | badSegment hbatch hpost hname =>
    refine iff_of_false (show 400 ≠ 405 by decide) ?_
    rintro (⟨h, -⟩ | ⟨-, h⟩)
    · exact hbatch.not_atRoot h
    · exact h hpost
  | inspected hroot hget =>
    refine iff_of_false ((handled_inspect store).status_ne (by decide)) ?_
    rintro (⟨-, h, -⟩ | ⟨⟨segment, h⟩, -⟩)
    · exact h hget
    · exact h.not_atRoot hroot
  | summarized hroot hhead =>
    refine iff_of_false ((handled_inspect store).status_ne (by decide)) ?_
    rintro (⟨-, -, h⟩ | ⟨⟨segment, h⟩, -⟩)
    · exact h hhead
    · exact h.not_atRoot hroot
  | posted hbatch hpost hname =>
    refine iff_of_false ((handled_post registry store _ request).status_ne (by decide)) ?_
    rintro (⟨h, -⟩ | ⟨-, h⟩)
    · exact hbatch.not_atRoot h
    · exact h hpost

/-- A segment is looked into for a post alone, and refused if it stands for no text. -/
theorem status_eq_badSegment_iff (h : Answered registry store request effect) :
    effect.response.status = 400 ↔ request.method = "POST" ∧ ∃ segment, request.AtBatch segment ∧
      ∀ d : String, ¬ StandsFor segment (encode d.toList) := by
  cases h with
  | notFound hroot hbatch =>
    refine iff_of_false (show 404 ≠ 400 by decide) ?_
    rintro ⟨-, segment, h, -⟩
    exact hbatch segment h
  | rootNotAllowed hroot hget hhead =>
    refine iff_of_false (show 405 ≠ 400 by decide) ?_
    rintro ⟨-, segment, h, -⟩
    exact h.not_atRoot hroot
  | batchNotAllowed hbatch hpost =>
    exact iff_of_false (show 405 ≠ 400 by decide) fun h ↦ hpost h.1
  | badSegment hbatch hpost hname => exact iff_of_true rfl ⟨hpost, _, hbatch, hname⟩
  | inspected hroot hget =>
    refine iff_of_false ((handled_inspect store).status_ne (by decide)) ?_
    rintro ⟨-, segment, h, -⟩
    exact h.not_atRoot hroot
  | summarized hroot hhead =>
    refine iff_of_false ((handled_inspect store).status_ne (by decide)) ?_
    rintro ⟨-, segment, h, -⟩
    exact h.not_atRoot hroot
  | @posted segment hbatch hpost d hname =>
    refine iff_of_false ((handled_post registry store d request).status_ne (by decide)) ?_
    rintro ⟨-, other, h, hnone⟩
    rw [hbatch.eq h] at hnone
    exact hnone d hname

/-- What no handler gets, and what is asked with GET or HEAD, leaves the store as it is. -/
theorem store_eq (h : Answered registry store request effect)
    (hother : effect.response.status = 404 ∨ effect.response.status = 405 ∨
      effect.response.status = 400 ∨ request.method = "GET" ∨ request.method = "HEAD") :
    effect.store = store := by
  cases h with
  | notFound hroot hbatch => rfl
  | rootNotAllowed hroot hget hhead => rfl
  | batchNotAllowed hbatch hpost => rfl
  | badSegment hbatch hpost hname => rfl
  | inspected hroot hget => exact inspect_store store
  | summarized hroot hhead => exact inspect_store store
  | @posted segment hbatch hpost d hname =>
    have hhandled := handled_post registry store d request
    rw [hpost] at hother
    obtain h | h | h | h | h := hother
    · exact absurd h (hhandled.status_ne (by decide))
    · exact absurd h (hhandled.status_ne (by decide))
    · exact absurd h (hhandled.status_ne (by decide))
    · exact absurd h (by decide)
    · exact absurd h (by decide)

/-- Every answer says how long it is, but for two: the one to a path that leads nowhere, and the one
that leaves a body out. -/
theorem namesLength (h : Answered registry store request effect)
    (hfound : effect.response.status ≠ 404)
    (hbody : ¬ (request.AtRoot ∧ request.method = "HEAD")) : NamesLength effect.response := by
  cases h with
  | notFound hroot hbatch => exact absurd rfl hfound
  | rootNotAllowed hroot hget hhead => exact namesLength_notAllowed "GET,HEAD"
  | batchNotAllowed hbatch hpost => exact namesLength_notAllowed "POST"
  | badSegment hbatch hpost hname => exact namesLength_ofBody 400
  | inspected hroot hget => exact (handled_inspect store).length
  | summarized hroot hhead => exact absurd ⟨hroot, hhead⟩ hbody
  | posted hbatch hpost hname => exact (handled_post registry store _ request).length

end Answered

/-- With HEAD the root is answered as with GET, but for the body. -/
theorem serve_head (registry : Registry) (store : Store) (hroot : request.AtRoot)
    (hhead : request.method = "HEAD") {get : Request} (hget : get.method = "GET")
    (hgetRoot : get.AtRoot) :
    (serve registry store request).response =
      { (serve registry store get).response with body := [] } := by
  have hother : request.method ≠ "GET" := by
    rw [hhead]
    decide
  simp only [serve, ofPath?_root hroot, ofPath?_root hgetRoot, dispatch, if_pos hget,
    if_neg hother, if_pos hhead, Response.withoutBody]

/-- Every request is answered by what its path, its method and its segment say, whatever the store
and the body. Where the status is 404, 405 or 400, no handler has had it and the store is as it was,
and so it is behind every GET and HEAD. A response names the length of its body once; with HEAD the
root is answered as with GET, but for the body. -/
theorem serve_routed (registry : Registry) (store : Store) (request : Request) :
    let effect := serve registry store request
    Answered registry store request effect ∧
    (effect.response.status = 404 ↔
      ¬ request.AtRoot ∧ ∀ segment, ¬ request.AtBatch segment) ∧
    (effect.response.status = 405 ↔
      request.AtRoot ∧ request.method ≠ "GET" ∧ request.method ≠ "HEAD" ∨
        (∃ segment, request.AtBatch segment) ∧ request.method ≠ "POST") ∧
    (effect.response.status = 400 ↔ request.method = "POST" ∧ ∃ segment,
      request.AtBatch segment ∧ ∀ d : String, ¬ StandsFor segment (encode d.toList)) ∧
    (effect.response.status = 404 ∨ effect.response.status = 405 ∨
      effect.response.status = 400 ∨ request.method = "GET" ∨ request.method = "HEAD" →
        effect.store = store) ∧
    (effect.response.status ≠ 404 → ¬ (request.AtRoot ∧ request.method = "HEAD") →
      NamesLength effect.response) ∧
    (request.AtRoot → request.method = "HEAD" → ∀ get : Request, get.method = "GET" →
      get.AtRoot → effect.response =
        { (serve registry store get).response with body := [] }) := by
  intro effect
  have h : Answered registry store request effect := answered registry store request
  exact ⟨h, h.status_eq_notFound_iff, h.status_eq_notAllowed_iff, h.status_eq_badSegment_iff,
    h.store_eq, h.namesLength, fun hroot hhead get hget hgetRoot ↦
      serve_head registry store hroot hhead hget hgetRoot⟩

/-- A post of no list at all, to a segment with an escape that no text has in its form. -/
def brokenPost : Request :=
  ⟨"POST", encode "/1/batch/a%2Fb%ff?/".toList, [], []⟩

/-- The root, asked for without its body and behind a query. -/
def rootHead : Request :=
  ⟨"HEAD", encode "/?all".toList, [], []⟩

/-- The segment is refused though the store is offline and the body is none, and the root is
answered as if its body were there. -/
theorem serve_routed_brokenPost :
    brokenPost.method = "POST" ∧ brokenPost.AtBatch (encode "a%2Fb%ff".toList) ∧
      (∀ d : String, ¬ StandsFor (encode "a%2Fb%ff".toList) (encode d.toList)) ∧
        (serve .full Store.empty.toggle brokenPost).response.status = 400 ∧
          (serve .full Store.empty.toggle brokenPost).store = Store.empty.toggle ∧
            rootHead.AtRoot ∧ rootHead.method = "HEAD" ∧
              (serve .full .empty rootHead).response =
                { (serve .full .empty { rootHead with method := "GET" }).response with
                  body := [] } := by
  have hbatch : brokenPost.AtBatch (encode "a%2Fb%ff".toList) :=
    ⟨by decide, by decide, by decide⟩
  have hname : ∀ d : String, ¬ StandsFor (encode "a%2Fb%ff".toList) (encode d.toList) :=
    segmentText?_eq_none_iff.mp (by decide +kernel)
  have hroot : rootHead.AtRoot := by
    rw [Request.AtRoot]
    decide
  obtain ⟨-, -, -, hrefused, hkept, -, -⟩ := serve_routed .full Store.empty.toggle brokenPost
  obtain ⟨-, -, -, -, -, -, hhead⟩ := serve_routed .full .empty rootHead
  have hstatus := hrefused.mpr ⟨rfl, _, hbatch, hname⟩
  exact ⟨rfl, hbatch, hname, hstatus, hkept (Or.inr (Or.inr (Or.inl hstatus))), hroot, rfl,
    hhead hroot rfl { rootHead with method := "GET" } rfl hroot⟩

/-- A request for the root with a fragment behind it. -/
def fragmentRequest : Request :=
  ⟨"GET", encode "/#x".toList, [], []⟩

/-- A fragment is no part of the path, although no question mark stands in front of it. -/
theorem serve_fragmentRequest :
    let front := fragmentRequest.target.takeWhile (· != '?'.toUInt8)
    (front ≠ ['/'.toUInt8] ∧ ∀ segment, front ≠ encode "/1/batch/".toList ++ segment) ∧
      (serve .full .empty fragmentRequest).response.status = 200 := by
  intro front
  have hfront : front = ['/'.toUInt8, '#'.toUInt8, 'x'.toUInt8] := by decide
  have hbatch : encode "/1/batch/".toList = '/'.toUInt8 :: '1'.toUInt8 ::
      encode "/batch/".toList := by decide
  rw [hfront]
  refine ⟨⟨by decide, fun segment h ↦ ?_⟩, by decide⟩
  rw [hbatch] at h
  exact absurd (List.cons.inj (List.cons.inj h).2).1 (by decide)

end Intake.Http
