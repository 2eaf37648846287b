import Intake.Proofs.Batch
import Intake.Proofs.Http.Step

/-!
# Posting a batch

A post to a dataset either takes in a whole batch or changes nothing. The response, the store and
the log agree about which of the two it was, and about the number of events (`serve_post_contract`).
-/

set_option autoImplicit false
set_option relaxedAutoImplicit false

namespace Intake.Http

open Utf8

/-! ### Acknowledgements -/

/-- A list of acknowledgements as it is written. -/
def acknowledged (n : Nat) : List Char :=
  '[' :: ([','].intercalate (List.replicate n "\x7b\"status\":202\x7d".toList) ++ [']'])

theorem chars_accepted :
    (Json.Tree.ofValue Ack.accepted.toJson).chars = "\x7b\"status\":202\x7d".toList := by
  have hdigits : Json.Digits.onto [] 202 = ⟨2, [0, 2]⟩ := by
    simp [Json.Digits.onto]
  have hnumber : (Json.Numeral.ofNat Ack.accepted.status.toNat).chars = ['2', '0', '2'] := by
    show (Json.Digits.onto [] 202).chars ++ [] ++ [] = _
    rw [hdigits]
    rfl
  rw [Ack.toJson, Json.Tree.ofValue, Json.Tree.ofMembers, Json.Tree.ofMembers, Json.Tree.ofValue,
    Json.Tree.chars, Json.Tree.memberTexts, Json.Tree.chars, Json.chars_ofNumeral, hnumber]
  decide

theorem bytes_acks (batch : Batch) :
    (Ack.listToJson batch.acks).bytes = encode (acknowledged batch.events.length) := by
  rw [Ack.listToJson, Json.bytes_eq, Json.chars_list, acknowledged, Batch.acks, List.map_map,
    List.map_map, ← chars_accepted]
  exact congrArg (fun texts ↦ encode ('[' :: ([','].intercalate texts ++ [']'])))
    List.map_const'

/-! ### The two ways of a post -/

/-- A batch was taken in for a dataset. -/
structure TakenIn (store : Store) (d : String) (codec : Codec) (batch : Batch) (effect : Effect) :
    Prop where
  status : effect.response.status = 200
  body : effect.response.body = encode (acknowledged batch.events.length)
  online : effect.store.offline = false
  ascending : Ascending effect.store.datasets
  events : ∀ name, effect.store.datasets.events? name =
    if name = d then some ((store.datasets.events? d).getD [] ++ batch.events)
    else store.datasets.events? name
  growth : ((effect.store.datasets.events? d).getD []).length =
    ((store.datasets.events? d).getD []).length + batch.events.length
  log : ∃ entry, effect.log = [entry] ∧ entry.level = .debug ∧ entry.fields =
    [("dataset", .text d), ("encoding", .text codec.name), ("events", .count batch.events.length)]

/-- A post to a dataset was refused with this error. -/
structure Refused (store : Store) (d : String) (header : Option String) (error : String)
    (effect : Effect) : Prop where
  status : effect.response.status = 500
  body : effect.response.body = []
  store : effect.store = store
  log : ∃ entry, effect.log = [entry] ∧ entry.level = .warning ∧ entry.fields =
    [("dataset", .text d), ("content_encoding", .text (Log.headerText header)),
      ("error", .text error)]

/-- The error that a body is refused with. A fault of the coding comes before one of the JSON text,
and both come before the store. -/
def refusal (codec : Codec) (body : Bytes) : String :=
  match codec.decode body with
  | .error fault => (Batch.Fault.decompress fault).message
  | .ok raw =>
    match Batch.ofJson raw with
    | .error e => (Batch.Fault.json e).message
    | .ok _ => Store.Fault.offline.message

theorem takenIn_appended {store : Store} (hstore : Ascending store.datasets)
    (honline : store.offline = false) (d : String) (codec : Codec) (batch : Batch) :
    TakenIn store d codec batch ⟨.json (Ack.listToJson batch.acks), appended store d batch,
      [.accepted d codec batch.events.length]⟩ where
  status := rfl
  body := bytes_acks batch
  online := honline
  ascending := ascending_appended hstore d batch
  events := events?_appended hstore d batch
  growth := by
    rw [events?_appended hstore d batch, if_pos rfl, Option.getD_some, List.length_append]
  log := ⟨_, rfl, rfl, rfl⟩

theorem refused_failure (store : Store) (d : String) (header : Option String)
    (fault : Ingest.Fault) :
    Refused store d header fault.message ⟨.failure, store, [.rejected d header fault]⟩ where
  status := rfl
  body := rfl
  store := rfl
  log := ⟨_, rfl, rfl, rfl⟩

theorem batch_eq_ok_iff {registry : Registry} {request : Request} {batch : Batch} :
    request.batch registry = .ok batch ↔
      ∃ raw, (registry.resolve request.contentEncoding).decode request.body = .ok raw ∧
        Batch.ofJson raw = .ok batch :=
  Batch.decode_eq_ok_iff

theorem message_of_batch_error {registry : Registry} {request : Request} {fault : Batch.Fault}
    (h : request.batch registry = .error fault) :
    fault.message = refusal (registry.resolve request.contentEncoding) request.body := by
  rw [Request.batch, Batch.decode] at h
  unfold refusal
  cases hdecode : (registry.resolve request.contentEncoding).decode request.body with
  | error e =>
    rw [hdecode] at h
    rw [← Except.error.inj h]
  | ok raw =>
    rw [hdecode] at h
    dsimp only at h ⊢
    cases hjson : Batch.ofJson raw with
    | error e =>
      rw [hjson] at h
      exact congrArg Batch.Fault.message (Except.error.inj h).symm
    | ok batch =>
      rw [hjson] at h
      exact absurd h (by simp)

theorem message_of_offline {registry : Registry} {request : Request} {batch : Batch}
    (h : request.batch registry = .ok batch) :
    Store.Fault.offline.message =
      refusal (registry.resolve request.contentEncoding) request.body := by
  obtain ⟨raw, hdecode, hjson⟩ := batch_eq_ok_iff.mp h
  simp only [refusal, hdecode, hjson]

/-- A post to a dataset is answered by 200 if its codec decodes the body, the decoded body is a
batch and the store is online. Then the whole batch is taken in, and otherwise the post is refused
and leaves the store as it was. -/
theorem serve_post_contract (registry : Registry) {store : Store} (hstore : Reachable store)
    {request : Request} {d : String} (hmethod : request.method = "POST")
    (hdataset : request.dataset? = some d) :
    ((serve registry store request).response.status = 200 ↔
      ∃ raw batch, (registry.resolve request.contentEncoding).decode request.body = .ok raw ∧
        Batch.ofJson raw = .ok batch ∧ store.offline = false) ∧
    (∀ raw batch, (registry.resolve request.contentEncoding).decode request.body = .ok raw →
      Batch.ofJson raw = .ok batch → store.offline = false →
        TakenIn store d (registry.resolve request.contentEncoding) batch
          (serve registry store request)) ∧
    ((serve registry store request).response.status ≠ 200 →
      Refused store d request.contentEncoding
        (refusal (registry.resolve request.contentEncoding) request.body)
        (serve registry store request)) := by
  rw [serve_post hmethod hdataset]
  have hexists : (∃ raw batch,
      (registry.resolve request.contentEncoding).decode request.body = .ok raw ∧
        Batch.ofJson raw = .ok batch ∧ store.offline = false) ↔
      ∃ batch, request.batch registry = .ok batch ∧ store.offline = false := by
    simp only [batch_eq_ok_iff]
    constructor
    · rintro ⟨raw, batch, hdecode, hjson, honline⟩
      exact ⟨batch, ⟨raw, hdecode, hjson⟩, honline⟩
    · rintro ⟨batch, ⟨raw, hdecode, hjson⟩, honline⟩
      exact ⟨raw, batch, hdecode, hjson, honline⟩
  rw [hexists]
  cases hbatch : request.batch registry with
  | error fault =>
    rw [post_of_error hbatch, ← message_of_batch_error hbatch]
    refine ⟨iff_of_false failure_status (by simp), fun raw batch hdecode hjson ↦ ?_,
      fun _ ↦ refused_failure store d _ (.batch fault)⟩
    rw [batch_eq_ok_iff.mpr ⟨raw, hdecode, hjson⟩] at hbatch
    exact absurd hbatch (by simp)
  | ok found =>
    cases hoffline : store.offline with
    | true =>
      rw [post_of_offline hbatch hoffline, ← message_of_offline hbatch]
      exact ⟨iff_of_false failure_status (by simp), fun _ _ _ _ h ↦ absurd h (by simp),
        fun _ ↦ refused_failure store d _ (.store .offline)⟩
    | false =>
      rw [post_of_online hbatch hoffline]
      refine ⟨iff_of_true rfl ⟨found, rfl, rfl⟩, fun raw batch hdecode hjson _ ↦ ?_,
        fun h ↦ absurd rfl h⟩
      obtain rfl := Except.ok.inj (hbatch.symm.trans (batch_eq_ok_iff.mpr ⟨raw, hdecode, hjson⟩))
      exact takenIn_appended hstore.ascending hoffline d _ found

/-- A post of an empty batch to a dataset. -/
def emptyPost (name : String) : Request :=
  ⟨"POST", encode ("/1/batch/" ++ name).toList, [], encode "[]".toList⟩

theorem dataset?_emptyPost {name : String}
    (hsegment : (emptyPost name).segment? = some (encode name.toList))
    (hname : unescape (encode name.toList) = encode name.toList) :
    (emptyPost name).dataset? = some name := by
  rw [Request.dataset?, hsegment, Option.bind_some, segmentText?, hname,
    decode?_eq_some_iff.mpr rfl, Option.map_some, String.ofList_toList]

theorem ofJson_emptyPost (name : String) : Batch.ofJson (emptyPost name).body = .ok ⟨[]⟩ := by
  have hbody : encode "[]".toList = encode (Json.Blanks.none.chars ++
      (Json.Tree.list .none []).chars ++ Json.Blanks.none.chars) := by decide
  rw [emptyPost, hbody]
  exact Batch.ofJson_chars_iff.mpr ⟨by decide, .list .nil⟩

theorem batch_emptyPost (name : String) : (emptyPost name).batch .full = .ok ⟨[]⟩ :=
  batch_eq_ok_iff.mpr ⟨(emptyPost name).body, rfl, ofJson_emptyPost name⟩

theorem dataset?_web : (emptyPost "web").dataset? = some "web" :=
  dataset?_emptyPost (by decide) (by decide)

/-- A post of a text to a dataset. -/
def textPost (name text : String) : Request :=
  { emptyPost name with body := encode text.toList }

/-- A post of an object with its keys out of order, a number with an exponent and an escape in it,
and of a null. -/
def nestedPost : Request :=
  textPost "web" "[\x7b\"b\":[-2.50e+1],\"a\":\x7b\"t\":\"x\\n\"\x7d\x7d,null]"

/-- The events of that post. -/
def nestedEvents : List Event :=
  [.object [("a", .object [("t", .string "x\n")]),
    ("b", .list [.number ⟨true, ⟨2, []⟩, some ⟨5, [0]⟩, some ⟨false, ⟨1, []⟩⟩, by decide⟩])],
    .null]

theorem dataset?_nestedPost : nestedPost.dataset? = some "web" :=
  dataset?_web

theorem ofJson_nestedPost : Batch.ofJson nestedPost.body = .ok ⟨nestedEvents⟩ := by
  decide +kernel

theorem batch_nestedPost : nestedPost.batch .full = .ok ⟨nestedEvents⟩ :=
  batch_eq_ok_iff.mpr ⟨nestedPost.body, rfl, ofJson_nestedPost⟩

/-- A store that two datasets were posted to. -/
def twoDatasets : Store :=
  next .full (next .full .empty (.request (textPost "web" "[true]")))
    (.request (textPost "app" "[\"x\",[]]"))

/-- A batch of nested events is taken in by a store that holds its dataset and another one. -/
theorem takenIn_nestedPost :
    Reachable twoDatasets ∧ nestedPost.method = "POST" ∧ nestedPost.dataset? = some "web" ∧
      twoDatasets.datasets = [("app", [.string "x", .list []]), ("web", [.bool true])] ∧
        TakenIn twoDatasets "web" .identity ⟨nestedEvents⟩
          (serve .full twoDatasets nestedPost) := by
  have hstore : Reachable twoDatasets := .next _ _ (.next _ _ .empty)
  have hdatasets : twoDatasets = ⟨[("app", [.string "x", .list []]), ("web", [.bool true])],
      false⟩ := by
    decide +kernel
  have honline : twoDatasets.offline = false := by rw [hdatasets]
  exact ⟨hstore, rfl, dataset?_nestedPost, by rw [hdatasets],
    (serve_post_contract .full hstore rfl dataset?_nestedPost).2.1 nestedPost.body ⟨nestedEvents⟩
      rfl ofJson_nestedPost honline⟩

end Intake.Http
