import Intake.Http.Server
import Intake.Proofs.Ascending

/-!
# Steps of a server

A store changes when a request is served and when it is taken offline or back online. What a request
does is said once, by cases: it is a post that is taken in, or it leaves the store as it is and is
not a post that is answered as one (`serve_cases`). The names of the datasets ascend in every store
that can be reached (`Reachable.ascending`).
-/

set_option autoImplicit false
set_option relaxedAutoImplicit false

namespace Intake.Http

/-! ### Requests -/

namespace Request

/-- The segment of a request to a batch path, as it is written. -/
def segment? (request : Request) : Option Bytes :=
  match Route.ofPath? request.path with
  | some (.batch segment) => some segment
  | _ => none

/-- The dataset that a batch path names, if its segment is text. -/
def dataset? (request : Request) : Option String :=
  request.segment?.bind segmentText?

/-- What the body of a request is as a batch. -/
def batch (registry : Registry) (request : Request) : Except Batch.Fault Batch :=
  Batch.decode (registry.resolve request.contentEncoding) request.body

/-- The events in the body of a request, if it is a batch. -/
def events (registry : Registry) (request : Request) : List Event :=
  match request.batch registry with
  | .ok batch => batch.events
  | .error _ => []

end Request

variable {registry : Registry} {store : Store} {request : Request} {dataset : String}

/-! ### Posts -/

theorem post_of_error {fault : Batch.Fault} (hbatch : request.batch registry = .error fault) :
    post registry store dataset request =
      ⟨.failure, store, [.rejected dataset request.contentEncoding (.batch fault)]⟩ := by
  rw [Request.batch] at hbatch
  simp only [post, Ingest.ingest, hbatch]

theorem post_of_offline {batch : Batch} (hbatch : request.batch registry = .ok batch)
    (hoffline : store.offline = true) :
    post registry store dataset request =
      ⟨.failure, store, [.rejected dataset request.contentEncoding (.store .offline)]⟩ := by
  rw [Request.batch] at hbatch
  simp only [post, Ingest.ingest, hbatch, Store.append, hoffline, if_true]

/-- The store with the events of a batch behind those of a dataset. -/
def appended (store : Store) (dataset : String) (batch : Batch) : Store :=
  { store with datasets := store.datasets.append dataset batch.events }

theorem post_of_online {batch : Batch} (hbatch : request.batch registry = .ok batch)
    (honline : store.offline = false) :
    post registry store dataset request =
      ⟨.json (Ack.listToJson batch.acks), appended store dataset batch,
        [.accepted dataset (registry.resolve request.contentEncoding) batch.events.length]⟩ := by
  rw [Request.batch] at hbatch
  simp [post, Ingest.ingest, hbatch, Store.append, honline, Log.Entry.ofAccepted, Batch.acks,
    appended]

theorem serve_post {d : String} (hmethod : request.method = "POST")
    (hdataset : request.dataset? = some d) :
    serve registry store request = post registry store d request := by
  unfold Request.dataset? Request.segment? at hdataset
  unfold serve
  split at hdataset
  · rename_i segment hroute
    have hsegment : segmentText? segment = some d := hdataset
    rw [hroute]
    simp only [dispatch, if_pos hmethod, hsegment]
  · simp at hdataset

/-! ### All requests -/

theorem inspect_store (store : Store) : (inspect store).store = store := by
  unfold inspect
  split
  · rfl
  · rfl

theorem failure_status : Response.failure.status ≠ 200 := by decide

theorem badSegment_status : Response.badSegment.status ≠ 200 := by decide

/-- A request that is no post to a dataset leaves the store as it is, and it is not answered as a
post that is taken in. -/
theorem serve_of_not_post (registry : Registry) (store : Store) {request : Request}
    (h : ∀ d, request.dataset? = some d → request.method ≠ "POST") :
    (serve registry store request).store = store ∧
      (request.method = "POST" → request.segment?.isSome →
        (serve registry store request).response.status ≠ 200) := by
  unfold serve Request.segment?
  unfold Request.dataset? Request.segment? at h
  cases hroute : Route.ofPath? request.path with
  | none => exact ⟨rfl, fun _ hsegment ↦ absurd hsegment (by simp)⟩
  | some route =>
    cases route with
    | root =>
      refine ⟨?_, fun _ hsegment ↦ absurd hsegment (by simp)⟩
      dsimp only [dispatch]
      split_ifs
      · exact inspect_store store
      · exact inspect_store store
      · rfl
    | batch segment =>
      rw [hroute] at h
      dsimp only [dispatch]
      by_cases hmethod : request.method = "POST"
      · rw [if_pos hmethod]
        cases hsegment : segmentText? segment with
        | some d => exact absurd hmethod (h d hsegment)
        | none => exact ⟨rfl, fun _ _ ↦ badSegment_status⟩
      · rw [if_neg hmethod]
        exact ⟨rfl, fun hpost ↦ absurd hpost hmethod⟩

/-- What a request may bring about. It is a post to a dataset whose body is a batch, and the store
is online, or the store stays as it is. In the second case no post to a batch path is answered by
200. -/
theorem serve_cases (registry : Registry) (store : Store) (request : Request) :
    (∃ d batch, request.method = "POST" ∧ request.dataset? = some d ∧
      request.batch registry = .ok batch ∧ store.offline = false ∧
        serve registry store request =
          ⟨.json (Ack.listToJson batch.acks), appended store d batch,
            [.accepted d (registry.resolve request.contentEncoding) batch.events.length]⟩) ∨
      (serve registry store request).store = store ∧
        (request.method = "POST" → request.segment?.isSome →
          (serve registry store request).response.status ≠ 200) := by
  by_cases hpost : ∃ d, request.dataset? = some d ∧ request.method = "POST"
  · obtain ⟨d, hdataset, hmethod⟩ := hpost
    rw [serve_post hmethod hdataset]
    cases hbatch : request.batch registry with
    | error fault =>
      rw [post_of_error hbatch]
      exact Or.inr ⟨rfl, fun _ _ ↦ failure_status⟩
    | ok batch =>
      cases hoffline : store.offline with
      | true =>
        rw [post_of_offline hbatch hoffline]
        exact Or.inr ⟨rfl, fun _ _ ↦ failure_status⟩
      | false =>
        exact Or.inl ⟨d, batch, hmethod, hdataset, rfl, rfl, post_of_online hbatch hoffline⟩
  · exact Or.inr (serve_of_not_post registry store fun d hdataset hmethod ↦
      hpost ⟨d, hdataset, hmethod⟩)

/-! ### Steps -/

/-- Something that happens to a server. -/
inductive Step
  | request (request : Request)
  | toggle

/-- The store behind a step. -/
def next (registry : Registry) (store : Store) : Step → Store
  | .request request => (serve registry store request).store
  | .toggle => store.toggle

/-- A store that requests and toggles lead to from the empty one. -/
inductive Reachable : Store → Prop
  | empty : Reachable .empty
  | next {store : Store} (registry : Registry) (step : Step) (h : Reachable store) :
    Reachable (next registry store step)

theorem ascending_appended (h : Ascending store.datasets) (d : String) (batch : Batch) :
    Ascending (appended store d batch).datasets := by
  rw [appended, append_eq_alter]
  exact h.alter d _

theorem ascending_next (h : Ascending store.datasets) (registry : Registry) (step : Step) :
    Ascending (next registry store step).datasets := by
  cases step with
  | toggle => exact h
  | request request =>
    obtain ⟨d, batch, -, -, -, -, hserve⟩ | ⟨hstore, -⟩ := serve_cases registry store request
    · rw [next, hserve]
      exact ascending_appended h d batch
    · rw [next, hstore]
      exact h

theorem Reachable.ascending (h : Reachable store) : Ascending store.datasets := by
  induction h with
  | empty => exact Ascending.nil
  | next registry step _ ih => exact ascending_next ih registry step

/-- Appending to a dataset changes what that dataset holds, and nothing else. -/
theorem events?_appended (h : Ascending store.datasets) (d : String) (batch : Batch)
    (name : String) :
    (appended store d batch).datasets.events? name =
      if name = d then some ((store.datasets.events? d).getD [] ++ batch.events)
      else store.datasets.events? name := by
  rw [appended, append_eq_alter]
  exact lookup_alter h d _ name

end Intake.Http
