import Intake.Proofs.Http.ReadBack
import Intake.Proofs.Json.Verbatim

/-!
# What an online server shows

No post can spoil what is shown afterwards. Events are values that reading may give, whatever body,
coding and dataset they came with, and they are still that when others are put behind them
(`readable_next`). So what is shown is a text of the grammar that denotes the datasets and nothing
else, word for word (`shown_writes`). Unlike for reading it back, nothing has to be asked of the
posts.
-/

set_option autoImplicit false
set_option relaxedAutoImplicit false

namespace Intake.Http

open Utf8 Json

/-- All events are values that reading may give. -/
def ReadableEvents (datasets : Datasets) : Prop :=
  ∀ entry ∈ datasets, ∀ event ∈ entry.2, event.Readable

variable {store : Store}

theorem readableEvents_cons_iff {entry : String × List Event} {datasets : Datasets} :
    ReadableEvents (entry :: datasets) ↔
      (∀ event ∈ entry.2, event.Readable) ∧ ReadableEvents datasets :=
  List.forall_mem_cons

theorem readableEvents_append {datasets : Datasets} {events : List Event}
    (h : ReadableEvents datasets) (hevents : ∀ event ∈ events, event.Readable) (name : String) :
    ReadableEvents (datasets.append name events) := by
  induction datasets with
  | nil => exact List.forall_mem_singleton.mpr hevents
  | cons entry datasets ih =>
    obtain ⟨other, stored⟩ := entry
    obtain ⟨hstored, hrest⟩ := readableEvents_cons_iff.mp h
    rw [Datasets.append]
    split_ifs with hlt heq
    · exact readableEvents_cons_iff.mpr ⟨hevents, h⟩
    · exact readableEvents_cons_iff.mpr ⟨List.forall_mem_append.mpr ⟨hstored, hevents⟩, hrest⟩
    · exact readableEvents_cons_iff.mpr ⟨hstored, ih hrest⟩

/-- A step adds no events but those of a body that was decoded. -/
theorem readable_next (h : ReadableEvents store.datasets) (registry : Registry) (step : Step) :
    ReadableEvents (next registry store step).datasets := by
  cases step with
  | toggle => exact h
  | request request =>
    obtain ⟨d, batch, -, -, hbatch, -, hserve⟩ | ⟨hstore, -⟩ := serve_cases registry store request
    · rw [next, hserve]
      cases Batch.readable_of_decode hbatch with
      | list hitems => exact readableEvents_append h (Value.itemsReadable_iff.mp hitems) d
    · rw [next, hstore]
      exact h

theorem Reachable.readableEvents (h : Reachable store) : ReadableEvents store.datasets := by
  induction h with
  | empty => exact nofun
  | next registry step _ ih => exact readable_next ih registry step

/-- What an online server shows is the text of a tree, and the tree is the map of its datasets word
for word: numbers are literals of the grammar, names and strings are read back as they are, and the
names and the keys of every object ascend. Under the plain reading of JSON, the text denotes that
map and nothing else. -/
theorem shown_writes (hstore : Reachable store) (honline : store.offline = false)
    (registry : Registry) {request : Request} (hmethod : request.method = "GET")
    (hpath : request.path = ['/'.toUInt8]) :
    (∃ t : Tree, decode? (serve registry store request).response.body = some t.chars ∧
      Writes t store.datasets.toJson) ∧
    ∀ v, Denotes (serve registry store request).response.body v ↔ v = store.datasets.toJson := by
  have hread := readable_toJson hstore.ascending hstore.readableEvents
  have hbody : (serve registry store request).response.body = store.datasets.toJson.bytes := by
    rw [serve_root hmethod hpath honline]
    rfl
  rw [hbody]
  refine ⟨⟨Tree.ofValue store.datasets.toJson, ?_, writes_ofValue hread⟩, fun v ↦ ?_⟩
  · exact decode?_eq_some_iff.mpr (bytes_eq _)
  · exact denotes_bytes_iff hread

/-- Behind a post of nested events, what is shown denotes them: the number with the digits and the
exponent that were posted, the string with its line feed, and the keys in ascending order. -/
theorem shown_nestedPost :
    Reachable (next .full .empty (.request nestedPost)) ∧
      (next .full .empty (.request nestedPost)).offline = false ∧
        (∃ t : Tree, decode? (serve .full (next .full .empty (.request nestedPost))
            rootRequest).response.body = some t.chars ∧
          Writes t (.object [("web", .list nestedEvents)])) ∧
          Denotes (serve .full (next .full .empty (.request nestedPost))
            rootRequest).response.body (.object [("web", .list nestedEvents)]) := by
  have hstore : Reachable (next .full .empty (.request nestedPost)) := .next _ _ .empty
  have honline : (next .full .empty (.request nestedPost)).offline = false :=
    offline_next .full .empty nestedPost
  have hdatasets :
      (next .full .empty (.request nestedPost)).datasets = [("web", nestedEvents)] := by
    rw [next, serve_post rfl dataset?_nestedPost, post_of_online batch_nestedPost rfl]
    rfl
  obtain ⟨hwritten, hdenotes⟩ := @shown_writes _ hstore honline .full rootRequest rfl (by decide)
  rw [hdatasets] at hwritten hdenotes
  exact ⟨hstore, honline, hwritten, (hdenotes _).mpr rfl⟩

end Intake.Http
