import Intake.Proofs.Http.Run

/-!
# Reading back what a server shows

What a server shows is not always a document of the language that it takes batches in. It is one if
the posts that were accepted are `Restorable`: events are shown one level deeper than they were
posted, and members and datasets are shown in the order of their keys, which may bring a key to the
front that is set apart. Where it is a document, it is read as what the posts were
(`document_shown_iff`).
-/

set_option autoImplicit false
set_option relaxedAutoImplicit false

namespace Intake.Http

open Json

/-- What posts have to be like for their datasets to be read back. -/
structure Restorable (registry : Registry) (posts : List Request) : Prop where
  depth : ∀ post ∈ posts, ∀ event ∈ post.events registry, event.depth ≤ 125
  plain : ∀ post ∈ posts, ∀ event ∈ post.events registry, event.Plain
  first : ∀ post ∈ posts, ∀ d, post.dataset? = some d →
    (∀ other ∈ posts, ∀ e, other.dataset? = some e → d ≤ e) → ¬ SetApart d

variable {registry : Registry} {posts : List Request} {datasets : Datasets}

/-! ### Events of posts -/

theorem readable_event {post : Request} (hpost : IsBatch registry post) {event : Event}
    (hevent : event ∈ post.events registry) : event.Readable := by
  obtain ⟨d, batch, -, hbatch⟩ := hpost
  rw [Request.events, hbatch] at hevent
  cases Batch.readable_of_decode hbatch with
  | list hitems => exact Value.itemsReadable_iff.mp hitems event hevent

/-- What the datasets hold are the events of the posts. -/
theorem Collected.forall_events_iff (h : Collected registry posts datasets)
    (hposts : ∀ post ∈ posts, IsBatch registry post) {p : Event → Prop} :
    (∀ entry ∈ datasets, ∀ event ∈ entry.2, p event) ↔
      ∀ post ∈ posts, ∀ event ∈ post.events registry, p event := by
  constructor
  · intro hall post hpost event hevent
    obtain ⟨d, batch, hdataset, -⟩ := hposts post hpost
    obtain ⟨entry, hentry, rfl⟩ := List.mem_map.mp ((h.names d).mpr ⟨post, hpost, hdataset⟩)
    refine hall entry hentry event ?_
    rw [h.events entry.1 entry.2 hentry]
    exact List.mem_flatMap.mpr ⟨post, List.mem_filter.mpr ⟨hpost, by simp [hdataset]⟩, hevent⟩
  · intro hall entry hentry event hevent
    rw [h.events entry.1 entry.2 hentry] at hevent
    obtain ⟨post, hpost, hmem⟩ := List.mem_flatMap.mp hevent
    exact hall post (List.mem_filter.mp hpost).1 event hmem

/-- The dataset in front is the one with the least name. -/
theorem Collected.forall_head_iff (h : Collected registry posts datasets) {p : String → Prop} :
    (∀ entry ∈ datasets.head?, p entry.1) ↔ ∀ post ∈ posts, ∀ d, post.dataset? = some d →
      (∀ other ∈ posts, ∀ e, other.dataset? = some e → d ≤ e) → p d := by
  have hname : ∀ d, (∃ post ∈ posts, post.dataset? = some d) ↔ ∃ entry ∈ datasets, entry.1 = d :=
    fun d ↦ by rw [← h.names, List.mem_map]
  constructor
  · intro hhead post hpost d hdataset hleast
    obtain ⟨entry, hentry, rfl⟩ := (hname d).mp ⟨post, hpost, hdataset⟩
    cases hfirst : datasets.head? with
    | none =>
      rw [List.head?_eq_none_iff.mp hfirst] at hentry
      exact absurd hentry List.not_mem_nil
    | some first =>
      obtain ⟨other, hother, hother'⟩ :=
        (hname first.1).mpr ⟨first, List.mem_of_mem_head? hfirst, rfl⟩
      have hsame : entry.1 = first.1 :=
        le_antisymm (hleast other hother first.1 hother') (h.ascending.head_le hfirst hentry)
      rw [hsame]
      exact hhead first hfirst
  · intro hall first hfirst
    obtain ⟨post, hpost, hdataset⟩ :=
      (hname first.1).mpr ⟨first, List.mem_of_mem_head? hfirst, rfl⟩
    apply hall post hpost first.1 hdataset
    intro other hother e he
    obtain ⟨entry, hentry, rfl⟩ := (hname e).mp ⟨other, hother, he⟩
    exact h.ascending.head_le hfirst hentry

/-! ### The map of datasets as a value -/

theorem toJson_depth_le_iff :
    datasets.toJson.depth ≤ depthLimit ↔
      ∀ entry ∈ datasets, ∀ event ∈ entry.2, event.depth ≤ 125 := by
  have hlist : ∀ events : List Event,
      (Value.list events).depth ≤ 126 ↔ ∀ event ∈ events, event.depth ≤ 125 := fun events ↦ by
    rw [Value.depth, ← Value.itemsDepth_le_iff]
    exact Nat.add_le_add_iff_right
  rw [Datasets.toJson, Value.depth, depthLimit]
  rw [show (127 : Nat) = 126 + 1 from rfl, Nat.add_le_add_iff_right, Value.membersDepth_le_iff,
    List.forall_mem_map]
  simp only [hlist]

theorem toJson_plain_iff :
    datasets.toJson.Plain ↔ (∀ entry ∈ datasets.head?, ¬ SetApart entry.1) ∧
      ∀ entry ∈ datasets, ∀ event ∈ entry.2, event.Plain := by
  rw [Datasets.toJson, Value.plain_object_iff, List.forall_mem_map]
  simp only [Value.Plain, Value.itemsPlain_iff]
  cases datasets with
  | nil => simp
  | cons entry datasets => simp

theorem readable_toJson (hascending : Ascending datasets)
    (hevents : ∀ entry ∈ datasets, ∀ event ∈ entry.2, event.Readable) :
    datasets.toJson.Readable := by
  refine .object ?_ ?_ ?_
  · exact List.pairwise_map.mpr hascending
  · intro key text hsole
    obtain ⟨entry, hentry, heq⟩ := List.mem_map.mp
      (hsole ▸ List.mem_singleton_self (key, Value.string text))
    exact absurd (Prod.mk.inj heq).2 (by simp)
  · rw [Value.membersReadable_iff, List.forall_mem_map]
    exact fun entry hentry ↦ .list (Value.itemsReadable_iff.mpr (hevents entry hentry))

/-- What an online server shows is read as the datasets that are made by the posts it has accepted
if these are restorable, and otherwise it is not read at all. -/
theorem document_shown_iff (registry : Registry) (steps : List Step)
    (honline : (run registry .empty steps).offline = false) :
    ∃ datasets, Collected registry (accepted registry .empty steps) datasets ∧
      ∀ request : Request, request.method = "GET" → request.path = ['/'.toUInt8] → ∀ v,
        document (serve registry (run registry .empty steps) request).response.body = .ok v ↔
          v = datasets.toJson ∧ Restorable registry (accepted registry .empty steps) := by
  have hcollected := collected_run registry steps
  have hbatches : ∀ post ∈ accepted registry .empty steps, IsBatch registry post :=
    fun post hpost ↦ isBatch_of_mem_accepted hpost
  have hreadable := readable_toJson hcollected.ascending
    ((hcollected.forall_events_iff hbatches).mpr fun post hpost event hevent ↦
      readable_event (hbatches post hpost) hevent)
  have hfirst := @Collected.forall_head_iff _ _ _ hcollected fun d ↦ ¬ SetApart d
  refine ⟨_, hcollected, fun request hmethod hpath v ↦ ?_⟩
  rw [serve_root hmethod hpath honline]
  show document (Datasets.toJson _).bytes = .ok v ↔ _
  rw [document_bytes_iff hreadable, toJson_depth_le_iff, toJson_plain_iff,
    hcollected.forall_events_iff hbatches, hcollected.forall_events_iff hbatches, hfirst]
  constructor
  · rintro ⟨hdepth, ⟨hleast, hplain⟩, rfl⟩
    exact ⟨rfl, hdepth, hplain, hleast⟩
  · rintro ⟨rfl, hdepth, hplain, hleast⟩
    exact ⟨hdepth, ⟨hleast, hplain⟩, rfl⟩

/-- Nested events that are posted to two datasets, to one of them twice. -/
def nestedPosts : List Step :=
  [.request nestedPost, .request (textPost "app" "[\"x\",[[]]]"), .request nestedPost]

/-- The datasets behind those posts. -/
def nestedDatasets : Datasets :=
  [("app", [.string "x", .list [.list []]]), ("web", nestedEvents ++ nestedEvents)]

theorem run_nestedPosts : run .full .empty nestedPosts = ⟨nestedDatasets, false⟩ := by
  decide +kernel

theorem collected_nestedPosts :
    Collected .full (accepted .full .empty nestedPosts) nestedDatasets := by
  have hcollected := collected_run .full nestedPosts
  rwa [run_nestedPosts] at hcollected

theorem restorable_nestedPosts : Restorable .full (accepted .full .empty nestedPosts) where
  depth := by decide +kernel
  plain := (collected_nestedPosts.forall_events_iff fun _ ↦ isBatch_of_mem_accepted).mp
    (by simp [nestedDatasets, nestedEvents, Value.Plain, Value.ItemsPlain, Value.MembersPlain,
      SetApart, numberKey, textKey])
  first := collected_nestedPosts.forall_head_iff.mp (by decide)

/-- Nested events are read back from what is shown, in the order in which they were posted. -/
theorem document_shown_nestedPosts :
    (run .full .empty nestedPosts).offline = false ∧
      Restorable .full (accepted .full .empty nestedPosts) ∧
      Collected .full (accepted .full .empty nestedPosts) nestedDatasets ∧
      document (serve .full (run .full .empty nestedPosts) rootRequest).response.body =
        .ok nestedDatasets.toJson := by
  have honline : (run .full .empty nestedPosts).offline = false := by rw [run_nestedPosts]
  obtain ⟨datasets, hcollected, hshown⟩ := document_shown_iff .full nestedPosts honline
  obtain rfl : datasets = nestedDatasets := hcollected.unique collected_nestedPosts
  exact ⟨honline, restorable_nestedPosts, hcollected,
    (hshown rootRequest rfl (by decide) _).mpr ⟨rfl, restorable_nestedPosts⟩⟩

/-- A dataset may have the name of a key that is set apart. A post to it is accepted, but what is
shown behind it is not read back. -/
theorem document_shown_number :
    (serve .full .empty (emptyPost "$serde_json::private::Number")).response.status = 200 ∧
      ∀ v, document (serve .full
        (run .full .empty [.request (emptyPost "$serde_json::private::Number")])
          rootRequest).response.body ≠ .ok v := by
  have hdataset : (emptyPost "$serde_json::private::Number").dataset? = some numberKey :=
    dataset?_emptyPost (by decide) (by decide)
  have hbatch := batch_emptyPost "$serde_json::private::Number"
  have hrun : run .full .empty [.request (emptyPost "$serde_json::private::Number")] =
      appended .empty numberKey ⟨[]⟩ := by
    show (serve .full .empty (emptyPost "$serde_json::private::Number")).store = _
    rw [serve_post rfl hdataset, post_of_online hbatch rfl]
  have hreadable : (Datasets.toJson [(numberKey, [])]).Readable :=
    readable_toJson (List.pairwise_singleton _ _) (by simp)
  constructor
  · rw [serve_post rfl hdataset, post_of_online hbatch rfl]
    rfl
  · intro v h
    rw [hrun, serve_root rfl (by decide) rfl] at h
    obtain ⟨-, hplain, -⟩ := (document_bytes_iff hreadable).mp h
    exact (toJson_plain_iff.mp hplain).1 (numberKey, []) rfl (Or.inl rfl)

end Intake.Http
