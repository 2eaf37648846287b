import Intake.Proofs.Http.Ingestion

/-!
# Runs of a server

What a server holds after any number of steps is told by the posts that it answered by 200. Each of
them adds its events to its dataset (`datasets_next`), and no other step changes any dataset, so the
datasets are those that the accepted posts make one after the other (`datasets_run`). Whenever the
server is online, that is what it shows (`run_inspect`).
-/

set_option autoImplicit false
set_option relaxedAutoImplicit false

namespace Intake.Http

/-- The store behind a number of steps. -/
def run (registry : Registry) (store : Store) (steps : List Step) : Store :=
  steps.foldl (next registry) store

/-- A post to a batch path that is answered by 200. -/
def IsAccepted (registry : Registry) (store : Store) (request : Request) : Prop :=
  request.method = "POST" ∧ request.segment?.isSome ∧
    (serve registry store request).response.status = 200

instance (registry : Registry) (store : Store) (request : Request) :
    Decidable (IsAccepted registry store request) :=
  inferInstanceAs (Decidable (_ ∧ _ ∧ _))

/-- The posts that are accepted in the course of a number of steps. -/
def accepted (registry : Registry) (store : Store) : List Step → List Request
  | [] => []
  | .request request :: steps =>
    if IsAccepted registry store request then
      request :: accepted registry (next registry store (.request request)) steps
    else accepted registry (next registry store (.request request)) steps
  | .toggle :: steps => accepted registry (next registry store .toggle) steps

/-- Datasets that are made by posts. A name is there if it is that of a post, and what it names are
the events of all posts to it, in the order of the posts. -/
structure Collected (registry : Registry) (posts : List Request) (datasets : Datasets) : Prop where
  ascending : Ascending datasets
  names : ∀ name, name ∈ datasets.map Prod.fst ↔ ∃ post ∈ posts, post.dataset? = some name
  events : ∀ name events, (name, events) ∈ datasets →
    events = (posts.filter fun post ↦ post.dataset? = some name).flatMap (Request.events registry)

/-- A post whose path names a dataset and whose body is a batch. -/
def IsBatch (registry : Registry) (request : Request) : Prop :=
  ∃ d batch, request.dataset? = some d ∧ request.batch registry = .ok batch

/-- The datasets with the events of one more post. -/
def record (registry : Registry) (datasets : Datasets) (request : Request) : Datasets :=
  match request.dataset? with
  | some d => datasets.append d (request.events registry)
  | none => datasets

variable {registry : Registry} {store : Store}

/-! ### One step -/

theorem isBatch_of_isAccepted {request : Request} (h : IsAccepted registry store request) :
    IsBatch registry request := by
  obtain ⟨hmethod, hsegment, hstatus⟩ := h
  obtain ⟨d, batch, -, hdataset, hbatch, -⟩ | ⟨-, hrefused⟩ := serve_cases registry store request
  · exact ⟨d, batch, hdataset, hbatch⟩
  · exact absurd hstatus (hrefused hmethod hsegment)

/-- A request adds its events to its dataset if it is accepted, and otherwise it changes nothing. -/
theorem datasets_next (registry : Registry) (store : Store) (request : Request) :
    (next registry store (.request request)).datasets =
      if IsAccepted registry store request then record registry store.datasets request
      else store.datasets := by
  rw [next]
  obtain ⟨d, batch, hmethod, hdataset, hbatch, -, hserve⟩ | ⟨hstore, hrefused⟩ :=
    serve_cases registry store request
  · have hsegment : request.segment?.isSome := by
      rw [Request.dataset?] at hdataset
      obtain ⟨segment, hsegment, -⟩ := Option.bind_eq_some_iff.mp hdataset
      rw [hsegment]
      rfl
    have haccepted : IsAccepted registry store request := ⟨hmethod, hsegment, by rw [hserve]; rfl⟩
    have hevents : request.events registry = batch.events := by rw [Request.events, hbatch]
    rw [if_pos haccepted, hserve, record, hdataset, hevents]
    rfl
  · have hnot : ¬ IsAccepted registry store request := by
      rintro ⟨hmethod, hsegment, hstatus⟩
      exact hrefused hmethod hsegment hstatus
    rw [if_neg hnot, hstore]

theorem offline_next (registry : Registry) (store : Store) (request : Request) :
    (next registry store (.request request)).offline = store.offline := by
  rw [next]
  obtain ⟨d, batch, -, -, -, -, hserve⟩ | ⟨hstore, -⟩ := serve_cases registry store request
  · rw [hserve]
    rfl
  · rw [hstore]

/-! ### Any number of steps -/

theorem isBatch_of_mem_accepted {steps : List Step} {request : Request}
    (h : request ∈ accepted registry store steps) : IsBatch registry request := by
  induction steps generalizing store with
  | nil => simp [accepted] at h
  | cons step steps ih =>
    cases step with
    | toggle => exact ih h
    | request first =>
      rw [accepted] at h
      split_ifs at h with hfirst
      · rcases List.mem_cons.mp h with rfl | hmore
        · exact isBatch_of_isAccepted hfirst
        · exact ih hmore
      · exact ih h

/-- The datasets behind a number of steps are made by the posts that were accepted. -/
theorem datasets_run (registry : Registry) (store : Store) (steps : List Step) :
    (run registry store steps).datasets =
      (accepted registry store steps).foldl (record registry) store.datasets := by
  induction steps generalizing store with
  | nil => rfl
  | cons step steps ih =>
    rw [run, List.foldl_cons]
    show (run registry (next registry store step) steps).datasets = _
    rw [ih]
    cases step with
    | toggle => rfl
    | request request =>
      rw [accepted, datasets_next]
      split_ifs with hfirst
      · rfl
      · rfl

/-! ### What posts make -/

theorem ascending_record {datasets : Datasets} (h : Ascending datasets) (request : Request) :
    Ascending (record registry datasets request) := by
  unfold record
  split
  · rw [append_eq_alter]
    exact h.alter _ _
  · exact h

theorem ascending_records {datasets : Datasets} (h : Ascending datasets) (posts : List Request) :
    Ascending (posts.foldl (record registry) datasets) := by
  induction posts generalizing datasets with
  | nil => exact h
  | cons post posts ih => exact ih (ascending_record h post)

theorem lookup_record {datasets : Datasets} (h : Ascending datasets) (post : Request)
    (name : String) :
    List.lookup name (record registry datasets post) =
      if post.dataset? = some name then
        some ((List.lookup name datasets).getD [] ++ post.events registry)
      else List.lookup name datasets := by
  unfold record
  split
  · rename_i d hdataset
    rw [append_eq_alter, lookup_alter h, hdataset]
    by_cases hname : name = d
    · rw [if_pos hname, if_pos (congrArg some hname.symm), hname]
    · rw [if_neg hname, if_neg fun heq ↦ hname (Option.some_inj.mp heq).symm]
  · rename_i hdataset
    rw [hdataset, if_neg (by simp)]

/-- What is found under a name behind a number of posts. -/
theorem lookup_records {datasets : Datasets} (h : Ascending datasets) (posts : List Request)
    (name : String) :
    List.lookup name (posts.foldl (record registry) datasets) =
      if ∃ post ∈ posts, post.dataset? = some name then
        some ((List.lookup name datasets).getD [] ++
          (posts.filter fun post ↦ post.dataset? = some name).flatMap (Request.events registry))
      else List.lookup name datasets := by
  induction posts generalizing datasets with
  | nil => simp
  | cons post posts ih =>
    rw [List.foldl_cons, ih (ascending_record h post), lookup_record h post]
    by_cases hpost : post.dataset? = some name
    · by_cases hposts : ∃ post ∈ posts, post.dataset? = some name
      · rw [if_pos hposts, if_pos hpost, if_pos ⟨post, List.mem_cons_self, hpost⟩]
        simp [hpost]
      · rw [if_neg hposts, if_pos hpost, if_pos ⟨post, List.mem_cons_self, hpost⟩]
        have hnone : (posts.filter fun post ↦ post.dataset? = some name) = [] := by
          simpa using hposts
        simp [hpost, hnone]
    · have hiff : (∃ other ∈ post :: posts, other.dataset? = some name) ↔
          ∃ other ∈ posts, other.dataset? = some name := by
        simp [hpost]
      simp only [if_neg hpost, hiff]
      simp [hpost]

/-- Posts make the datasets that they are told to make, from none. -/
theorem collected_records (registry : Registry) (posts : List Request) :
    Collected registry posts (posts.foldl (record registry) []) where
  ascending := ascending_records .nil posts
  names name := by
    rw [(ascending_records .nil posts).mem_keys_iff, lookup_records .nil]
    split_ifs with hname
    · exact iff_of_true rfl hname
    · exact iff_of_false (by simp) hname
  events name events h := by
    rw [(ascending_records .nil posts).mem_iff, lookup_records .nil] at h
    split_ifs at h with hname
    · exact (Option.some_inj.mp h).symm
    · exact absurd h (by simp)

/-- At most one list of datasets is made by the same posts. -/
theorem Collected.unique {posts : List Request} {datasets others : Datasets}
    (h : Collected registry posts datasets) (hothers : Collected registry posts others) :
    datasets = others := by
  refine h.ascending.ext hothers.ascending fun name ↦ ?_
  have hkeys : (datasets.lookup name).isSome ↔ (others.lookup name).isSome := by
    rw [← h.ascending.mem_keys_iff, ← hothers.ascending.mem_keys_iff, h.names, hothers.names]
  cases hfirst : datasets.lookup name with
  | none =>
    cases hsecond : others.lookup name with
    | none => rfl
    | some events =>
      rw [hfirst, hsecond] at hkeys
      exact absurd (hkeys.mpr rfl) (by simp)
  | some events =>
    cases hsecond : others.lookup name with
    | none =>
      rw [hfirst, hsecond] at hkeys
      exact absurd (hkeys.mp rfl) (by simp)
    | some events' =>
      rw [h.events name events (h.ascending.mem_iff.mpr hfirst),
        hothers.events name events' (hothers.ascending.mem_iff.mpr hsecond)]

/-! ### What a server shows -/

theorem collected_run (registry : Registry) (steps : List Step) :
    Collected registry (accepted registry .empty steps) (run registry .empty steps).datasets := by
  rw [datasets_run]
  exact collected_records registry _

theorem serve_root {request : Request} (hmethod : request.method = "GET")
    (hpath : request.path = ['/'.toUInt8]) (honline : store.offline = false) :
    serve registry store request = ⟨.json store.datasets.toJson, store, []⟩ := by
  have hroute : Route.ofPath? request.path = some .root := by
    rw [hpath]
    rfl
  simp only [serve, hroute, dispatch, if_pos hmethod, inspect, Store.listAll, Store.snapshot,
    honline]
  rfl

/-- Whenever a server is online, it shows the datasets that are made by the posts it has answered by
200, and nothing else. -/
theorem run_inspect (registry : Registry) (steps : List Step)
    (honline : (run registry .empty steps).offline = false) :
    ∃ datasets, Collected registry (accepted registry .empty steps) datasets ∧
      (run registry .empty steps).snapshot = .ok datasets ∧
      (run registry .empty steps).listAll = .ok datasets ∧
      ∀ request : Request, request.method = "GET" → request.path = ['/'.toUInt8] →
        (serve registry (run registry .empty steps) request).response.status = 200 ∧
          (serve registry (run registry .empty steps) request).response.body =
            datasets.toJson.bytes := by
  have hsnapshot : (run registry .empty steps).snapshot =
      .ok (run registry .empty steps).datasets := by
    simp [Store.snapshot, honline]
  refine ⟨(run registry .empty steps).datasets, collected_run registry steps, hsnapshot,
    hsnapshot, fun request hmethod hpath ↦ ?_⟩
  rw [serve_root hmethod hpath honline]
  exact ⟨rfl, rfl⟩

/-- A request for all datasets. -/
def rootRequest : Request :=
  ⟨"GET", Utf8.encode "/".toList, [], []⟩

/-- Two posts to a dataset, and one between them that comes while the server is offline. -/
def postedTwice : List Step :=
  [.request nestedPost, .toggle, .request (textPost "web" "[false]"), .toggle,
    .request (textPost "web" "[1]")]

/-- What is shown are the events of both posts that were accepted, one behind the other. -/
theorem run_inspect_postedTwice :
    (run .full .empty postedTwice).offline = false ∧
      ∃ datasets, Collected .full (accepted .full .empty postedTwice) datasets ∧
        (run .full .empty postedTwice).listAll = .ok datasets ∧
        datasets = [("web", nestedEvents ++ [.number (.ofNat 1)])] ∧
        (serve .full (run .full .empty postedTwice) rootRequest).response.status = 200 ∧
        (serve .full (run .full .empty postedTwice) rootRequest).response.body = Utf8.encode
          ("\x7b\"web\":[\x7b\"a\":\x7b\"t\":\"x\\n\"\x7d," ++
            "\"b\":[-2.50e+1]\x7d,null,1]\x7d").toList := by
  have hstore : run .full .empty postedTwice =
      ⟨[("web", nestedEvents ++ [.number (.ofNat 1)])], false⟩ := by
    decide +kernel
  have honline : (run .full .empty postedTwice).offline = false := by rw [hstore]
  obtain ⟨datasets, hcollected, hsnapshot, hlist, hshown⟩ := run_inspect .full postedTwice honline
  obtain ⟨hstatus, hbody⟩ := hshown rootRequest rfl (by decide)
  have hdatasets : datasets = [("web", nestedEvents ++ [.number (.ofNat 1)])] := by
    rw [hstore] at hsnapshot
    exact (Except.ok.inj hsnapshot).symm
  refine ⟨honline, datasets, hcollected, hlist, hdatasets, hstatus, ?_⟩
  rw [hbody, hdatasets]
  decide +kernel

end Intake.Http
