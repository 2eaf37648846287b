import Intake.Proofs.Http.Run

/-!
# Posts of several clients

Several clients post to a server, each in an order of its own, and the server serves one post at a
time. A post that is accepted by one store is accepted by every store that is online, with the same
response (`response_congr`), so no client learns from its responses what the others have posted.
What a dataset holds is told by the posts to that dataset alone (`records_congr`). Two orders in
which the posts may come therefore show the same datasets if they agree for each dataset, and no
order tears a batch apart (`interleavings_agree`).
-/

set_option autoImplicit false
set_option relaxedAutoImplicit false

namespace Intake.Http

/-! ### Traces -/

/-- The requests of a number of clients, in an order in which those of each client keep theirs. -/
def Interleaves {ι : Type} [DecidableEq ι] (clients : ι → List Request)
    (trace : List (ι × Request)) : Prop :=
  ∀ client, (trace.filter fun sent ↦ sent.1 = client).map Prod.snd = clients client

/-- No dataset is posted to by two clients. Different paths may lead to the same dataset. -/
def ApartInDatasets {ι : Type} (clients : ι → List Request) : Prop :=
  ∀ client other, client ≠ other → ∀ request ∈ clients client, ∀ d, request.dataset? = some d →
    ∀ another ∈ clients other, another.dataset? ≠ some d

section

variable {ι : Type}

/-- The store behind the requests of a trace. -/
def behind (registry : Registry) (store : Store) (trace : List (ι × Request)) : Store :=
  run registry store (trace.map fun sent ↦ .request sent.2)

/-- The responses to the requests of a trace, each with the client that it goes to. -/
def responses (registry : Registry) (store : Store) :
    List (ι × Request) → List (ι × Response)
  | [] => []
  | (client, request) :: trace =>
    (client, (serve registry store request).response) ::
      responses registry (next registry store (.request request)) trace

/-- The requests of a trace that go to a dataset. -/
def requestsTo (d : String) (trace : List (ι × Request)) : List Request :=
  (trace.map Prod.snd).filter fun request ↦ request.dataset? = some d

end

/-! ### One post -/

variable {registry : Registry} {store other : Store} {request : Request}

/-- The response to a post depends on the store only in whether it is online. -/
theorem response_congr (registry : Registry) (hoffline : store.offline = other.offline)
    (hmethod : request.method = "POST") :
    (serve registry store request).response = (serve registry other request).response := by
  cases hdataset : request.dataset? with
  | some d =>
    rw [serve_post hmethod hdataset, serve_post hmethod hdataset]
    cases hbatch : request.batch registry with
    | error fault => rw [post_of_error hbatch, post_of_error hbatch]
    | ok batch =>
      cases honline : other.offline with
      | true =>
        rw [post_of_offline hbatch honline, post_of_offline hbatch (hoffline.trans honline)]
      | false =>
        rw [post_of_online hbatch honline, post_of_online hbatch (hoffline.trans honline)]
  | none =>
    rw [Request.dataset?, Request.segment?] at hdataset
    rw [serve, serve]
    cases hroute : Route.ofPath? request.path with
    | none => rfl
    | some route =>
      cases route with
      | root => simp [dispatch, hmethod]
      | batch segment =>
        rw [hroute] at hdataset
        have hsegment : segmentText? segment = none := hdataset
        simp [dispatch, hmethod, hsegment]

theorem isAccepted_congr (registry : Registry) (hoffline : store.offline = other.offline) :
    IsAccepted registry store request ↔ IsAccepted registry other request := by
  unfold IsAccepted
  refine and_congr_right fun hmethod ↦ ?_
  rw [response_congr registry hoffline hmethod]

/-- A post that is answered by 200 goes to a batch path. -/
theorem isAccepted_of_status (hmethod : request.method = "POST")
    (hstatus : (serve registry store request).response.status = 200) :
    IsAccepted registry store request := by
  refine ⟨hmethod, ?_, hstatus⟩
  unfold Request.segment?
  rw [serve] at hstatus
  cases hroute : Route.ofPath? request.path with
  | none =>
    rw [hroute] at hstatus
    simp [Response.notFound] at hstatus
  | some route =>
    cases route with
    | root =>
      rw [hroute] at hstatus
      simp [dispatch, hmethod, Response.notAllowed] at hstatus
    | batch segment => rfl

/-! ### Any number of posts -/

theorem offline_requests (registry : Registry) (store : Store) (requests : List Request) :
    (run registry store (requests.map .request)).offline = store.offline := by
  induction requests generalizing store with
  | nil => rfl
  | cons request requests ih => exact (ih _).trans (offline_next registry store request)

/-- Which posts are accepted does not depend on what is posted before them. -/
theorem accepted_requests (hoffline : store.offline = other.offline) (requests : List Request) :
    accepted registry store (requests.map .request) =
      requests.filter fun request ↦ IsAccepted registry other request := by
  induction requests generalizing store with
  | nil => rfl
  | cons request requests ih =>
    have hnext := ih ((offline_next registry store request).trans hoffline)
    rw [List.map_cons, accepted, hnext, List.filter_cons]
    simp only [isAccepted_congr registry hoffline, decide_eq_true_eq]

/-- Posts make the same datasets if for each dataset they make the same list. -/
theorem records_congr {datasets : Datasets} (h : Ascending datasets) {posts others : List Request}
    (hsame : ∀ d, (posts.filter fun post ↦ post.dataset? = some d) =
      others.filter fun post ↦ post.dataset? = some d) :
    posts.foldl (record registry) datasets = others.foldl (record registry) datasets := by
  refine (ascending_records h posts).ext (ascending_records h others) fun name ↦ ?_
  have hnamed : (∃ post ∈ posts, post.dataset? = some name) ↔
      ∃ post ∈ others, post.dataset? = some name := by
    have hmem := congrArg (fun kept ↦ ∃ post, post ∈ kept) (hsame name)
    simpa using hmem
  rw [lookup_records h, lookup_records h, hsame name]
  simp only [hnamed]

/-- A dataset only grows. -/
theorem exists_events?_run (registry : Registry) (h : Ascending store.datasets) {d : String}
    {held : List Event} (hheld : store.datasets.events? d = some held) (steps : List Step) :
    ∃ more, (run registry store steps).datasets.events? d = some (held ++ more) := by
  have hlookup := @lookup_records registry _ h (accepted registry store steps) d
  rw [Datasets.events?] at hheld ⊢
  rw [← datasets_run, hheld] at hlookup
  rw [hlookup]
  split_ifs with hposts
  · exact ⟨_, rfl⟩
  · exact ⟨[], by rw [List.append_nil]⟩

/-! ### Interleavings -/

section

variable {ι : Type}

theorem behind_cons (registry : Registry) (store : Store) (sent : ι × Request)
    (trace : List (ι × Request)) :
    behind registry store (sent :: trace) =
      behind registry (next registry store (.request sent.2)) trace :=
  rfl

theorem behind_append (registry : Registry) (store : Store) (first second : List (ι × Request)) :
    behind registry store (first ++ second) =
      behind registry (behind registry store first) second := by
  rw [behind, run, List.map_append, List.foldl_append]
  rfl

theorem behind_eq (registry : Registry) (store : Store) (trace : List (ι × Request)) :
    behind registry store trace =
      ⟨((trace.map Prod.snd).filter fun request ↦ IsAccepted registry store request).foldl
        (record registry) store.datasets, store.offline⟩ := by
  have hsteps : (trace.map fun sent ↦ Step.request sent.2) =
      (trace.map Prod.snd).map Step.request := by
    rw [List.map_map]
    rfl
  have hdatasets := datasets_run registry store ((trace.map Prod.snd).map .request)
  rw [accepted_requests rfl] at hdatasets
  rw [behind, hsteps, ← hdatasets, ← offline_requests registry store (trace.map Prod.snd)]

/-- The responses to posts are those of a server that has served nothing before. -/
theorem responses_eq_map (hoffline : store.offline = other.offline) {trace : List (ι × Request)}
    (hposts : ∀ sent ∈ trace, sent.2.method = "POST") :
    responses registry store trace =
      trace.map fun sent ↦ (sent.1, (serve registry other sent.2).response) := by
  induction trace generalizing store with
  | nil => rfl
  | cons sent trace ih =>
    obtain ⟨hsent, htrace⟩ := List.forall_mem_cons.mp hposts
    rw [responses, ih ((offline_next registry store sent.2).trans hoffline) htrace,
      response_congr registry hoffline hsent, List.map_cons]

/-- The store behind a trace of posts is told by the posts to each dataset. -/
theorem behind_congr (registry : Registry) (h : Ascending store.datasets)
    {trace another : List (ι × Request)}
    (hsame : ∀ d, requestsTo d trace = requestsTo d another) :
    behind registry store trace = behind registry store another := by
  rw [behind_eq, behind_eq]
  congr 1
  refine records_congr h fun d ↦ ?_
  rw [List.filter_comm, List.filter_comm (l := another.map Prod.snd)]
  exact congrArg _ (hsame d)

theorem ascending_behind (h : Ascending store.datasets) (registry : Registry)
    (trace : List (ι × Request)) : Ascending (behind registry store trace).datasets := by
  rw [behind_eq]
  exact ascending_records h _

/-- An accepted post leaves its batch in one piece behind what its dataset held before, and whatever
follows does not change that. -/
theorem exists_events?_behind (h : Ascending store.datasets) (before after : List (ι × Request))
    {sent : ι × Request} (hmethod : sent.2.method = "POST")
    (hstatus : (serve registry (behind registry store before) sent.2).response.status = 200) :
    ∃ d batch more, sent.2.dataset? = some d ∧ sent.2.batch registry = .ok batch ∧
      (behind registry store (before ++ sent :: after)).datasets.events? d =
        some (((behind registry store before).datasets.events? d).getD [] ++ batch.events ++
          more) := by
  have hbefore := ascending_behind h registry before
  obtain ⟨d, batch, -, hdataset, hbatch, -, hserve⟩ | ⟨-, hrefused⟩ :=
    serve_cases registry (behind registry store before) sent.2
  · have hnext : next registry (behind registry store before) (.request sent.2) =
        appended (behind registry store before) d batch := by
      rw [next, hserve]
    have hheld := events?_appended hbefore d batch d
    rw [if_pos rfl] at hheld
    obtain ⟨more, hmore⟩ := exists_events?_run registry
      (ascending_appended hbefore d batch) hheld (after.map fun sent ↦ .request sent.2)
    refine ⟨d, batch, more, hdataset, hbatch, ?_⟩
    rw [behind_append, behind_cons, hnext]
    exact hmore
  · obtain ⟨-, hsegment, -⟩ := isAccepted_of_status hmethod hstatus
    exact absurd hstatus (hrefused hmethod hsegment)

end

section

variable {ι : Type} [DecidableEq ι] {clients : ι → List Request} {trace : List (ι × Request)}

theorem Interleaves.mem (h : Interleaves clients trace) {sent : ι × Request}
    (hsent : sent ∈ trace) : sent.2 ∈ clients sent.1 := by
  rw [← h sent.1]
  exact List.mem_map_of_mem (List.mem_filter.mpr ⟨hsent, decide_eq_true rfl⟩)

/-- What one client sends is the same part of every interleaving. -/
theorem Interleaves.filter_eq (h : Interleaves clients trace) (client : ι) :
    (trace.filter fun sent ↦ sent.1 = client) = (clients client).map fun request ↦
      (client, request) := by
  rw [← h client, List.map_map]
  refine (List.map_id _).symm.trans (List.map_congr_left fun sent hsent ↦ ?_)
  rw [← of_decide_eq_true (List.mem_filter.mp hsent).2]
  rfl

/-- If one client alone posts to a dataset, its posts come in its own order. -/
theorem requestsTo_of_sole (h : Interleaves clients trace) {client : ι} {d : String}
    (hsole : ∀ other, other ≠ client → ∀ request ∈ clients other, request.dataset? ≠ some d) :
    requestsTo d trace = (clients client).filter fun request ↦ request.dataset? = some d := by
  rw [requestsTo, ← h client, List.filter_map, List.filter_map, List.filter_filter]
  refine congrArg (List.map Prod.snd) (List.filter_congr fun sent hsent ↦ ?_)
  by_cases hclient : sent.1 = client
  · simp [hclient]
  · simp [hclient, hsole sent.1 hclient sent.2 (h.mem hsent)]

theorem requestsTo_of_none (h : Interleaves clients trace) {d : String}
    (hnone : ∀ client, ∀ request ∈ clients client, request.dataset? ≠ some d) :
    requestsTo d trace = [] := by
  refine List.filter_eq_nil_iff.mpr fun request hrequest ↦ ?_
  obtain ⟨sent, hsent, rfl⟩ := List.mem_map.mp hrequest
  simpa using hnone sent.1 sent.2 (h.mem hsent)

/-- Clients that share no dataset come in one order for each dataset. -/
theorem requestsTo_congr (hapart : ApartInDatasets clients) {another : List (ι × Request)}
    (h : Interleaves clients trace) (hanother : Interleaves clients another) (d : String) :
    requestsTo d trace = requestsTo d another := by
  by_cases hsome : ∃ client, ∃ request ∈ clients client, request.dataset? = some d
  · obtain ⟨client, request, hrequest, hdataset⟩ := hsome
    have hsole := fun other (hother : other ≠ client) ↦
      hapart client other (Ne.symm hother) request hrequest d hdataset
    rw [requestsTo_of_sole h hsole, requestsTo_of_sole hanother hsole]
  · push Not at hsome
    rw [requestsTo_of_none h hsome, requestsTo_of_none hanother hsome]

end

/-- Posts that several clients send to a server that is online, and the orders in which they may
come. In all of them a client gets the same responses. In each of them an accepted batch is one
piece of its dataset. Two of them leave the same store to be shown if they order the posts to each
dataset alike, and so they do if no two clients share a dataset. -/
theorem interleavings_agree {ι : Type} [DecidableEq ι] (registry : Registry) {store : Store}
    (honline : store.offline = false) (hstore : Ascending store.datasets)
    {clients : ι → List Request}
    (hposts : ∀ client, ∀ request ∈ clients client, request.method = "POST") :
    (∀ trace another, Interleaves clients trace → Interleaves clients another → ∀ client,
      ((responses registry store trace).filter fun got ↦ got.1 = client) =
        (responses registry store another).filter fun got ↦ got.1 = client) ∧
    (∀ before sent after, Interleaves clients (before ++ sent :: after) →
      (serve registry (behind registry store before) sent.2).response.status = 200 →
        ∃ d batch more, sent.2.dataset? = some d ∧ sent.2.batch registry = .ok batch ∧
          (behind registry store (before ++ sent :: after)).datasets.events? d =
            some (((behind registry store before).datasets.events? d).getD [] ++ batch.events ++
              more)) ∧
    (∀ trace another, Interleaves clients trace → Interleaves clients another →
      (∀ d, requestsTo d trace = requestsTo d another) ∨ ApartInDatasets clients →
        behind registry store trace = behind registry store another ∧
          ∀ get : Request, get.method = "GET" → get.path = ['/'.toUInt8] →
            (serve registry (behind registry store trace) get).response.status = 200 ∧
              (serve registry (behind registry store trace) get).response.body =
                (serve registry (behind registry store another) get).response.body) := by
  have hsent : ∀ {trace}, Interleaves clients trace → ∀ sent ∈ trace, sent.2.method = "POST" :=
    fun h sent hmem ↦ hposts sent.1 sent.2 (h.mem hmem)
  refine ⟨?_, ?_, ?_⟩
  · intro trace another htrace hanother client
    rw [responses_eq_map rfl (hsent htrace), responses_eq_map rfl (hsent hanother),
      List.filter_map, List.filter_map]
    exact congrArg _ ((htrace.filter_eq client).trans (hanother.filter_eq client).symm)
  · intro before sent after htrace hstatus
    exact exists_events?_behind hstore before after
      (hsent htrace sent (List.mem_append_right _ List.mem_cons_self)) hstatus
  · intro trace another htrace hanother horder
    have hsame : ∀ d, requestsTo d trace = requestsTo d another :=
      horder.elim id fun hapart ↦ requestsTo_congr hapart htrace hanother
    have hbehind := behind_congr registry hstore hsame
    refine ⟨hbehind, fun get hmethod hpath ↦ ?_⟩
    have hshown : (behind registry store another).offline = false := by rw [behind_eq, honline]
    rw [hbehind, serve_root hmethod hpath hshown]
    exact ⟨rfl, rfl⟩

/-- One client posts nested events to a dataset and then a number, another one posts a string and a
number to another dataset. -/
def twoClients : Bool → List Request
  | false => [nestedPost, textPost "web" "[7]"]
  | true => [textPost "app" "[\"x\",5]"]

/-- One client posts between the posts of the other. -/
def inTurn : List (Bool × Request) :=
  [(false, nestedPost), (true, textPost "app" "[\"x\",5]"), (false, textPost "web" "[7]")]

/-- One client posts before the other. -/
def oneFirst : List (Bool × Request) :=
  [(true, textPost "app" "[\"x\",5]"), (false, nestedPost), (false, textPost "web" "[7]")]

/-- Two clients with a dataset each. The events of the first post stay together in front of those of
the last one. -/
theorem interleavings_agree_twoClients :
    Store.empty.offline = false ∧ Ascending Store.empty.datasets ∧
      (∀ client, ∀ request ∈ twoClients client, request.method = "POST") ∧
        Interleaves twoClients inTurn ∧ Interleaves twoClients oneFirst ∧
          ApartInDatasets twoClients ∧
            behind .full .empty inTurn = behind .full .empty oneFirst ∧
              (serve .full .empty nestedPost).response.status = 200 ∧
                (∃ more, (behind .full .empty inTurn).datasets.events? "web" =
                  some (nestedEvents ++ more)) ∧
                  (behind .full .empty oneFirst).datasets =
                    [("app", [.string "x", .number (.ofNat 5)]),
                      ("web", nestedEvents ++ [.number (.ofNat 7)])] := by
  have hposts : ∀ client, ∀ request ∈ twoClients client, request.method = "POST" := by
    intro client
    cases client with
    | false => exact List.forall_mem_cons.mpr ⟨rfl, List.forall_mem_singleton.mpr rfl⟩
    | true => exact List.forall_mem_singleton.mpr rfl
  have hdataset : ∀ client, ∀ request ∈ twoClients client,
      request.dataset? = some (if client then "app" else "web") := by
    have hlast : (textPost "web" "[7]").dataset? = some "web" := dataset?_web
    have happ : (textPost "app" "[\"x\",5]").dataset? = some "app" :=
      @dataset?_emptyPost "app" (by decide) (by decide)
    intro client
    cases client with
    | false =>
      exact List.forall_mem_cons.mpr ⟨dataset?_nestedPost, List.forall_mem_singleton.mpr hlast⟩
    | true => exact List.forall_mem_singleton.mpr happ
  have hapart : ApartInDatasets twoClients := by
    intro client other hne request hrequest d hd another hanother
    rw [hdataset client request hrequest] at hd
    rw [hdataset other another hanother, ← hd]
    clear hd hrequest hanother
    revert client other
    decide
  have hinTurn : Interleaves twoClients inTurn := by
    intro client
    cases client with
    | false => rfl
    | true => rfl
  have honeFirst : Interleaves twoClients oneFirst := by
    intro client
    cases client with
    | false => rfl
    | true => rfl
  obtain ⟨-, hpieces, horders⟩ :=
    interleavings_agree .full (show Store.empty.offline = false from rfl) .nil hposts
  obtain ⟨hbehind, -⟩ := horders inTurn oneFirst hinTurn honeFirst (Or.inr hapart)
  have hstatus : (serve .full .empty nestedPost).response.status = 200 := by
    rw [serve_post rfl dataset?_nestedPost, post_of_online batch_nestedPost rfl]
    rfl
  obtain ⟨d, batch, more, hd, hbatch, hevents⟩ := hpieces [] (false, nestedPost)
    [(true, textPost "app" "[\"x\",5]"), (false, textPost "web" "[7]")] hinTurn hstatus
  obtain rfl : d = "web" := Option.some_inj.mp (hd.symm.trans dataset?_nestedPost)
  obtain rfl : batch = ⟨nestedEvents⟩ := Except.ok.inj (hbatch.symm.trans batch_nestedPost)
  have hshown : (behind .full .empty oneFirst).datasets =
      [("app", [.string "x", .number (.ofNat 5)]),
        ("web", nestedEvents ++ [.number (.ofNat 7)])] := by
    decide +kernel
  exact ⟨rfl, .nil, hposts, hinTurn, honeFirst, hapart, hbehind, hstatus, ⟨more, hevents⟩, hshown⟩

end Intake.Http
