import Intake.Proofs.Codec.Registry
import Intake.Proofs.Gzip.Members
import Intake.Proofs.Http.Ingestion

/-!
# Only the decoded bytes of a post matter

What a post brings about depends on its dataset, on the store, and on what its body is decoded to.
The headers and the names that a registry was made of choose the codec (`Uses`), and all that they
have to do with it is which coding the first content-encoding header names and whether that is among
the names. So two posts that are decoded alike have the same outcome, whatever else they consist of
(`serve_sameOutcome`).
-/

set_option autoImplicit false
set_option relaxedAutoImplicit false

namespace Intake

namespace Registry

/-- A list of names configures a coding if one of them is its name, up to blanks at the ends and
letter case. -/
def Configures (names : List String) (coding : String) : Prop :=
  ∃ name ∈ names, normalName name = coding

/-- The names of a registry are those that it was made of, but for blanks, letter case and those of
the identity codec. -/
theorem mem_names_iff {names : List String} {registry : Registry} (h : ofNames names = .ok registry)
    {coding : String} :
    coding ∈ registry.names ↔ Configures names coding ∧ coding ≠ "" ∧ coding ≠ "identity" := by
  obtain ⟨haccepted, hnames⟩ := ofNames_eq_ok_iff.mp h
  rw [hnames, List.mem_filter, List.mem_map, Configures, decide_eq_true_iff]
  refine and_congr_right ?_
  rintro ⟨name, hname, rfl⟩
  exact mem_compressions_iff (haccepted name hname)

end Registry

namespace Http

/-! ### The codec of a request -/

namespace Request

/-- The coding that a request names: what its first content-encoding header says, up to blanks at
the ends and letter case, if that header is plain text. -/
def NamesCoding (request : Request) (coding : String) : Prop :=
  ∃ before name value after, request.headers = before ++ (name, value) :: after ∧
    (∀ other ∈ before, Text.lower other.1 ≠ "content-encoding") ∧
    Text.lower name = "content-encoding" ∧
    (∀ b ∈ value, 0x20 ≤ b ∧ b ≤ 0x7E ∨ b = 0x09) ∧
    coding = Registry.normalName (String.ofList (value.map fun b ↦ Char.ofNat b.toNat))

end Request

/-- The codec that a request is decoded with: the one that it names if the registry has it, and the
identity codec if not. -/
def Uses (registry : Registry) (request : Request) (codec : Codec) : Prop :=
  (∃ coding, request.NamesCoding coding ∧ coding ∈ registry.names ∧ codec.name = coding) ∨
    (∀ coding, request.NamesCoding coding → coding ∉ registry.names) ∧ codec = .identity

/-- The first header of a name, up to letter case. -/
theorem header?_eq_some_iff {request : Request} {value : Bytes} :
    request.header? "content-encoding" = some value ↔
      ∃ before name after, request.headers = before ++ (name, value) :: after ∧
        (∀ other ∈ before, Text.lower other.1 ≠ "content-encoding") ∧
        Text.lower name = "content-encoding" := by
  have hlower : Text.lower "content-encoding" = "content-encoding" := by decide +kernel
  have hsame : ∀ name, Text.sameLetters name "content-encoding" = true ↔
      Text.lower name = "content-encoding" := by
    intro name
    rw [Text.sameLetters, hlower, beq_iff_eq]
  simp only [Request.header?, Option.map_eq_some_iff, List.find?_eq_some_iff_append, hsame,
    Bool.not_eq_true', Bool.eq_false_iff, ne_eq]
  constructor
  · rintro ⟨⟨name, found⟩, ⟨hname, before, after, hheaders, hbefore⟩, rfl⟩
    exact ⟨before, name, after, hheaders, hbefore, hname⟩
  · rintro ⟨before, name, after, hheaders, hbefore, hname⟩
    exact ⟨(name, value), ⟨hname, before, after, hheaders, hbefore⟩, rfl⟩

theorem contentEncoding_eq_some_iff {request : Request} {text : String} :
    request.contentEncoding = some text ↔
      ∃ value, request.header? "content-encoding" = some value ∧
        (∀ b ∈ value, 0x20 ≤ b ∧ b ≤ 0x7E ∨ b = 0x09) ∧
        text = String.ofList (value.map fun b ↦ Char.ofNat b.toNat) := by
  have htab : '\t'.toUInt8 = 0x09 := by decide
  have hplain : ∀ value : Bytes, value.all Request.isPlain = true ↔
      ∀ b ∈ value, 0x20 ≤ b ∧ b ≤ 0x7E ∨ b = 0x09 := by
    simp [Request.isPlain, htab]
  rw [Request.contentEncoding]
  cases request.header? "content-encoding" with
  | none => simp
  | some value =>
    simp only [← hplain, Option.some_inj, exists_eq_left']
    split_ifs with h
    · simp [h, eq_comm]
    · simp [h]

theorem namesCoding_iff {request : Request} {coding : String} :
    request.NamesCoding coding ↔
      ∃ text, request.contentEncoding = some text ∧ coding = Registry.normalName text := by
  simp only [contentEncoding_eq_some_iff, header?_eq_some_iff]
  constructor
  · rintro ⟨before, name, value, after, hheaders, hbefore, hname, hvalue, rfl⟩
    exact ⟨_, ⟨value, ⟨before, name, after, hheaders, hbefore, hname⟩, hvalue, rfl⟩, rfl⟩
  · rintro ⟨_, ⟨value, ⟨before, name, after, hheaders, hbefore, hname⟩, hvalue, rfl⟩, rfl⟩
    exact ⟨before, name, value, after, hheaders, hbefore, hname, hvalue, rfl⟩

/-- A codec is found by comparing names up to letter case, though those of codecs have no capital
letters. -/
theorem uses_iff {registry : Registry} {request : Request} {codec : Codec} :
    Uses registry request codec ↔ registry.resolve request.contentEncoding = codec := by
  unfold Uses
  simp only [namesCoding_iff]
  cases hheader : request.contentEncoding with
  | none => simp [Registry.resolve, eq_comm]
  | some text =>
    rw [Registry.resolve_eq_iff]
    simp

/-- There is one codec that a request is decoded with. -/
theorem existsUnique_uses (registry : Registry) (request : Request) :
    ∃! codec, Uses registry request codec := by
  simp only [uses_iff]
  exact existsUnique_eq'

/-! ### Outcomes -/

/-- What is said to be wrong in an entry of the log. -/
def error? (entry : Log.Entry) : Option Log.Field :=
  entry.fields.lookup "error"

/-- Two requests have the same outcome: the response, the store behind it, and the levels and errors
that are logged. -/
structure SameOutcome (first second : Effect) : Prop where
  response : first.response = second.response
  store : first.store = second.store
  log : first.log.map (fun entry ↦ (entry.level, error? entry)) =
    second.log.map fun entry ↦ (entry.level, error? entry)

variable {first second : Request} {registry₁ registry₂ : Registry}

/-- Posts to a dataset have the same outcome if their bodies are decoded to the same batch, or fail
to be for the same reason. -/
theorem sameOutcome_of_batch (store : Store) (d : String)
    (hbatch : first.batch registry₁ = second.batch registry₂) :
    SameOutcome (post registry₁ store d first) (post registry₂ store d second) := by
  cases hfirst : first.batch registry₁ with
  | error fault =>
    rw [post_of_error hfirst, post_of_error (hbatch ▸ hfirst)]
    exact ⟨rfl, rfl, rfl⟩
  | ok batch =>
    cases hoffline : store.offline with
    | true =>
      rw [post_of_offline hfirst hoffline, post_of_offline (hbatch ▸ hfirst) hoffline]
      exact ⟨rfl, rfl, rfl⟩
    | false =>
      rw [post_of_online hfirst hoffline, post_of_online (hbatch ▸ hfirst) hoffline]
      exact ⟨rfl, rfl, rfl⟩

/-- Bodies that are decoded alike are the same batch, or fail to be one for the same reason. -/
theorem batch_congr {codec₁ codec₂ : Codec} (hfirst : Uses registry₁ first codec₁)
    (hsecond : Uses registry₂ second codec₂)
    (hdecode : codec₁.decode first.body = codec₂.decode second.body) :
    first.batch registry₁ = second.batch registry₂ := by
  rw [Request.batch, Request.batch, uses_iff.mp hfirst, uses_iff.mp hsecond, Batch.decode,
    Batch.decode, hdecode]

/-- The codec is told by the names that are configured and the coding that is named. -/
theorem uses_congr {names₁ names₂ : List String}
    (hregistry₁ : Registry.ofNames names₁ = .ok registry₁)
    (hregistry₂ : Registry.ofNames names₂ = .ok registry₂)
    (hnames : ∀ coding, Registry.Configures names₁ coding ↔ Registry.Configures names₂ coding)
    (hcoding : ∀ coding, first.NamesCoding coding ↔ second.NamesCoding coding) (codec : Codec) :
    Uses registry₁ first codec ↔ Uses registry₂ second codec := by
  have hmem : ∀ coding, coding ∈ registry₁.names ↔ coding ∈ registry₂.names := by
    intro coding
    rw [Registry.mem_names_iff hregistry₁, Registry.mem_names_iff hregistry₂, hnames]
  simp only [Uses, hcoding, hmem]

/-- A coding that is not configured is read as it is, as is one that is called identity. -/
theorem uses_identity {names : List String} {registry : Registry} {request : Request}
    (hregistry : Registry.ofNames names = .ok registry)
    (hnot : ∀ coding, request.NamesCoding coding → Registry.Configures names coding →
      coding = "" ∨ coding = "identity") :
    Uses registry request .identity := by
  refine Or.inr ⟨fun coding hcoding hmem ↦ ?_, rfl⟩
  obtain ⟨hconfigured, hne, hidentity⟩ := (Registry.mem_names_iff hregistry).mp hmem
  exact (hnot coding hcoding hconfigured).elim hne hidentity

/-- Two posts to a dataset have the same outcome in every store if the codecs that they use decode
their bodies alike. That is so for equal bodies if both have the same codings configured and name
the same one. It is also so if one of them names no coding and the other one names none that is
configured for it, or identity. -/
theorem serve_sameOutcome {names₁ names₂ : List String}
    (hregistry₁ : Registry.ofNames names₁ = .ok registry₁)
    (hregistry₂ : Registry.ofNames names₂ = .ok registry₂) (store : Store) {d : String}
    (hfirst : first.method = "POST") (hdataset₁ : first.dataset? = some d)
    (hsecond : second.method = "POST") (hdataset₂ : second.dataset? = some d) :
    (∀ codec₁ codec₂, Uses registry₁ first codec₁ → Uses registry₂ second codec₂ →
      codec₁.decode first.body = codec₂.decode second.body →
        SameOutcome (serve registry₁ store first) (serve registry₂ store second)) ∧
    ((∀ coding, Registry.Configures names₁ coding ↔ Registry.Configures names₂ coding) →
      (∀ coding, first.NamesCoding coding ↔ second.NamesCoding coding) →
      first.body = second.body →
        SameOutcome (serve registry₁ store first) (serve registry₂ store second)) ∧
    ((∀ coding, first.NamesCoding coding → Registry.Configures names₁ coding →
        coding = "" ∨ coding = "identity") →
      (∀ coding, ¬ second.NamesCoding coding) →
      first.body = second.body →
        SameOutcome (serve registry₁ store first) (serve registry₂ store second)) := by
  have hsame : ∀ codec₁ codec₂, Uses registry₁ first codec₁ → Uses registry₂ second codec₂ →
      codec₁.decode first.body = codec₂.decode second.body →
        SameOutcome (serve registry₁ store first) (serve registry₂ store second) := by
    intro codec₁ codec₂ huses₁ huses₂ hdecode
    rw [serve_post hfirst hdataset₁, serve_post hsecond hdataset₂]
    exact sameOutcome_of_batch store d (batch_congr huses₁ huses₂ hdecode)
  refine ⟨hsame, fun hnames hcoding hbody ↦ ?_, fun hnot hnone hbody ↦ ?_⟩
  · obtain ⟨codec, huses, -⟩ := existsUnique_uses registry₁ first
    have huses' := (uses_congr hregistry₁ hregistry₂ hnames hcoding codec).mp huses
    exact hsame codec codec huses huses' (congrArg codec.decode hbody)
  · have huses := uses_identity hregistry₁ hnot
    have huses' := uses_identity hregistry₂ fun coding hcoding _ ↦ absurd hcoding (hnone coding)
    exact hsame .identity .identity huses huses' (congrArg _ hbody)

/-- A list of two numbers, posted as it is. -/
def plainPost : Request :=
  ⟨"POST", Utf8.encode "/1/batch/web".toList, [], [0x5B, 0x31, 0x2C, 0x32, 0x5D]⟩

/-- The same list, posted in two compressed members. -/
def gzipPost : Request :=
  ⟨"POST", Utf8.encode "/1/batch/web".toList,
    [("Content-Type", Utf8.encode "text/plain".toList),
      ("Content-Encoding", Utf8.encode "\t GzIp ".toList),
      ("content-encoding", Utf8.encode "zstd".toList)],
    Gzip.namedMember ++ Gzip.codedMember⟩

/-- A compressed post under a header in mixed case, to a server that has the coding configured
twice, and a plain one to a server without any coding. -/
theorem serve_sameOutcome_gzipPost :
    Registry.ofNames ["zstd", " GZIP", "gzip"] = .ok ⟨[.zstd, .gzip, .gzip]⟩ ∧
      Registry.ofNames [] = .ok .identityOnly ∧
        gzipPost.method = "POST" ∧ gzipPost.dataset? = some "web" ∧
          plainPost.method = "POST" ∧ plainPost.dataset? = some "web" ∧
            Uses ⟨[.zstd, .gzip, .gzip]⟩ gzipPost .gzip ∧ Uses .identityOnly plainPost .identity ∧
              Codec.gzip.decode gzipPost.body = Codec.identity.decode plainPost.body ∧
                SameOutcome (serve ⟨[.zstd, .gzip, .gzip]⟩ .empty gzipPost)
                  (serve .identityOnly .empty plainPost) := by
  have hregistry₁ : Registry.ofNames ["zstd", " GZIP", "gzip"] = .ok ⟨[.zstd, .gzip, .gzip]⟩ := by
    decide +kernel
  have hregistry₂ : Registry.ofNames [] = .ok .identityOnly := rfl
  have hdataset₁ : gzipPost.dataset? = some "web" := dataset?_web
  have hdataset₂ : plainPost.dataset? = some "web" := dataset?_web
  have huses₁ : Uses ⟨[.zstd, .gzip, .gzip]⟩ gzipPost .gzip := uses_iff.mpr (by decide +kernel)
  have huses₂ : Uses .identityOnly plainPost .identity := uses_iff.mpr rfl
  have hdecode : Codec.gzip.decode gzipPost.body = Codec.identity.decode plainPost.body := by
    decide +kernel
  exact ⟨hregistry₁, hregistry₂, rfl, hdataset₁, rfl, hdataset₂, huses₁, huses₂, hdecode,
    (serve_sameOutcome hregistry₁ hregistry₂ .empty rfl hdataset₁ rfl hdataset₂).1 .gzip .identity
      huses₁ huses₂ hdecode⟩

end Http

end Intake
