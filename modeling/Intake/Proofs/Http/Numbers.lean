import Intake.Proofs.Batch.RoundTrip
import Intake.Proofs.Http.ReadBack

/-!
# Numbers on their way through a server

Every literal of the grammar is taken, however long it is. It is written out with the sign, the
digits and the fraction that it was sent with, but its exponent is spelled anew, so it comes out as
it went in if the exponent, if there is one, has a small letter and a sign (`literal_kept_iff`).
That is what the text of the batch shows, and what the server shows afterwards: a single event
stands in the text of all datasets at a place that does not depend on it (`exists_frame`).
-/

set_option autoImplicit false
set_option relaxedAutoImplicit false

namespace Intake.Http

open Utf8 Json

/-! ### An event within what is shown -/

/-- With commas between texts, each of them stands at a place that does not depend on it. -/
theorem exists_intercalate (before after : List (List Char)) :
    ∃ front back, ∀ text, [','].intercalate (before ++ text :: after) = front ++ text ++ back := by
  cases before with
  | nil =>
    refine ⟨[], commaed after, fun text ↦ ?_⟩
    rw [List.nil_append, intercalate_cons]
    rfl
  | cons first before =>
    refine ⟨first ++ commaed before ++ [','], commaed after, fun text ↦ ?_⟩
    rw [List.cons_append, intercalate_cons]
    simp [commaed]

theorem exists_append (name : String) (datasets : Datasets) :
    ∃ before stored after, ∀ events,
      datasets.append name events = before ++ (name, stored ++ events) :: after := by
  induction datasets with
  | nil => exact ⟨[], [], [], fun events ↦ rfl⟩
  | cons entry datasets ih =>
    obtain ⟨other, stored⟩ := entry
    by_cases hlt : name < other
    · exact ⟨[], [], (other, stored) :: datasets, fun events ↦ by simp [Datasets.append, hlt]⟩
    by_cases heq : name = other
    · exact ⟨[], stored, datasets, fun events ↦ by simp [Datasets.append, heq]⟩
    · obtain ⟨before, found, after, hrest⟩ := ih
      exact ⟨(other, stored) :: before, found, after, fun events ↦ by
        simp [Datasets.append, hlt, heq, hrest]⟩

/-- A dataset as it is shown. -/
def datasetText (entry : String × List Event) : List Char :=
  (Pieces.ofText entry.1.toList).quoted ++ ':' :: (Tree.ofValue (.list entry.2)).chars

theorem chars_toJson (datasets : Datasets) :
    (Tree.ofValue datasets.toJson).chars =
      '\x7b' :: ([','].intercalate (datasets.map datasetText) ++ ['\x7d']) := by
  rw [Datasets.toJson, chars_object, List.map_map]
  rfl

/-- An event that is put behind others stands in the text of all datasets at a place that does not
depend on it. -/
theorem exists_frame (datasets : Datasets) (name : String) :
    ∃ front back, ∀ event : Event, (datasets.append name [event]).toJson.bytes =
      encode (front ++ (Tree.ofValue event).chars ++ back) := by
  obtain ⟨before, stored, after, happend⟩ := exists_append name datasets
  obtain ⟨front, back, hitems⟩ :=
    exists_intercalate (stored.map fun x ↦ (Tree.ofValue x).chars) []
  obtain ⟨first, last, hmembers⟩ :=
    exists_intercalate (before.map datasetText) (after.map datasetText)
  refine ⟨'\x7b' :: (first ++ (Pieces.ofText name.toList).quoted ++ [':', '['] ++ front),
    back ++ [']'] ++ last ++ ['\x7d'], fun event ↦ ?_⟩
  have hlist : (Tree.ofValue (.list (stored ++ [event]))).chars =
      '[' :: (front ++ (Tree.ofValue event).chars ++ back ++ [']']) := by
    rw [chars_list, List.map_append, List.map_singleton, hitems]
  rw [bytes_eq, chars_toJson, happend, List.map_append, List.map_cons, hmembers, datasetText, hlist]
  simp

/-! ### Numbers -/

/-- The text of a list of one number. -/
def listOf (number : List Char) : List Char :=
  ['['] ++ number ++ [']']

theorem decode_literal (l : Literal) :
    Batch.decode .identity (encode (listOf l.chars)) = .ok ⟨[.number l.numeral]⟩ := by
  have htext : listOf l.chars = Blanks.none.chars ++
      (Tree.list .none [⟨.none, .number l, .none⟩]).chars ++ Blanks.none.chars := by
    simp [listOf, Tree.chars, Tree.itemTexts, Blanks.none]
  rw [htext, Batch.decode_chars_iff]
  exact ⟨by simp [Tree.depth, Tree.itemsDepth, depthLimit], .list (.cons (.number l) .nil)⟩

theorem bytes_numeral (n : Numeral) :
    (Batch.toJson ⟨[.number n]⟩).bytes = encode (listOf n.chars) := by
  rw [bytes_eq, Batch.toJson, chars_list, List.map_singleton, Tree.ofValue, Tree.chars,
    chars_ofNumeral]
  simp [listOf]

/-- Wherever a number stands, it is the same text as before if and only if it is kept. -/
theorem encode_numeral_iff (front back : List Char) (l : Literal) :
    encode (front ++ l.numeral.chars ++ back) = encode (front ++ l.chars ++ back) ↔ l.Kept := by
  rw [← chars_numeral_iff]
  constructor
  · intro h
    exact List.append_cancel_left (List.append_cancel_right (encode_injective h))
  · intro h
    rw [h]

theorem shown_literal {store : Store} (honline : store.offline = false) {registry : Registry}
    {d : String} {post get : Request} (hget : get.method = "GET")
    (hpath : get.path = ['/'.toUInt8]) (hpost : post.method = "POST")
    (hdataset : post.dataset? = some d)
    (hcodec : registry.resolve post.contentEncoding = .identity) {l : Literal}
    (hbody : post.body = encode (listOf l.chars)) :
    (serve registry (serve registry store post).store get).response.body =
      (Datasets.toJson (store.datasets.append d [.number l.numeral])).bytes := by
  have hbatch : post.batch registry = .ok ⟨[.number l.numeral]⟩ := by
    rw [Request.batch, hcodec, hbody, decode_literal]
  have hstore : (serve registry store post).store = appended store d ⟨[.number l.numeral]⟩ := by
    rw [serve_post hpost hdataset, post_of_online hbatch honline]
  have hshown : (appended store d ⟨[.number l.numeral]⟩).offline = false := honline
  rw [hstore, serve_root hget hpath hshown]
  rfl

/-- A list of any one number is a batch. In the text of the batch and in what an online server shows
once it was posted, the number stands as it is kept, which is as it was sent if and only if its
exponent, if it has one, was sent with a small letter and a sign. -/
theorem literal_kept_iff {store : Store} (honline : store.offline = false) (registry : Registry)
    (d : String) {get : Request} (hget : get.method = "GET") (hpath : get.path = ['/'.toUInt8]) :
    ∃ front back, ∀ l : Literal,
      (∃ batch, Batch.decode .identity (encode (listOf l.chars)) = .ok batch ∧
        batch.toJson.bytes = encode (listOf l.numeral.chars) ∧
          (batch.toJson.bytes = encode (listOf l.chars) ↔ l.Kept)) ∧
      ∀ post : Request, post.method = "POST" → post.dataset? = some d →
        registry.resolve post.contentEncoding = .identity →
          post.body = encode (listOf l.chars) →
            (serve registry (serve registry store post).store get).response.body =
                encode (front ++ l.numeral.chars ++ back) ∧
              ((serve registry (serve registry store post).store get).response.body =
                encode (front ++ l.chars ++ back) ↔ l.Kept) := by
  obtain ⟨front, back, hframe⟩ := exists_frame store.datasets d
  refine ⟨front, back, fun l ↦ ⟨⟨_, decode_literal l, bytes_numeral _, ?_⟩, ?_⟩⟩
  · rw [bytes_numeral]
    exact encode_numeral_iff ['['] [']'] l
  · intro post hpost hdataset hcodec hbody
    rw [shown_literal honline hget hpath hpost hdataset hcodec hbody, hframe, Tree.ofValue,
      Tree.chars, chars_ofNumeral]
    exact ⟨rfl, encode_numeral_iff front back l⟩

/-- A negative zero with a fraction and an exponent. -/
def spelled : Literal :=
  ⟨true, ⟨0, []⟩, some ⟨5, [0]⟩, some ⟨false, some false, ⟨1, [0]⟩⟩, by decide⟩

/-- A post of a list of one number to the dataset `web`. -/
def numberPost (l : Literal) : Request :=
  { emptyPost "web" with body := encode (listOf l.chars) }

/-- A number that is kept is shown as it was posted. -/
theorem shown_spelled :
    (∃ batch, Batch.decode .identity (encode "[-0.50e+10]".toList) = .ok batch ∧
      batch.toJson.bytes = encode "[-0.50e+10]".toList) ∧
    ∃ front back, (serve .full (serve .full .empty (numberPost spelled)).store
      rootRequest).response.body = encode (front ++ "-0.50e+10".toList ++ back) := by
  have hdataset : (numberPost spelled).dataset? = some "web" := dataset?_web
  have hkept : spelled.Kept := fun e he ↦ by
    rw [← Option.some_inj.mp he]
    exact ⟨rfl, rfl⟩
  have hlist : "[-0.50e+10]".toList = listOf spelled.chars := by decide
  have hchars : "-0.50e+10".toList = spelled.chars := by decide
  obtain ⟨front, back, h⟩ :=
    @literal_kept_iff .empty rfl .full "web" rootRequest rfl (by decide)
  obtain ⟨⟨batch, hbatch, -, hbytes⟩, hshown⟩ := h spelled
  rw [hlist, hchars]
  exact ⟨⟨batch, hbatch, hbytes.mpr hkept⟩, front, back,
    (hshown (numberPost spelled) rfl hdataset rfl rfl).2.mpr hkept⟩

/-- The number one followed by five zeros, with a capital letter in front of its exponent. -/
def capitalExponent : Literal :=
  ⟨false, ⟨1, []⟩, none, some ⟨true, none, ⟨5, []⟩⟩, fun _ ↦ rfl⟩

/-- An exponent with a capital letter and no sign is written out with a small letter and a sign. -/
theorem decode_capitalExponent :
    Batch.decode .identity (encode "[1E5]".toList) = .ok ⟨[.number capitalExponent.numeral]⟩ ∧
      (Batch.toJson ⟨[.number capitalExponent.numeral]⟩).bytes = encode "[1e+5]".toList ∧
        (Batch.toJson ⟨[.number capitalExponent.numeral]⟩).bytes ≠ encode "[1E5]".toList := by
  have hsent : "[1E5]".toList = listOf capitalExponent.chars := by decide
  have hwritten : "[1e+5]".toList = listOf capitalExponent.numeral.chars := by decide
  rw [bytes_numeral, hsent, ← hwritten]
  exact ⟨decode_literal capitalExponent, rfl, by decide⟩

end Intake.Http
