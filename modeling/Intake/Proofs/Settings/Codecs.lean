import Intake.Proofs.Codec.Registry
import Intake.Proofs.Settings.Listening
import Mathlib.Data.String.Basic

/-!
# The codecs that are configured

The value of the codecs variable is cut at its commas, which can be done in one way
(`cutsInto_iff`). The pieces are the names that a registry is made of, so the registry offers the
compressions among them in their order, or the first piece that is no name is reported
(`read_codecs`). What it offers, written with commas in between, gives the same registry again.
-/

set_option autoImplicit false
set_option relaxedAutoImplicit false

namespace Intake.Settings

/-! ### Lists with commas -/

/-- A text is these pieces with commas between them, and no piece has a comma in it. -/
def CutsInto (text : String) (pieces : List String) : Prop :=
  pieces ≠ [] ∧ (∀ piece ∈ pieces, ',' ∉ piece.toList) ∧ ",".intercalate pieces = text

theorem not_mem_of_mem_splitOn (text : List Char) :
    ∀ piece ∈ text.splitOn ',', ',' ∉ piece := by
  induction text with
  | nil => simp
  | cons c text ih =>
    rw [List.splitOn_cons_eq_if_modifyHead]
    split_ifs with hc
    · exact List.forall_mem_cons.mpr ⟨List.not_mem_nil, ih⟩
    · cases hpieces : text.splitOn ',' with
      | nil => exact absurd hpieces (List.splitOn_ne_nil _ _)
      | cons first pieces =>
        rw [hpieces] at ih
        obtain ⟨hfirst, hmore⟩ := List.forall_mem_cons.mp ih
        have hcomma : ',' ≠ c := fun h ↦ hc (by simp [← h])
        exact List.forall_mem_cons.mpr ⟨List.not_mem_cons_of_ne_of_not_mem hcomma hfirst, hmore⟩

theorem cutsInto_iff {text : String} {pieces : List String} :
    CutsInto text pieces ↔ pieces = (text.toList.splitOn ',').map String.ofList := by
  constructor
  · rintro ⟨hne, hcomma, rfl⟩
    have hlists : ∀ piece ∈ pieces.map String.toList, ',' ∉ piece := by simpa using hcomma
    have hcut := List.splitOn_intercalate ',' hlists (by simpa using hne)
    rw [String.toList_intercalate, show ",".toList = [','] from rfl, hcut]
    simp
  · rintro rfl
    refine ⟨by simp [List.splitOn_ne_nil], ?_, ?_⟩
    · simpa using not_mem_of_mem_splitOn text.toList
    · rw [← String.toList_inj, String.toList_intercalate]
      simp [List.intercalate_splitOn]

theorem readCodecs_of_cutsInto {text : String} {pieces : List String} (h : CutsInto text pieces) :
    readCodecs text = (Registry.ofNames pieces).mapError .codecs := by
  rw [readCodecs, ← cutsInto_iff.mp h]

/-! ### What a registry offers, written as a list -/

theorem normalName_of_mem_compressions :
    ∀ name ∈ Registry.compressions, Registry.normalName name = name := by
  decide +kernel

theorem comma_not_mem_of_mem_compressions : ∀ name ∈ Registry.compressions, ',' ∉ name.toList := by
  decide

/-- Names of compressions are taken as they are. -/
theorem ofNames_names {registry : Registry}
    (h : ∀ name ∈ registry.names, name ∈ Registry.compressions) :
    Registry.ofNames registry.names = .ok registry := by
  have hsame : ∀ name ∈ registry.names, Registry.normalName name = name :=
    fun name hname ↦ normalName_of_mem_compressions name (h name hname)
  have hnormal : registry.names.map Registry.normalName = registry.names :=
    (List.map_congr_left hsame).trans (List.map_id' _)
  refine Registry.ofNames_eq_ok_iff.mpr ⟨fun name hname ↦ ?_, ?_⟩
  · rw [hsame name hname]
    exact List.mem_cons_of_mem _ (List.mem_cons_of_mem _ (h name hname))
  · rw [hnormal, List.filter_eq_self.mpr (by simpa using h)]

/-- A registry that offers nothing is written as the empty text, which is one empty piece. -/
theorem readCodecs_names {registry : Registry}
    (h : ∀ name ∈ registry.names, name ∈ Registry.compressions) :
    readCodecs (",".intercalate registry.names) = .ok registry := by
  by_cases hne : registry.names = []
  · have hempty : readCodecs "" = .ok .identityOnly := by decide +kernel
    have hnone : registry = .identityOnly := Registry.names_injective hne
    rw [hnone]
    exact hempty
  · have hcut : CutsInto (",".intercalate registry.names) registry.names :=
      ⟨hne, fun name hname ↦ comma_not_mem_of_mem_compressions name (h name hname), rfl⟩
    rw [readCodecs_of_cutsInto hcut, ofNames_names h]
    rfl

theorem name_resolve (registry : Registry) (header : String) :
    (registry.resolve (some header)).name =
      if Registry.normalName header ∈ registry.names then Registry.normalName header
      else "identity" := by
  split_ifs with hmem
  · obtain ⟨-, hname⟩ | ⟨hnot, -⟩ := Registry.resolve_eq_iff.mp (rfl : registry.resolve header = _)
    · exact hname
    · exact absurd hmem hnot
  · rw [Registry.resolve_eq_iff.mpr (Or.inr ⟨hmem, rfl⟩)]
    rfl

/-- Where an address is given, a list of codecs is cut at its commas and the pieces are compared
without blanks around them and in lower case. If all are empty, identity, or a compression, the
compressions are offered, in their order and as often as they are there; they are what a header is
looked up in, and the list of them gives the same settings. If not, the first other piece is
reported. -/
theorem read_codecs {lookup : String → Option String} {codecs : String} {address : Net.Address}
    (haddress : IsListenAddress ((lookup addressVariable).getD defaultAddress) address)
    (hcodecs : lookup codecsVariable = some codecs) :
    ∃ pieces, (∀ others, CutsInto codecs others ↔ others = pieces) ∧
      ((∀ piece ∈ pieces, Registry.normalName piece ∈ Registry.accepted) →
        ∃ registry, read lookup = .ok ⟨address, registry⟩ ∧
          registry.names =
            (pieces.map Registry.normalName).filter (· ∈ Registry.compressions) ∧
          read (Function.update lookup codecsVariable
            (some (",".intercalate registry.names))) = .ok ⟨address, registry⟩ ∧
          ∀ header, (registry.resolve (some header)).name =
            if Registry.normalName header ∈ registry.names then Registry.normalName header
            else "identity") ∧
      ((¬ ∀ piece ∈ pieces, Registry.normalName piece ∈ Registry.accepted) →
        ∃ before piece after, pieces = before ++ piece :: after ∧
          (∀ earlier ∈ before, Registry.normalName earlier ∈ Registry.accepted) ∧
          Registry.normalName piece ∉ Registry.accepted ∧
          read lookup = .error (.codecs ⟨Registry.normalName piece⟩)) := by
  have hother : addressVariable ≠ codecsVariable := by decide
  have hread := read_of_isListenAddress haddress
  rw [hcodecs, Option.getD_some, readCodecs_of_cutsInto (cutsInto_iff.mpr rfl)] at hread
  refine ⟨_, fun others ↦ cutsInto_iff, fun haccepted ↦ ?_, fun hnot ↦ ?_⟩
  · obtain ⟨registry, hregistry, hnames⟩ := Registry.ofNames_of_accepted haccepted
    rw [hregistry] at hread
    refine ⟨registry, hread, hnames, ?_, name_resolve registry⟩
    have hcompressions : ∀ name ∈ registry.names, name ∈ Registry.compressions := by
      intro name hname
      rw [hnames] at hname
      exact of_decide_eq_true (List.mem_filter.mp hname).2
    rw [read_eq_ok_iff, Function.update_self, Function.update_of_ne hother]
    exact ⟨haddress, readCodecs_names hcompressions⟩
  · obtain ⟨before, piece, after, hpieces, hbefore, hpiece⟩ :=
      Registry.exists_first_not_accepted hnot
    rw [hpieces, Registry.ofNames_of_not_accepted hbefore hpiece] at hread
    exact ⟨before, piece, after, hpieces, hbefore, hpiece, hread⟩

/-- Codecs alone, so that the address is the default one. -/
def onlyCodecs (codecs : String) : String → Option String :=
  Function.update (fun _ ↦ none) codecsVariable (some codecs)

theorem isListenAddress_onlyCodecs (codecs : String) :
    IsListenAddress ((onlyCodecs codecs addressVariable).getD defaultAddress)
      (.v4 ⟨0, 0, 0, 0⟩ 5000) := by
  rw [onlyCodecs, Function.update_of_ne (by decide)]
  exact isListenAddress_default

/-- A coding twice, another one between blanks, and two pieces that stand for identity. -/
def mixedCodecs : String := " GZIP\t,,zstd,IDENTITY,gzip"

/-- A name with a letter that has its lower case outside ASCII, and another unknown one. -/
def dottedCodecs : String := "zstd, GZ\u0130P,br"

theorem read_codecs_mixed :
    IsListenAddress ((onlyCodecs mixedCodecs addressVariable).getD defaultAddress)
        (.v4 ⟨0, 0, 0, 0⟩ 5000) ∧
      onlyCodecs mixedCodecs codecsVariable = some mixedCodecs ∧
        (∃ registry, read (onlyCodecs mixedCodecs) = .ok ⟨.v4 ⟨0, 0, 0, 0⟩ 5000, registry⟩ ∧
          registry.names = ["gzip", "zstd", "gzip"] ∧
            (registry.resolve (some "\tZsTd ")).name = "zstd" ∧
              (registry.resolve (some "br")).name = "identity") ∧
          read (onlyCodecs dottedCodecs) = .error (.codecs ⟨"gz\u0130p"⟩) := by
  have hset : ∀ codecs, onlyCodecs codecs codecsVariable = some codecs :=
    fun codecs ↦ Function.update_self _ _ _
  refine ⟨isListenAddress_onlyCodecs _, hset _, ?_, ?_⟩
  · obtain ⟨pieces, hpieces, htaken, -⟩ :=
      read_codecs (isListenAddress_onlyCodecs mixedCodecs) (hset mixedCodecs)
    have hcut : CutsInto mixedCodecs [" GZIP\t", "", "zstd", "IDENTITY", "gzip"] :=
      ⟨by decide, by decide, by decide +kernel⟩
    rw [← (hpieces _).mp hcut] at htaken
    obtain ⟨registry, hread, hnames, -, hresolve⟩ := htaken (by decide +kernel)
    have hlisted : registry.names = ["gzip", "zstd", "gzip"] := hnames.trans (by decide +kernel)
    refine ⟨registry, hread, hlisted, ?_, ?_⟩
    · rw [hresolve, hlisted]
      decide +kernel
    · rw [hresolve, hlisted]
      decide +kernel
  · obtain ⟨pieces, hpieces, -, hreported⟩ :=
      read_codecs (isListenAddress_onlyCodecs dottedCodecs) (hset dottedCodecs)
    have hcut : CutsInto dottedCodecs ["zstd", " GZ\u0130P", "br"] :=
      ⟨by decide, by decide, by decide +kernel⟩
    rw [← (hpieces _).mp hcut] at hreported
    obtain ⟨before, piece, after, heq, hbefore, hpiece, hread⟩ := hreported (by decide +kernel)
    have hfirst : ["zstd", " GZ\u0130P", "br"].find?
        (fun name ↦ decide (Registry.normalName name ∉ Registry.accepted)) = some piece :=
      List.find?_eq_some_iff_append.mpr
        ⟨by simpa using hpiece, before, after, heq, by simpa using hbefore⟩
    obtain rfl : " GZ\u0130P" = piece :=
      Option.some_inj.mp (Eq.trans (by decide +kernel) hfirst)
    have hname : Registry.normalName " GZ\u0130P" = "gz\u0130p" := by decide +kernel
    rw [hread, hname]

end Intake.Settings
