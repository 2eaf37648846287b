import Intake.Codec.Registry
import Mathlib.Data.List.Basic

/-!
# What a registry is made of and what it finds

A registry is made of names one by one, and the first name that is none of a codec ends the run
(`ofNames_eq_error_iff`). If there is none, the registry has the compressions among the names, in
their order and as often as they occur (`ofNames_eq_ok_iff`). What is found in it under a name is
the codec that is called so (`resolve_eq_iff`), although names are compared in another way there
than where the registry is made.
-/

set_option autoImplicit false
set_option relaxedAutoImplicit false

namespace Intake

/-! ### Names of codecs -/

theorem Codec.lower_name (codec : Codec) : Text.lower codec.name = codec.name := by
  cases codec with
  | identity => decide +kernel
  | gzip => decide +kernel
  | zstd => decide +kernel

theorem Codec.name_injective : Function.Injective Codec.name := by
  let ofName (name : String) : Codec :=
    if name = "identity" then .identity else if name = "gzip" then .gzip else .zstd
  have hinverse : Function.LeftInverse ofName Codec.name := by
    intro codec
    cases codec with
    | identity => decide +kernel
    | gzip => decide +kernel
    | zstd => decide +kernel
  exact hinverse.injective

namespace Registry

/-- A registry has no more to it than the names of its codecs. -/
theorem names_injective : Function.Injective names := by
  rintro ⟨first⟩ ⟨second⟩ h
  exact congrArg mk (List.map_injective_iff.mpr Codec.name_injective h)

/-! ### Making a registry -/

/-- The codings that a registry can offer beside identity. -/
def compressions : List String := ["gzip", "zstd"]

/-- The names that a registry can be made of. -/
def accepted : List String := "" :: "identity" :: compressions

variable {names : List String} {name : String}

theorem mem_compressions_iff {coding : String} (h : coding ∈ accepted) :
    coding ∈ compressions ↔ coding ≠ "" ∧ coding ≠ "identity" := by
  have hneither : ∀ other ∈ compressions, other ≠ "" ∧ other ≠ "identity" := by decide
  refine ⟨hneither coding, fun ⟨hempty, hidentity⟩ ↦ ?_⟩
  have hmore := (List.mem_cons.mp h).resolve_left hempty
  exact (List.mem_cons.mp hmore).resolve_left hidentity

/-- A name that is accepted adds itself if it is that of a compression. -/
theorem withName_of_accepted (registry : Registry) (h : normalName name ∈ accepted) :
    ∃ after, registry.withName name = .ok after ∧
      after.names = registry.names ++ [normalName name].filter (· ∈ compressions) := by
  unfold withName
  split
  · rename_i hname
    exact ⟨registry, rfl, by simp [hname, compressions]⟩
  · rename_i hname
    exact ⟨registry, rfl, by simp [hname, compressions]⟩
  · rename_i hname
    exact ⟨_, rfl, by simp [hname, compressions, withCodec, Registry.names, Codec.name]⟩
  · rename_i hname
    exact ⟨_, rfl, by simp [hname, compressions, withCodec, Registry.names, Codec.name]⟩
  · rename_i hempty hidentity hgzip hzstd
    simp only [accepted, compressions, List.mem_cons, List.not_mem_nil, or_false] at h
    obtain h | h | h | h := h
    · exact absurd h hempty
    · exact absurd h hidentity
    · exact absurd h hgzip
    · exact absurd h hzstd

theorem withName_of_not_accepted (registry : Registry) (h : normalName name ∉ accepted) :
    registry.withName name = .error ⟨normalName name⟩ := by
  unfold withName
  split
  · rename_i hname
    simp [hname, accepted] at h
  · rename_i hname
    simp [hname, accepted] at h
  · rename_i hname
    simp [hname, accepted, compressions] at h
  · rename_i hname
    simp [hname, accepted, compressions] at h
  · rfl

/-- Names that are accepted put the compressions among them behind those that are there. -/
theorem foldlM_withName_of_accepted (h : ∀ name ∈ names, normalName name ∈ accepted)
    (start : Registry) :
    ∃ registry, names.foldlM withName start = .ok registry ∧
      registry.names = start.names ++ (names.map normalName).filter (· ∈ compressions) := by
  induction names generalizing start with
  | nil => exact ⟨start, rfl, by simp⟩
  | cons name names ih =>
    obtain ⟨hname, hnames⟩ := List.forall_mem_cons.mp h
    obtain ⟨next, hnext, hadded⟩ := withName_of_accepted start hname
    obtain ⟨registry, hrun, hlisted⟩ := ih hnames next
    refine ⟨registry, ?_, ?_⟩
    · rw [List.foldlM_cons, hnext]
      exact hrun
    · rw [hlisted, hadded, List.append_assoc, ← List.filter_append, List.singleton_append,
        List.map_cons]

theorem ofNames_of_accepted (h : ∀ name ∈ names, normalName name ∈ accepted) :
    ∃ registry, ofNames names = .ok registry ∧
      registry.names = (names.map normalName).filter (· ∈ compressions) := by
  obtain ⟨registry, hrun, hnames⟩ := foldlM_withName_of_accepted h identityOnly
  exact ⟨registry, hrun, hnames.trans (List.nil_append _)⟩

theorem ofNames_of_not_accepted {before after : List String}
    (hbefore : ∀ name ∈ before, normalName name ∈ accepted) (hname : normalName name ∉ accepted) :
    ofNames (before ++ name :: after) = .error ⟨normalName name⟩ := by
  obtain ⟨registry, hrun, -⟩ := foldlM_withName_of_accepted hbefore identityOnly
  rw [ofNames, List.foldlM_append, hrun]
  refine (pure_bind registry _).trans ?_
  rw [List.foldlM_cons, withName_of_not_accepted registry hname]
  rfl

/-- Among names that are not all accepted there is a first one that is not. -/
theorem exists_first_not_accepted (h : ¬ ∀ name ∈ names, normalName name ∈ accepted) :
    ∃ before name after, names = before ++ name :: after ∧
      (∀ name ∈ before, normalName name ∈ accepted) ∧ normalName name ∉ accepted := by
  cases hfind : names.find? fun name ↦ decide (normalName name ∉ accepted) with
  | none => exact absurd (by simpa using hfind) h
  | some name =>
    obtain ⟨hname, before, after, hnames, hbefore⟩ := List.find?_eq_some_iff_append.mp hfind
    exact ⟨before, name, after, hnames, by simpa using hbefore, by simpa using hname⟩

theorem ofNames_eq_ok_iff {registry : Registry} :
    ofNames names = .ok registry ↔ (∀ name ∈ names, normalName name ∈ accepted) ∧
      registry.names = (names.map normalName).filter (· ∈ compressions) := by
  constructor
  · intro h
    have haccepted : ∀ name ∈ names, normalName name ∈ accepted := by
      by_contra hnot
      obtain ⟨before, name, after, rfl, hbefore, hname⟩ := exists_first_not_accepted hnot
      rw [ofNames_of_not_accepted hbefore hname] at h
      exact absurd h nofun
    obtain ⟨other, hother, hnames⟩ := ofNames_of_accepted haccepted
    obtain rfl := Except.ok.inj (hother.symm.trans h)
    exact ⟨haccepted, hnames⟩
  · rintro ⟨haccepted, hnames⟩
    obtain ⟨other, hother, hothers⟩ := ofNames_of_accepted haccepted
    rw [hother, names_injective (hothers.trans hnames.symm)]

theorem ofNames_eq_error_iff {unknown : UnknownCodec} :
    ofNames names = .error unknown ↔ ∃ before name after, names = before ++ name :: after ∧
      (∀ name ∈ before, normalName name ∈ accepted) ∧ normalName name ∉ accepted ∧
        unknown = ⟨normalName name⟩ := by
  constructor
  · intro h
    have hnot : ¬ ∀ name ∈ names, normalName name ∈ accepted := by
      intro haccepted
      obtain ⟨registry, hregistry, -⟩ := ofNames_of_accepted haccepted
      rw [hregistry] at h
      exact absurd h nofun
    obtain ⟨before, name, after, rfl, hbefore, hname⟩ := exists_first_not_accepted hnot
    rw [ofNames_of_not_accepted hbefore hname] at h
    exact ⟨before, name, after, rfl, hbefore, hname, (Except.error.inj h).symm⟩
  · rintro ⟨before, name, after, rfl, hbefore, hname, rfl⟩
    exact ofNames_of_not_accepted hbefore hname

/-! ### Finding a codec -/

/-- What is found under a name is the codec that is called so. -/
theorem resolve_eq_iff {registry : Registry} {text : String} {codec : Codec} :
    registry.resolve (some text) = codec ↔
      normalName text ∈ registry.names ∧ codec.name = normalName text ∨
        normalName text ∉ registry.names ∧ codec = .identity := by
  have hsame : ∀ other : Codec, Text.sameLetters other.name (Text.trim text) = true ↔
      other.name = normalName text := by
    intro other
    rw [Text.sameLetters, other.lower_name, beq_iff_eq, normalName]
  rw [resolve]
  cases hfind : registry.codecs.find? fun other ↦ Text.sameLetters other.name (Text.trim text) with
  | none =>
    have hnot : normalName text ∉ registry.names := by
      intro hmem
      obtain ⟨other, hother, hname⟩ := List.mem_map.mp hmem
      exact List.find?_eq_none.mp hfind other hother ((hsame other).mpr hname)
    simp [hnot, eq_comm]
  | some found =>
    have hletters := List.find?_some hfind
    have hname := (hsame found).mp hletters
    have hmem : normalName text ∈ registry.names :=
      hname ▸ List.mem_map_of_mem (List.mem_of_find?_eq_some hfind)
    rw [Option.getD_some, or_iff_left fun h ↦ h.1 hmem, and_iff_right hmem, ← hname,
      Codec.name_injective.eq_iff, eq_comm]

end Registry
end Intake
