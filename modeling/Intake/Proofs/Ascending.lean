import Intake.Store
import Mathlib.Data.String.Basic

/-!
# Entries in ascending order of their keys

The members of an object and the datasets of a store are lists of entries whose keys ascend. Such a
list is a finite map: it holds an entry exactly when looking up its key finds it
(`Ascending.mem_iff`), and two lists that answer every lookup alike are the same
(`Ascending.ext`). Both are changed in one way only, which is to give one key a value that is made
of its old one (`alter`). That keeps the order (`Ascending.alter`) and every other entry
(`lookup_alter`).
-/

set_option autoImplicit false
set_option relaxedAutoImplicit false

namespace Intake

variable {α : Type}

/-- The keys of the entries ascend, so no key occurs twice. -/
def Ascending (entries : List (String × α)) : Prop :=
  entries.Pairwise fun a b ↦ a.1 < b.1

/-- The entries with one key given the value that is made of the one it had, if it had one. -/
def alter (key : String) (f : Option α → α) : List (String × α) → List (String × α)
  | [] => [(key, f none)]
  | (k, v) :: entries =>
    if key < k then (key, f none) :: (k, v) :: entries
    else if key = k then (key, f (some v)) :: entries
    else (k, v) :: alter key f entries

theorem insert_eq_alter (key : String) (value : α) (entries : List (String × α)) :
    Json.insert key value entries = alter key (fun _ ↦ value) entries := by
  induction entries with
  | nil => rfl
  | cons entry entries ih => simp only [Json.insert, alter, ih]

theorem append_eq_alter (name : String) (events : List Event) (datasets : Datasets) :
    datasets.append name events = alter name (fun old ↦ old.getD [] ++ events) datasets := by
  induction datasets with
  | nil => rfl
  | cons entry datasets ih =>
    obtain ⟨other, stored⟩ := entry
    rw [Datasets.append, alter, ih]
    split_ifs with hlt heq
    · rfl
    · rw [heq]
      rfl
    · rfl

theorem lookup_cons (k key : String) (value : α) (entries : List (String × α)) :
    List.lookup k ((key, value) :: entries) =
      if k = key then some value else entries.lookup k := by
  by_cases h : k = key
  · simp [h]
  · rw [List.lookup_cons, beq_eq_false_iff_ne.mpr h, if_neg h]

theorem mem_of_lookup {entries : List (String × α)} {key : String} {x : α}
    (h : entries.lookup key = some x) : (key, x) ∈ entries := by
  obtain ⟨before, after, rfl, -⟩ := List.lookup_eq_some_iff.mp h
  exact List.mem_append_right before List.mem_cons_self

theorem lookup_eq_none_of_not_mem {key : String} {entries : List (String × α)}
    (h : key ∉ entries.map Prod.fst) : entries.lookup key = none := by
  rw [Option.eq_none_iff_forall_ne_some]
  intro x hx
  exact h (List.mem_map_of_mem (f := Prod.fst) (mem_of_lookup hx))

theorem lookup_eq_none_of_lt {k : String} {entries : List (String × α)}
    (h : ∀ entry ∈ entries, k < entry.1) : entries.lookup k = none := by
  apply lookup_eq_none_of_not_mem
  intro hmem
  obtain ⟨entry, hentry, rfl⟩ := List.mem_map.mp hmem
  exact lt_irrefl _ (h entry hentry)

/-- Where no key occurs twice, it does not matter from which end it is looked up. -/
theorem lookup_reverse {entries : List (String × α)} (h : (entries.map Prod.fst).Nodup)
    (k : String) : entries.reverse.lookup k = entries.lookup k := by
  induction entries with
  | nil => rfl
  | cons entry entries ih =>
    obtain ⟨hfirst, hrest⟩ := List.nodup_cons.mp h
    rw [List.reverse_cons, List.lookup_append, ih hrest, lookup_cons, lookup_cons]
    split_ifs with hk
    · rw [hk, lookup_eq_none_of_not_mem hfirst]
      rfl
    · exact Option.or_none

namespace Ascending

variable {entries others : List (String × α)}

theorem nil : Ascending ([] : List (String × α)) :=
  List.Pairwise.nil

theorem cons_iff {entry : String × α} :
    Ascending (entry :: entries) ↔ (∀ other ∈ entries, entry.1 < other.1) ∧ Ascending entries :=
  List.pairwise_cons

theorem nodup_keys (h : Ascending entries) : (entries.map Prod.fst).Nodup :=
  List.pairwise_map.mpr (h.imp fun hlt ↦ hlt.ne)

theorem mem_iff (h : Ascending entries) {key : String} {value : α} :
    (key, value) ∈ entries ↔ entries.lookup key = some value := by
  induction entries with
  | nil => simp
  | cons entry entries ih =>
    obtain ⟨hfirst, hrest⟩ := cons_iff.mp h
    rw [lookup_cons, List.mem_cons]
    by_cases hkey : key = entry.1
    · have hnot : (key, value) ∉ entries := fun hmem ↦
        lt_irrefl entry.1 (hkey ▸ hfirst (key, value) hmem)
      rw [if_pos hkey, or_iff_left hnot, Prod.ext_iff, Option.some_inj, eq_comm (a := entry.2)]
      exact and_iff_right hkey
    · simp [hkey, ih hrest, Prod.ext_iff]

/-- The entries with a key are the one that looking up the key finds. -/
theorem filter_eq (h : Ascending entries) (key : String) :
    entries.filter (·.1 = key) = (entries.lookup key).toList.map (key, ·) := by
  induction entries with
  | nil => rfl
  | cons entry entries ih =>
    obtain ⟨hfirst, hrest⟩ := cons_iff.mp h
    obtain ⟨other, value⟩ := entry
    rw [lookup_cons]
    by_cases hkey : key = other
    · have hmore : entries.filter (·.1 = key) = [] := by
        refine List.filter_eq_nil_iff.mpr fun entry hentry ↦ ?_
        rw [decide_eq_true_eq, hkey]
        exact (hfirst entry hentry).ne'
      rw [if_pos hkey, List.filter_cons_of_pos (by simp [hkey]), hmore, hkey]
      rfl
    · rw [if_neg hkey, List.filter_cons_of_neg (by simpa using Ne.symm hkey), ih hrest]

theorem mem_keys_iff (h : Ascending entries) {key : String} :
    key ∈ entries.map Prod.fst ↔ (entries.lookup key).isSome := by
  rw [Option.isSome_iff_exists]
  simp only [List.mem_map, Prod.exists, exists_and_right, exists_eq_right, h.mem_iff]

/-- The entry in front has the least key. -/
theorem head_le (h : Ascending entries) {first entry : String × α}
    (hfirst : entries.head? = some first) (hentry : entry ∈ entries) : first.1 ≤ entry.1 := by
  cases entries with
  | nil => exact absurd hentry List.not_mem_nil
  | cons other entries =>
    obtain rfl := Option.some_inj.mp hfirst
    rcases List.mem_cons.mp hentry with rfl | hmem
    · exact le_refl _
    · exact ((cons_iff.mp h).1 entry hmem).le

/-- A list of entries in ascending order is determined by what looking up its keys finds. -/
theorem ext (h : Ascending entries) (hothers : Ascending others)
    (hlookup : ∀ key, entries.lookup key = others.lookup key) : entries = others := by
  have hmem : ∀ entry, entry ∈ entries ↔ entry ∈ others := by
    intro entry
    rw [← Prod.eta entry, h.mem_iff, hothers.mem_iff, hlookup]
  have hirrefl : ∀ a b : String × α, a.1 < b.1 → b.1 < a.1 → a = b := fun a b hab hba ↦
    absurd hab hba.asymm
  exact List.Perm.eq_of_pairwise (fun a b _ _ ↦ hirrefl a b) h hothers
    ((List.perm_ext_iff_of_nodup (h.imp fun hlt ↦ fun heq ↦ lt_irrefl _ (heq ▸ hlt))
      (hothers.imp fun hlt ↦ fun heq ↦ lt_irrefl _ (heq ▸ hlt))).mpr hmem)

end Ascending

theorem key_of_mem_alter {key : String} {f : Option α → α} {entries : List (String × α)}
    {entry : String × α} (h : entry ∈ alter key f entries) : entry.1 = key ∨ entry ∈ entries := by
  induction entries with
  | nil => exact Or.inl (by rw [List.mem_singleton.mp h])
  | cons first entries ih =>
    rw [alter] at h
    split_ifs at h with hlt heq
    · rcases List.mem_cons.mp h with rfl | hmem
      · exact Or.inl rfl
      · exact Or.inr hmem
    · rcases List.mem_cons.mp h with rfl | hmem
      · exact Or.inl rfl
      · exact Or.inr (List.mem_cons_of_mem first hmem)
    · rcases List.mem_cons.mp h with rfl | hmem
      · exact Or.inr List.mem_cons_self
      · exact (ih hmem).imp_right (List.mem_cons_of_mem first)

theorem Ascending.alter {entries : List (String × α)} (h : Ascending entries) (key : String)
    (f : Option α → α) : Ascending (alter key f entries) := by
  induction entries with
  | nil => exact List.pairwise_singleton _ _
  | cons first entries ih =>
    obtain ⟨hfirst, hrest⟩ := cons_iff.mp h
    rw [Intake.alter]
    split_ifs with hlt heq
    · refine cons_iff.mpr ⟨fun other hother ↦ ?_, h⟩
      rcases List.mem_cons.mp hother with rfl | hmem
      · exact hlt
      · exact hlt.trans (hfirst other hmem)
    · exact cons_iff.mpr ⟨heq ▸ hfirst, hrest⟩
    · refine cons_iff.mpr ⟨fun other hother ↦ ?_, ih hrest⟩
      rcases key_of_mem_alter hother with hkey | hmem
      · rw [hkey]
        exact lt_of_le_of_ne (not_lt.mp hlt) (Ne.symm heq)
      · exact hfirst other hmem

/-- Giving a key a value changes what is found under that key, and nothing else. -/
theorem lookup_alter {entries : List (String × α)} (h : Ascending entries) (key : String)
    (f : Option α → α) (k : String) :
    (alter key f entries).lookup k =
      if k = key then some (f (entries.lookup key)) else entries.lookup k := by
  induction entries with
  | nil => simp [alter, lookup_cons]
  | cons first entries ih =>
    obtain ⟨hfirst, hrest⟩ := Ascending.cons_iff.mp h
    obtain ⟨other, value⟩ := first
    rw [alter]
    by_cases hlt : key < other
    · have hnone : List.lookup key ((other, value) :: entries) = none :=
        lookup_eq_none_of_lt fun entry hentry ↦ by
          rcases List.mem_cons.mp hentry with rfl | hmem
          · exact hlt
          · exact hlt.trans (hfirst entry hmem)
      rw [if_pos hlt, lookup_cons k key, hnone]
    · rw [if_neg hlt]
      by_cases heq : key = other
      · subst heq
        rw [if_pos rfl, lookup_cons k, lookup_cons k, lookup_cons key, if_pos rfl]
        split_ifs <;> rfl
      · rw [if_neg heq, lookup_cons k, ih hrest, lookup_cons k, lookup_cons key, if_neg heq]
        by_cases hk : k = other
        · simp only [hk, if_true, if_neg (Ne.symm heq)]
        · simp only [if_neg hk]

end Intake
