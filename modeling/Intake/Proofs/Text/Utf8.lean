import Intake.Text.Utf8
import Mathlib.Tactic.Common

/-!
# UTF-8 read back

A byte string begins with the form of a character exactly when `front?` takes that character off it
(`front?_eq_some_iff`), so the byte strings that are UTF-8 throughout are the forms of lists of
characters (`decode?_eq_some_iff`). The first byte of a form of several bytes is no continuation,
and all the others are (`utf8EncodeChar_eq_cons`).
-/

set_option autoImplicit false
set_option relaxedAutoImplicit false

namespace Intake.Utf8

@[simp] theorem encode_nil : encode [] = [] :=
  rfl

@[simp] theorem encode_cons (c : Char) (text : List Char) :
    encode (c :: text) = String.utf8EncodeChar c ++ encode text :=
  rfl

@[simp] theorem encode_append (first second : List Char) :
    encode (first ++ second) = encode first ++ encode second :=
  List.flatMap_append

/-! ### Forms of characters -/

/-- The byte of a character below U+0080. -/
theorem utf8EncodeChar_of_lt {c : Char} (h : c.toNat < 0x80) :
    String.utf8EncodeChar c = [c.toUInt8] := by
  have hle : c.val.toNat ≤ 0x7f := Nat.le_of_lt_succ h
  rw [String.utf8EncodeChar, if_pos hle]
  rfl

theorem toNat_lt (c : Char) : c.toNat < 0x110000 := by
  rcases c.valid with h | h
  · exact Nat.lt_trans h (by decide)
  · exact h.2

theorem utf8EncodeChar_of_lt_two {c : Char} (h : 0x80 ≤ c.toNat) (hlt : c.toNat < 0x800) :
    String.utf8EncodeChar c =
      [UInt8.ofNat (c.toNat / 64 + 0xC0), UInt8.ofNat (c.toNat % 64 + 0x80)] := by
  have hmod : c.toNat / 64 % 0x20 = c.toNat / 64 := Nat.mod_eq_of_lt (by omega)
  rw [← Char.toNat_val] at h hlt hmod ⊢
  rw [String.utf8EncodeChar, if_neg (by omega), if_pos (by omega), hmod]

theorem utf8EncodeChar_of_lt_three {c : Char} (h : 0x800 ≤ c.toNat) (hlt : c.toNat < 0x10000) :
    String.utf8EncodeChar c =
      [UInt8.ofNat (c.toNat / 4096 + 0xE0), UInt8.ofNat (c.toNat / 64 % 64 + 0x80),
        UInt8.ofNat (c.toNat % 64 + 0x80)] := by
  have hmod : c.toNat / 4096 % 0x10 = c.toNat / 4096 := Nat.mod_eq_of_lt (by omega)
  rw [← Char.toNat_val] at h hlt hmod ⊢
  rw [String.utf8EncodeChar, if_neg (by omega), if_neg (by omega), if_pos (by omega), hmod]

theorem utf8EncodeChar_of_le_four {c : Char} (h : 0x10000 ≤ c.toNat) :
    String.utf8EncodeChar c =
      [UInt8.ofNat (c.toNat / 262144 + 0xF0), UInt8.ofNat (c.toNat / 4096 % 64 + 0x80),
        UInt8.ofNat (c.toNat / 64 % 64 + 0x80), UInt8.ofNat (c.toNat % 64 + 0x80)] := by
  have hlt := toNat_lt c
  have hmod : c.toNat / 262144 % 0x08 = c.toNat / 262144 := Nat.mod_eq_of_lt (by omega)
  rw [← Char.toNat_val] at h hlt hmod ⊢
  rw [String.utf8EncodeChar, if_neg (by omega), if_neg (by omega), if_neg (by omega), hmod]

theorem toNat_ofNat {n : Nat} (h : n < 0x100) : (UInt8.ofNat n).toNat = n :=
  UInt8.toNat_ofNat_of_lt' h

/-- A byte that only goes on with a form. -/
def Continues (b : UInt8) : Prop :=
  0x80 ≤ b.toNat ∧ b.toNat < 0xC0

theorem continues_ofNat {n : Nat} (h : n < 0x40) : Continues (UInt8.ofNat (n + 0x80)) := by
  rw [Continues, toNat_ofNat (by omega)]
  omega

/-- A form has a first byte, which goes on with no other form, and bytes that do. -/
theorem utf8EncodeChar_eq_cons (c : Char) :
    ∃ first more, String.utf8EncodeChar c = first :: more ∧ ¬ Continues first ∧
      (∀ b ∈ more, Continues b) ∧ (0x80 ≤ c.toNat → 0x80 ≤ first.toNat) := by
  have hlt := toNat_lt c
  by_cases h1 : c.toNat < 0x80
  · have hbyte : c.toUInt8.toNat = c.toNat := toNat_ofNat (n := c.toNat) (by omega)
    refine ⟨_, _, utf8EncodeChar_of_lt h1, ?_, by simp, fun hle ↦ absurd h1 (Nat.not_lt.mpr hle)⟩
    rw [Continues, hbyte]
    omega
  by_cases h2 : c.toNat < 0x800
  · refine ⟨_, _, utf8EncodeChar_of_lt_two (by omega) h2, ?_, ?_, fun _ ↦ ?_⟩
    · rw [Continues, toNat_ofNat (by omega)]
      omega
    · rw [List.forall_mem_singleton]
      exact continues_ofNat (by omega)
    · rw [toNat_ofNat (by omega)]
      omega
  by_cases h3 : c.toNat < 0x10000
  · refine ⟨_, _, utf8EncodeChar_of_lt_three (by omega) h3, ?_, ?_, fun _ ↦ ?_⟩
    · rw [Continues, toNat_ofNat (by omega)]
      omega
    · rw [List.forall_mem_cons, List.forall_mem_singleton]
      exact ⟨continues_ofNat (by omega), continues_ofNat (by omega)⟩
    · rw [toNat_ofNat (by omega)]
      omega
  · refine ⟨_, _, utf8EncodeChar_of_le_four (by omega), ?_, ?_, fun _ ↦ ?_⟩
    · rw [Continues, toNat_ofNat (by omega)]
      omega
    · rw [List.forall_mem_cons, List.forall_mem_cons, List.forall_mem_singleton]
      exact ⟨continues_ofNat (by omega), continues_ofNat (by omega), continues_ofNat (by omega)⟩
    · rw [toNat_ofNat (by omega)]
      omega

/-! ### The first character -/

theorem tail?_eq_some_iff {b : UInt8} {k : Nat} :
    tail? b = some k ↔ k < 0x40 ∧ b.toNat = k + 0x80 := by
  unfold tail?
  split_ifs with h
  · simp only [UInt8.le_iff_toNat_le, UInt8.reduceToNat] at h
    rw [Option.some_inj]
    omega
  · simp only [UInt8.le_iff_toNat_le, UInt8.reduceToNat, not_and] at h
    simp only [false_iff]
    omega

theorem scalar?_eq_some_iff {least n : Nat} {c : Char} :
    scalar? least n = some c ↔ c.toNat = n ∧ least ≤ n := by
  by_cases hvalid : n.isValidChar
  · rw [scalar?, dif_pos hvalid]
    by_cases hleast : least ≤ n
    · rw [if_pos hleast, Option.some_inj, ← Char.toNat_inj, eq_comm (a := c.toNat)]
      exact (and_iff_left hleast).symm
    · rw [if_neg hleast]
      exact iff_of_false (by simp) fun h ↦ hleast h.2
  · rw [scalar?, dif_neg hvalid]
    refine iff_of_false (by simp) ?_
    rintro ⟨rfl, -⟩
    exact hvalid c.valid

theorem tail?_ofNat {k : Nat} (h : k < 0x40) : tail? (UInt8.ofNat (k + 0x80)) = some k :=
  tail?_eq_some_iff.mpr ⟨h, toNat_ofNat (by omega)⟩

theorem scalar?_eq_some {least n : Nat} {c : Char} (hn : n = c.toNat) (h : least ≤ c.toNat) :
    scalar? least n = some c :=
  scalar?_eq_some_iff.mpr ⟨hn.symm, hn ▸ h⟩

/-- The form of a character is taken off the front as that character. -/
theorem front?_utf8EncodeChar (c : Char) (rest : Bytes) :
    front? (String.utf8EncodeChar c ++ rest) = some (c, rest) := by
  have hlt := toNat_lt c
  by_cases h1 : c.toNat < 0x80
  · have ha : c.toUInt8.toNat = c.toNat := toNat_ofNat (n := c.toNat) (by omega)
    rw [utf8EncodeChar_of_lt h1]
    simp only [front?, List.cons_append, List.nil_append, UInt8.lt_iff_toNat_lt, ha,
      UInt8.reduceToNat]
    rw [if_pos h1, scalar?_eq_some rfl (Nat.zero_le _)]
    rfl
  by_cases h2 : c.toNat < 0x800
  · have ha : (UInt8.ofNat (c.toNat / 64 + 0xC0)).toNat = c.toNat / 64 + 0xC0 :=
      toNat_ofNat (by omega)
    rw [utf8EncodeChar_of_lt_two (by omega) h2]
    simp only [front?, List.cons_append, List.nil_append, UInt8.lt_iff_toNat_lt, ha,
      UInt8.reduceToNat]
    rw [if_neg (by omega), if_neg (by omega), if_pos (by omega), tail?_ofNat (by omega)]
    simp only [Option.bind_eq_bind, Option.bind_some]
    rw [scalar?_eq_some (c := c) (by omega) (by omega)]
    rfl
  by_cases h3 : c.toNat < 0x10000
  · have ha : (UInt8.ofNat (c.toNat / 4096 + 0xE0)).toNat = c.toNat / 4096 + 0xE0 :=
      toNat_ofNat (by omega)
    rw [utf8EncodeChar_of_lt_three (by omega) h3]
    simp only [front?, List.cons_append, List.nil_append, UInt8.lt_iff_toNat_lt, ha,
      UInt8.reduceToNat]
    rw [if_neg (by omega), if_neg (by omega), if_neg (by omega), if_pos (by omega),
      tail?_ofNat (by omega), tail?_ofNat (by omega)]
    simp only [Option.bind_eq_bind, Option.bind_some]
    rw [scalar?_eq_some (c := c) (by omega) (by omega)]
    rfl
  · have ha : (UInt8.ofNat (c.toNat / 262144 + 0xF0)).toNat = c.toNat / 262144 + 0xF0 :=
      toNat_ofNat (by omega)
    rw [utf8EncodeChar_of_le_four (by omega)]
    simp only [front?, List.cons_append, List.nil_append, UInt8.lt_iff_toNat_lt, ha,
      UInt8.reduceToNat]
    rw [if_neg (by omega), if_neg (by omega), if_neg (by omega), if_neg (by omega),
      tail?_ofNat (by omega), tail?_ofNat (by omega), tail?_ofNat (by omega)]
    simp only [Option.bind_eq_bind, Option.bind_some]
    rw [scalar?_eq_some (c := c) (by omega) (by omega)]
    rfl

/-- What is taken off the front as a character is the form of that character. -/
theorem eq_of_front? {s rest : Bytes} {c : Char} (h : front? s = some (c, rest)) :
    s = String.utf8EncodeChar c ++ rest := by
  have hbyte : ∀ {b : UInt8} {n : Nat}, b.toNat = n → b = UInt8.ofNat n := fun hn ↦ by
    rw [← hn, UInt8.ofNat_toNat]
  unfold front? at h
  split at h
  · simp at h
  rename_i a s
  have ha := a.toNat_lt
  simp only [UInt8.lt_iff_toNat_lt, UInt8.reduceToNat] at h
  split_ifs at h with h1 h2 h3 h4
  · obtain ⟨c, hc, heq⟩ := Option.map_eq_some_iff.mp h
    obtain ⟨rfl, rfl⟩ := Prod.mk.inj heq
    obtain ⟨hc, -⟩ := scalar?_eq_some_iff.mp hc
    rw [utf8EncodeChar_of_lt (hc ▸ h1), hbyte hc.symm]
    rfl
  · split at h
    · simp only [Option.bind_eq_bind, Option.bind_eq_some_iff, Option.pure_def, Option.some_inj,
        Prod.mk.injEq, tail?_eq_some_iff, scalar?_eq_some_iff] at h
      obtain ⟨m, ⟨hm, hb⟩, c, ⟨hc, hleast⟩, rfl, rfl⟩ := h
      rw [utf8EncodeChar_of_lt_two (by omega) (by omega),
        hbyte (b := a) (n := c.toNat / 64 + 0xC0) (by omega),
        hbyte (n := c.toNat % 64 + 0x80) (hb.trans (by omega))]
      rfl
    · simp at h
  · split at h
    · simp only [Option.bind_eq_bind, Option.bind_eq_some_iff, Option.pure_def, Option.some_inj,
        Prod.mk.injEq, tail?_eq_some_iff, scalar?_eq_some_iff] at h
      obtain ⟨m, ⟨hm, hb⟩, n, ⟨hn, hd⟩, c, ⟨hc, hleast⟩, rfl, rfl⟩ := h
      rw [utf8EncodeChar_of_lt_three (by omega) (by omega),
        hbyte (b := a) (n := c.toNat / 4096 + 0xE0) (by omega),
        hbyte (n := c.toNat / 64 % 64 + 0x80) (hb.trans (by omega)),
        hbyte (n := c.toNat % 64 + 0x80) (hd.trans (by omega))]
      rfl
    · simp at h
  · split at h
    · simp only [Option.bind_eq_bind, Option.bind_eq_some_iff, Option.pure_def, Option.some_inj,
        Prod.mk.injEq, tail?_eq_some_iff, scalar?_eq_some_iff] at h
      obtain ⟨m, ⟨hm, hb⟩, n, ⟨hn, hd⟩, k, ⟨hk, he⟩, c, ⟨hc, hleast⟩, rfl, rfl⟩ := h
      rw [utf8EncodeChar_of_le_four (by omega),
        hbyte (b := a) (n := c.toNat / 262144 + 0xF0) (by omega),
        hbyte (n := c.toNat / 4096 % 64 + 0x80) (hb.trans (by omega)),
        hbyte (n := c.toNat / 64 % 64 + 0x80) (hd.trans (by omega)),
        hbyte (n := c.toNat % 64 + 0x80) (he.trans (by omega))]
      rfl
    · simp at h

theorem front?_eq_some_iff {s rest : Bytes} {c : Char} :
    front? s = some (c, rest) ↔ s = String.utf8EncodeChar c ++ rest :=
  ⟨eq_of_front?, fun h ↦ h ▸ front?_utf8EncodeChar c rest⟩

/-! ### Whole texts -/

theorem wellFormedOnto_encode (read text : List Char) :
    wellFormedOnto read (encode text) = (read.reverse ++ text, []) := by
  induction text generalizing read with
  | nil => rw [encode_nil, wellFormedOnto, List.append_nil]; rfl
  | cons c text ih =>
    rw [encode_cons, wellFormedOnto]
    split
    · rename_i heq
      obtain ⟨rfl, rfl⟩ :=
        Prod.mk.inj (Option.some_inj.mp ((front?_utf8EncodeChar c _).symm.trans heq))
      rw [ih, List.reverse_cons, List.append_assoc]
      rfl
    · rename_i heq
      rw [front?_utf8EncodeChar] at heq
      exact absurd heq (by simp)

theorem eq_encode_of_wellFormedOnto {read text : List Char} {s : Bytes}
    (h : wellFormedOnto read s = (text, [])) :
    ∃ more, text = read.reverse ++ more ∧ s = encode more := by
  fun_induction wellFormedOnto read s with
  | case1 read s c rest hfront ih =>
    obtain ⟨more, rfl, rfl⟩ := ih h
    exact ⟨c :: more, by simp, eq_of_front? hfront⟩
  | case2 read s hfront =>
    obtain ⟨rfl, rfl⟩ := Prod.mk.inj h
    exact ⟨[], by simp, rfl⟩

theorem wellFormed_eq_iff {s : Bytes} {text : List Char} :
    wellFormed s = (text, []) ↔ s = encode text := by
  constructor
  · intro h
    obtain ⟨more, rfl, rfl⟩ := eq_encode_of_wellFormedOnto h
    rfl
  · rintro rfl
    exact wellFormedOnto_encode [] text

/-- The byte strings that are UTF-8 are the forms of texts. -/
theorem decode?_eq_some_iff {s : Bytes} {text : List Char} :
    decode? s = some text ↔ s = encode text := by
  rw [← wellFormed_eq_iff, decode?]
  split
  · rename_i found heq
    rw [heq, Option.some_inj, Prod.mk.injEq, and_iff_left rfl]
  · rename_i hne
    exact iff_of_false (by simp) (hne text)

theorem encode_injective {first second : List Char} (h : encode first = encode second) :
    first = second :=
  Option.some_inj.mp ((decode?_eq_some_iff.mpr rfl).symm.trans (decode?_eq_some_iff.mpr h))

end Intake.Utf8
