import Intake.Proofs.Zstd.Integrity
import Intake.Proofs.Zstd.Writing

/-!
# Zstandard frames that are written are read

A frame that is written and keeps to the limits is decoded as its content unless something else is
taken for it, for which a portion has to end inside its header and what is left of the header has to
begin like a frame. There is one header of which this is so: behind its first four bytes it reads
like that of a skippable frame (`Layout.IsAmbiguous`). No other part of a header begins a frame
(`isAmbiguous_of_begins`). So in front of skippable frames and behind them a frame that is written
is decoded as its content, except for that one in that place, and for a single segment that is
larger than the largest window (`decode_written`).
-/

set_option autoImplicit false
set_option relaxedAutoImplicit false

namespace Intake.Zstd

/-! ### Where a frame can begin -/

/-- The first four bytes of a frame. -/
def IsMark (b₀ b₁ b₂ b₃ : UInt8) : Prop :=
  (b₀ = 0x28 ∧ b₁ = 0xB5 ∧ b₂ = 0x2F ∧ b₃ = 0xFD) ∨
    (0x50 ≤ b₀ ∧ b₀ ≤ 0x5F ∧ b₁ = 0x2A ∧ b₂ = 0x4D ∧ b₃ = 0x18)

/-- A byte string begins like a frame. -/
def Begins (s : Bytes) : Prop :=
  ∃ b₀ b₁ b₂ b₃ more, s = b₀ :: b₁ :: b₂ :: b₃ :: more ∧ IsMark b₀ b₁ b₂ b₃

/-- No byte of a mark is small. -/
theorem IsMark.lt {b₀ b₁ b₂ b₃ : UInt8} (h : IsMark b₀ b₁ b₂ b₃) :
    0x20 < b₀ ∧ 0x20 < b₁ ∧ 0x20 < b₂ ∧ 0x10 < b₃ := by
  obtain ⟨rfl, rfl, rfl, rfl⟩ | ⟨hlow, -, rfl, rfl, rfl⟩ := h
  · decide
  · exact ⟨UInt8.lt_of_lt_of_le (by decide) hlow, by decide, by decide, by decide⟩

theorem begins_of_readStart {s rest : Bytes} {start : Start}
    (hstart : readStart s = .ok (start, rest)) : Begins s := by
  obtain ⟨mark, s₁, hmark, hrest⟩ := readStart_eq_ok_iff.mp hstart
  obtain ⟨hlength, rfl⟩ := part_eq_ok_iff.mp hmark
  obtain ⟨rfl, -⟩ | ⟨-, hskips, -⟩ := hrest
  · exact ⟨0x28, 0xB5, 0x2F, 0xFD, s₁, rfl, .inl ⟨rfl, rfl, rfl, rfl⟩⟩
  · obtain ⟨first, hlow, hhigh, rfl⟩ := (startsSkippable_iff hlength).mp hskips
    exact ⟨first, 0x2A, 0x4D, 0x18, s₁, rfl, .inr ⟨hlow, hhigh, rfl, rfl, rfl⟩⟩

/-- A frame of which all bytes are there begins like one. -/
theorem begins_of_frameSize? {s : Bytes} {n : Nat} (hsize : frameSize? s = some n) : Begins s := by
  obtain ⟨_, _, _, _, hstart, -⟩ | ⟨_, _, _, hstart, -⟩ := frameSize?_eq_some_iff.mp hsize
  · exact begins_of_readStart hstart
  · exact begins_of_readStart hstart

theorem Begins.first {b : UInt8} {s : Bytes} (h : Begins (b :: s)) :
    b = 0x28 ∨ 0x50 ≤ b ∧ b ≤ 0x5F := by
  obtain ⟨b₀, b₁, b₂, b₃, more, heq, ⟨hfirst, -⟩ | ⟨hlow, hhigh, -⟩⟩ := h
  · exact .inl ((List.cons.inj heq).1.trans hfirst)
  · obtain ⟨rfl, -⟩ := List.cons.inj heq
    exact .inr ⟨hlow, hhigh⟩

theorem not_begins_of_first {b : UInt8} {s : Bytes} (hsmall : b ≤ 0x20) : ¬ Begins (b :: s) := by
  rintro ⟨b₀, b₁, b₂, b₃, more, heq, hmark⟩
  obtain ⟨rfl, -⟩ := List.cons.inj heq
  exact UInt8.not_lt.mpr hsmall hmark.lt.1

theorem not_begins_of_second {a b : UInt8} {s : Bytes} (hsmall : b ≤ 0x20) :
    ¬ Begins (a :: b :: s) := by
  rintro ⟨b₀, b₁, b₂, b₃, more, heq, hmark⟩
  obtain ⟨-, heq⟩ := List.cons.inj heq
  obtain ⟨rfl, -⟩ := List.cons.inj heq
  exact UInt8.not_lt.mpr hsmall hmark.lt.2.1

theorem not_begins_of_third {a b c : UInt8} {s : Bytes} (hsmall : c ≤ 0x20) :
    ¬ Begins (a :: b :: c :: s) := by
  rintro ⟨b₀, b₁, b₂, b₃, more, heq, hmark⟩
  obtain ⟨-, heq⟩ := List.cons.inj heq
  obtain ⟨-, heq⟩ := List.cons.inj heq
  obtain ⟨rfl, -⟩ := List.cons.inj heq
  exact UInt8.not_lt.mpr hsmall hmark.lt.2.2.1

theorem not_begins_of_fourth {a b c d : UInt8} {s : Bytes} (hsmall : d ≤ 0x10) :
    ¬ Begins (a :: b :: c :: d :: s) := by
  rintro ⟨b₀, b₁, b₂, b₃, more, heq, hmark⟩
  obtain ⟨-, heq⟩ := List.cons.inj heq
  obtain ⟨-, heq⟩ := List.cons.inj heq
  obtain ⟨-, heq⟩ := List.cons.inj heq
  obtain ⟨rfl, -⟩ := List.cons.inj heq
  exact UInt8.not_lt.mpr hsmall hmark.lt.2.2.2

theorem not_begins_zeros {m i : Nat} (hi : i < m) (s : Bytes) :
    ¬ Begins ((List.replicate m 0 ++ s).drop i) := by
  have hdrop : (List.replicate m 0 ++ s).drop i = 0 :: (List.replicate (m - i - 1) 0 ++ s) := by
    rw [List.drop_append_of_le_length (by simpa using Nat.le_of_lt hi), List.drop_replicate,
      ← List.cons_append, ← List.replicate_succ, Nat.sub_add_cancel (by omega)]
  rw [hdrop]
  exact not_begins_of_first (by decide)

/-! ### Parts of a header -/

namespace Layout

variable {layout : Layout} {n : Nat}

/-- Behind its first four bytes the header reads like that of a skippable frame. -/
structure IsAmbiguous (layout : Layout) (n : Nat) : Prop where
  window : layout.window = some 0x2A
  sizeFlag : layout.sizeFlag = 1
  unused : layout.unused = true
  dictionaryFlag : layout.dictionaryFlag = 0
  length : n = 6477

theorem sizeWidths_cases : ∀ (single : Bool) (sizeFlag : Fin 4),
    sizeWidths single sizeFlag = 0 ∨ sizeWidths single sizeFlag = 1 ∧ single = true ∨
      2 ≤ sizeWidths single sizeFlag := by
  decide

/-- The field for a small size has one byte, or its second byte is small and those behind it are
zeros. -/
theorem exists_sizeBytes (hwidth : layout.sizeWidth ≠ 0) (hn : n ≤ offered) :
    (layout.window = none ∧ ∃ x, layout.sizeBytes n = [x]) ∨
      ∃ x y m, layout.sizeBytes n = x :: y :: List.replicate m 0 ∧ y ≤ 0x20 := by
  obtain hnone | ⟨hone, hsingle⟩ | htwo := sizeWidths_cases layout.window.isNone layout.sizeFlag
  · exact absurd hnone hwidth
  · rw [← sizeWidth] at hone
    exact .inl ⟨Option.isNone_iff_eq_none.mp hsingle, n.toUInt8, by rw [sizeBytes, hone]; rfl⟩
  · rw [← sizeWidth] at htwo
    rw [offered] at hn
    obtain ⟨m, hm⟩ := Nat.exists_eq_add_of_le' htwo
    generalize hvalue : (if layout.sizeWidth = 2 then n - 256 else n) = value
    have hsmall : value ≤ 8192 := by
      rw [← hvalue]
      split <;> omega
    refine .inr ⟨value.toUInt8, (value / 256).toUInt8, m, ?_, ?_⟩
    · have hzero : value / 256 / 256 = 0 := by omega
      rw [sizeBytes, hvalue, hm, Bytes.ofNumber, Bytes.ofNumber, hzero, Bytes.ofNumber_zero]
    · rw [UInt8.le_iff_toNat_le]
      simp only [Nat.toUInt8_eq, UInt8.toNat_ofNat']
      have : (0x20 : UInt8).toNat = 32 := rfl
      omega

section Parts

variable {b₀ b₁ b₂ : UInt8} {more : Bytes}

/-- No frame begins inside the field for a small size. -/
theorem not_begins_size (hwidth : layout.sizeWidth ≠ 0) (hn : n ≤ offered) (hthird : b₂ ≤ 0x10)
    {i : Nat} (hi : i < (layout.sizeBytes n).length) :
    ¬ Begins ((layout.sizeBytes n ++ b₀ :: b₁ :: b₂ :: more).drop i) := by
  obtain ⟨-, x, hx⟩ | ⟨x, y, m, hxy, hsmall⟩ := exists_sizeBytes hwidth hn
  · rw [hx] at hi ⊢
    obtain rfl : i = 0 := by simpa using hi
    exact not_begins_of_fourth hthird
  · rw [hxy] at hi ⊢
    match i with
    | 0 => exact not_begins_of_second hsmall
    | 1 => exact not_begins_of_first hsmall
    | i + 2 => exact not_begins_zeros (by simpa using hi) _

/-- No frame begins behind the window. -/
theorem not_begins_fields (hwidth : layout.sizeWidth ≠ 0) (hn : n ≤ offered) (hthird : b₂ ≤ 0x10)
    {m i : Nat} (hi : i < m + (layout.sizeBytes n).length) :
    ¬ Begins ((List.replicate m 0 ++ (layout.sizeBytes n ++ b₀ :: b₁ :: b₂ :: more)).drop i) := by
  by_cases hzeros : i < m
  · exact not_begins_zeros hzeros _
  · obtain ⟨j, rfl⟩ := Nat.exists_eq_add_of_le (Nat.not_lt.mp hzeros)
    have hdrop : (List.replicate m 0 ++ (layout.sizeBytes n ++ b₀ :: b₁ :: b₂ :: more)).drop
        (m + j) = (layout.sizeBytes n ++ b₀ :: b₁ :: b₂ :: more).drop j := by
      rw [← List.drop_drop, List.drop_left' List.length_replicate]
    rw [hdrop]
    exact not_begins_size hwidth hn hthird (by omega)

/-- No frame begins with the descriptor of the window. -/
theorem not_begins_window (hwidth : layout.sizeWidth ≠ 0) (hn : n ≤ offered)
    {window : UInt8} (hwindow : layout.window = some window) (m : Nat) (s : Bytes) :
    ¬ Begins (window :: (List.replicate m 0 ++ (layout.sizeBytes n ++ s))) := by
  cases m with
  | zero =>
    obtain ⟨hnone, -⟩ | ⟨x, y, m, hxy, hsmall⟩ := exists_sizeBytes hwidth hn
    · simp [hwindow] at hnone
    · rw [hxy]
      exact not_begins_of_third hsmall
  | succ m => exact not_begins_of_second (by decide)

theorem flags_of_mark : ∀ (sizeFlag : Fin 4) (single unused hasChecksum : Bool)
    (dictionaryFlag : Fin 4),
    let descriptor := flags sizeFlag single unused hasChecksum dictionaryFlag
    descriptor ≠ 0x28 ∧ (0x50 ≤ descriptor → descriptor ≤ 0x5F →
      single = false ∧ sizeFlag = 1 ∧ unused = true) := by
  decide

/-- If a frame begins with the descriptor, the header is the ambiguous one. -/
theorem isAmbiguous_of_descriptor (hlegal : layout.IsLegal n) (hwidth : layout.sizeWidth ≠ 0)
    {s : Bytes} (hbegins : Begins (layout.descriptor :: (layout.window.toList ++
      (List.replicate (dictionaryWidths layout.dictionaryFlag) 0 ++ (layout.sizeBytes n ++ s))))) :
    layout.IsAmbiguous n := by
  obtain ⟨c₀, c₁, c₂, c₃, tail, heq, hmark⟩ := hbegins
  obtain ⟨hne, hflags⟩ := flags_of_mark layout.sizeFlag layout.window.isNone layout.unused
    layout.hasChecksum layout.dictionaryFlag
  rw [← descriptor] at hne hflags
  obtain ⟨rfl, hrest⟩ := List.cons.inj heq
  obtain ⟨hfirst, -⟩ | ⟨hlow, hhigh, rfl, rfl, rfl⟩ := hmark
  · exact absurd hfirst hne
  · obtain ⟨hsingle, hflag, hunused⟩ := hflags hlow hhigh
    cases hwindow : layout.window with
    | none => simp [hwindow] at hsingle
    | some window =>
      rw [hwindow, Option.toList_some, List.singleton_append] at hrest
      obtain ⟨rfl, hfields⟩ := List.cons.inj hrest
      have htwo : layout.sizeWidth = 2 := by rw [sizeWidth, hwindow, hflag]; rfl
      have hlength : (layout.sizeBytes n).length = 2 := by
        rw [sizeBytes, Bytes.length_ofNumber, htwo]
      have hdictionary : dictionaryWidths layout.dictionaryFlag = 0 := by
        by_contra hsome
        obtain ⟨m, hm⟩ := Nat.exists_eq_succ_of_ne_zero hsome
        rw [hm, List.replicate_succ, List.cons_append] at hfields
        exact absurd (List.cons.inj hfields).1 (by decide)
      have hnone : ∀ flag : Fin 4, dictionaryWidths flag = 0 → flag = 0 := by decide
      rw [hdictionary, List.replicate_zero, List.nil_append] at hfields
      have hfield : layout.sizeBytes n = [0x4D, 0x18] :=
        (List.append_inj hfields hlength).1
      have hsize := sizeField_sizeBytes hlegal.size hwidth
      rw [hfield] at hsize
      exact ⟨hwindow, hflag, hunused, hnone _ hdictionary, hsize.symm⟩

/-- A frame begins inside the header of a small frame only behind the first four bytes of the
ambiguous one. -/
theorem isAmbiguous_of_begins (hlegal : layout.IsLegal n) (hwidth : layout.sizeWidth ≠ 0)
    (hn : n ≤ offered) (hthird : b₂ ≤ 0x10) {k : Nat} (hk : k ≠ 0)
    (hinside : k < (layout.bytes n).length)
    (hbegins : Begins ((layout.bytes n ++ b₀ :: b₁ :: b₂ :: more).drop k)) :
    k = 4 ∧ layout.IsAmbiguous n := by
  have hbytes : layout.bytes n ++ b₀ :: b₁ :: b₂ :: more = 0x28 :: 0xB5 :: 0x2F :: 0xFD ::
      layout.descriptor :: (layout.window.toList ++
        (List.replicate (dictionaryWidths layout.dictionaryFlag) 0 ++
          (layout.sizeBytes n ++ b₀ :: b₁ :: b₂ :: more))) := by
    simp [bytes, frameMark]
  have hlength : (layout.bytes n).length = 5 + layout.window.toList.length +
      (dictionaryWidths layout.dictionaryFlag + (layout.sizeBytes n).length) := by
    simp [bytes, frameMark]
    omega
  rw [hbytes] at hbegins
  obtain _ | _ | _ | _ | _ | k := k
  · exact absurd rfl hk
  · exact absurd hbegins.first (by decide)
  · exact absurd hbegins.first (by decide)
  · exact absurd hbegins.first (by decide)
  · exact ⟨rfl, isAmbiguous_of_descriptor hlegal hwidth hbegins⟩
  · cases hwindow : layout.window with
    | none =>
      rw [hwindow] at hbegins hlength
      exact absurd hbegins (not_begins_fields hwidth hn hthird (by simp at hlength; omega))
    | some window =>
      rw [hwindow] at hbegins hlength
      cases k with
      | zero => exact absurd hbegins (not_begins_window hwidth hn hwindow _ _)
      | succ k =>
        exact absurd hbegins (not_begins_fields hwidth hn hthird (by simp at hlength; omega))

end Parts

end Layout

/-! ### Bodies -/

/-- The third byte of some blocks is small, because blocks are. -/
theorem PlainBlock.exists_written {limit : Nat} {blocks : List PlainBlock} (hne : blocks ≠ [])
    (hblocks : ∀ block ∈ blocks, block.IsLegal limit) (hlimit : limit ≤ longestBlock) :
    ∃ b₀ b₁ b₂ more, written blocks = b₀ :: b₁ :: b₂ :: more ∧ b₂ ≤ 0x10 := by
  cases blocks with
  | nil => exact absurd rfl hne
  | cons block blocks =>
    have hlength := Nat.le_trans (hblocks block List.mem_cons_self).length_le hlimit
    have hlast := (blocks.isEmpty).toNat_le
    have hkind := block.kindNumber_le
    rw [longestBlock] at hlength
    refine ⟨_, _, _, _, rfl, ?_⟩
    rw [UInt8.le_iff_toNat_le, number]
    simp only [Nat.toUInt8_eq, UInt8.toNat_ofNat']
    have : (0x10 : UInt8).toNat = 16 := rfl
    omega

section Bodies

variable {layout : Layout} {blocks : List PlainBlock} {raw : Bytes}

/-- Nothing else is taken for a frame that is written, except where the ambiguous header is cut
behind its first four bytes and what is left of it begins a skippable frame that is there. -/
theorem not_isMistaken_written {n place : Nat} {body : Bytes} (hlegal : layout.IsLegal n)
    (hthird : ∃ b₀ b₁ b₂ more, body = b₀ :: b₁ :: b₂ :: more ∧ b₂ ≤ 0x10)
    (hclear : layout.IsAmbiguous n → place % portion = portion - 4 →
      ∀ size, frameSize? ((layout.bytes n ++ body).drop 4) = some size → portion < size) :
    ¬ IsMistaken place (layout.bytes n ++ body) := by
  rintro ⟨h, rest, hstart, hborder, htakes⟩
  have hread := Layout.readStart_bytes hlegal body
  simp only [hread, Except.ok.injEq, Prod.mk.injEq, Start.frame.injEq] at hstart
  obtain ⟨rfl, rfl⟩ := hstart
  obtain ⟨b₀, b₁, b₂, more, rfl, hthird⟩ := hthird
  rw [List.length_append, Nat.add_sub_cancel] at hborder htakes
  obtain ⟨hskipped, hinside⟩ := behindBorder_of_ne_zero hborder
  rw [takesWhole, hskipped, Bool.and_eq_true] at htakes
  obtain ⟨hsmall, hthere⟩ := htakes
  obtain ⟨size, hsize, hfits⟩ := (Option.any_eq_true _ _).mp hthere
  obtain ⟨declared, hdeclared, hroom⟩ := (Option.any_eq_true _ _).mp hsmall
  have hwidth : layout.sizeWidth ≠ 0 := by
    intro hzero
    rw [Layout.header, Layout.sizeBytes, hzero, Bytes.ofNumber, declaredSize,
      if_pos (.inl rfl)] at hdeclared
    simp at hdeclared
  have hn : n ≤ offered := by
    have hsame := Layout.fits_header hlegal.size
    rw [Header.fits, hdeclared, Option.all_some, decide_eq_true_eq] at hsame
    exact hsame ▸ of_decide_eq_true hroom
  obtain ⟨hfour, hambiguous⟩ := Layout.isAmbiguous_of_begins hlegal hwidth hn hthird
    (Nat.ne_of_gt (ahead_pos place)) hinside (begins_of_frameSize? hsize)
  rw [hfour] at hsize hfits
  rw [ahead, portion] at hfour
  have hplace : place % portion = portion - 4 := by
    rw [portion]
    omega
  have hlarge := hclear hambiguous hplace size hsize
  have hmost : ahead (place + 4) ≤ portion := Nat.sub_le _ _
  have := of_decide_eq_true hfits
  omega

/-- In frames one behind the other frames begin where one of them does. -/
theorem isClear_flatten {place : Nat} {frames : List Bytes}
    (hsizes : ∀ s ∈ frames, frameSize? s = some s.length)
    (hclear : ∀ before s after, frames = before ++ s :: after →
      ¬ IsMistaken (place + before.flatten.length) (s ++ after.flatten)) :
    IsClear place frames.flatten := by
  induction frames generalizing place with
  | nil =>
    rintro n - ⟨h, rest, hstart, -⟩
    rw [List.flatten_nil, List.drop_nil] at hstart
    exact absurd (length_readStart hstart) (Nat.not_lt_zero _)
  | cons first frames ih =>
    obtain ⟨hfirst, hsizes⟩ := List.forall_mem_cons.mp hsizes
    have hmore : IsClear (place + first.length) frames.flatten := by
      refine ih hsizes fun before s after heq ↦ ?_
      have := hclear (first :: before) s after (by rw [heq, List.cons_append])
      rwa [List.flatten_cons, List.length_append, ← Nat.add_assoc] at this
    intro n hn
    rw [List.flatten_cons] at hn ⊢
    generalize hs : first ++ frames.flatten = s at hn ⊢
    cases hn with
    | first =>
      rw [← hs]
      exact hclear [] first frames rfl
    | next hsize hnext =>
      subst hs
      rw [frameSize?_append hfirst] at hsize
      obtain rfl := Option.some.inj hsize
      rw [List.drop_left] at hnext
      rw [← List.drop_drop, List.drop_left, ← Nat.add_assoc]
      exact hmore _ hnext

theorem IsSkippable.not_isMistaken {s : Bytes} (hs : IsSkippable s) (place : Nat) (t : Bytes) :
    ¬ IsMistaken place (s ++ t) := by
  obtain ⟨first, size, skipped, hlow, hhigh, hwidth, -, rfl⟩ := hs
  rintro ⟨h, rest, hstart, -⟩
  have hskippable := readStart_skippable hlow hhigh hwidth (skipped ++ t)
  have hsame : first :: (skippableMark ++ size ++ skipped) ++ t =
      first :: (skippableMark ++ size ++ (skipped ++ t)) := by simp
  rw [hsame, hskippable] at hstart
  simp at hstart

variable [Release]

theorem frameSize?_of_frame {s content rest : Bytes} (hframe : Frame s content rest) :
    frameSize? s = some (s.length - rest.length) := by
  cases hframe with
  | skippable hstart hpart => exact frameSize?_of_skippable hstart hpart
  | content hstart hdictionary hwindow hblocks hfits hsum =>
    have hwhole := readWhole_of_blocks hblocks (Nat.le_refl _) hfits hsum
    exact frameSize?_of_blocks hstart (blocksSize?_of_readWhole hwhole)
      (Nat.le_of_lt (length_readWhole hwhole))

/-- Frames one behind the other are a body. -/
theorem frames_of_parts {parts : List (Bytes × Bytes)} (hne : parts ≠ [])
    (hparts : ∀ part ∈ parts, Frame part.1 part.2 []) :
    Frames (parts.map Prod.fst).flatten (parts.map Prod.snd) := by
  induction parts with
  | nil => exact absurd rfl hne
  | cons part parts ih =>
    obtain ⟨hpart, hmore⟩ := List.forall_mem_cons.mp hparts
    cases parts with
    | nil => simpa using Frames.last hpart
    | cons next parts =>
      obtain ⟨used, hused, hbefore⟩ := hpart.exists_used
      rw [List.append_nil] at hused
      have hframe := hbefore ((next :: parts).map Prod.fst).flatten
      rw [← hused] at hframe
      have hrest : ((next :: parts).map Prod.fst).flatten ≠ [] := by
        have hnext := (hmore next List.mem_cons_self).ne_nil
        simp [hnext]
      exact .more hframe hrest (ih (List.cons_ne_nil _ _) hmore)

/-- A frame for which nothing else is taken is decoded in front of skippable frames and behind
them. -/
theorem decode_of_frame_between {s : Bytes} {before after : List Bytes}
    (hbefore : ∀ s ∈ before, IsSkippable s) (hafter : ∀ s ∈ after, IsSkippable s)
    (hframe : Frame s raw []) (hclear : ¬ IsMistaken before.flatten.length (s ++ after.flatten)) :
    decode (before.flatten ++ (s ++ after.flatten)) = .ok raw := by
  have hskips : ∀ skipped : List Bytes, (∀ s ∈ skipped, IsSkippable s) →
      ∀ part ∈ skipped.map (·, []), Frame part.1 part.2 [] := by
    intro skipped hskipped part hpart
    obtain ⟨s, hs, rfl⟩ := List.mem_map.mp hpart
    exact (hskipped s hs).frame
  let parts : List (Bytes × Bytes) := before.map (·, []) ++ (s, raw) :: after.map (·, [])
  have hparts : ∀ part ∈ parts, Frame part.1 part.2 [] :=
    List.forall_mem_append.mpr ⟨hskips before hbefore,
      List.forall_mem_cons.mpr ⟨hframe, hskips after hafter⟩⟩
  have hbytes : parts.map Prod.fst = before ++ s :: after := by
    simp [parts, Function.comp_def]
  have hcontent : (parts.map Prod.snd).flatten = raw := by
    simp [parts, Function.comp_def, List.map_const']
  have hsizes : ∀ t ∈ before ++ s :: after, frameSize? t = some t.length := by
    intro t ht
    rw [← hbytes] at ht
    obtain ⟨part, hpart, rfl⟩ := List.mem_map.mp ht
    exact frameSize?_of_frame (hparts part hpart)
  -- Only the frame itself is no skippable one.
  have hall : IsClear 0 (before ++ s :: after).flatten := by
    refine isClear_flatten hsizes fun front t behind heq ↦ ?_
    rw [Nat.zero_add]
    obtain ⟨more, rfl, hmore⟩ | ⟨more, rfl, hmore⟩ := List.append_eq_append_iff.mp heq
    · cases more with
      | nil =>
        obtain ⟨rfl, rfl⟩ := List.cons.inj hmore
        rwa [List.append_nil]
      | cons first more =>
        obtain ⟨rfl, rfl⟩ := List.cons.inj hmore
        exact (hafter t (by simp)).not_isMistaken _ _
    · cases more with
      | nil =>
        obtain ⟨rfl, rfl⟩ := List.cons.inj hmore
        rwa [List.append_nil] at hclear
      | cons first more =>
        obtain ⟨rfl, -⟩ := List.cons.inj hmore
        exact (hbefore t (by simp)).not_isMistaken _ _
  have hframes := frames_of_parts (by simp [parts]) hparts
  rw [hbytes] at hframes
  have hdecode := decode_of_frames hframes hall
  rwa [hcontent, List.flatten_append, List.flatten_cons] at hdecode

/-- Skippable frames move the decoder on, and only its buffers may change. -/
theorem exists_framesOnto_skippable {before : List Bytes} (hbefore : ∀ s ∈ before, IsSkippable s)
    (decoder : Decoder) (read : List Bytes) {rest : Bytes} (hrest : rest ≠ []) :
    ∃ after more,
      framesOnto decoder read (before.flatten ++ rest) = framesOnto after more rest := by
  induction before generalizing decoder read with
  | nil => exact ⟨decoder, read, rfl⟩
  | cons s before ih =>
    obtain ⟨hs, hmore⟩ := List.forall_mem_cons.mp hbefore
    have hne : before.flatten ++ rest ≠ [] := by simp [hrest]
    rw [List.flatten_cons, List.append_assoc, framesOnto_skippable hs decoder read hne]
    exact ih hmore _ _

/-- A frame for which there is no room is refused if its window is larger than the largest one. -/
theorem next_of_wide {decoder : Decoder} {h : Header} {s rest : Bytes}
    (hstart : readStart s = .ok (.frame h, rest)) (hdictionary : h.dictionary = 0)
    (hroom : ∀ n ∈ h.size, offered < n) (hwindow : longestWindow < h.window) :
    decoder.next s = .error .windowTooLarge := by
  have htakes : takesWhole decoder.place h (s.length - rest.length) s = false := by
    rw [takesWhole, Bool.and_eq_false_iff]
    refine .inl ?_
    cases hsize : h.size with
    | none => rfl
    | some n => simpa [hsize] using hroom n hsize
  rw [Decoder.next, hstart]
  dsimp only
  rw [htakes, if_neg Bool.false_ne_true, if_neg (not_not.mpr hdictionary), if_pos hwindow]

/-- A single segment that is larger than the largest window is refused. -/
theorem decode_of_wide {before : List Bytes} (hbefore : ∀ s ∈ before, IsSkippable s)
    (hlegal : layout.IsLegal (PlainBlock.joined blocks).length) (hsingle : layout.window = none)
    (hlong : 2 ^ 27 + 1 < (PlainBlock.joined blocks).length) (rest : Bytes) :
    decode (before.flatten ++ (layout.frame blocks ++ rest)) = .error .windowTooLarge := by
  let header := layout.header (PlainBlock.joined blocks).length
  have hstart := Layout.readStart_bytes hlegal
    (PlainBlock.written blocks ++ layout.checksum (PlainBlock.joined blocks) ++ rest)
  have hwindow : longestWindow < header.window := by
    simpa [header, Layout.header, Layout.windowSize, hsingle, longestWindow] using hlong
  have hroom : ∀ n ∈ header.size, offered < n := by
    intro n hn
    have hfits := Layout.fits_header hlegal.size
    have heq : n = (PlainBlock.joined blocks).length := by
      rw [Header.fits, Option.all_eq_true] at hfits
      exact of_decide_eq_true (hfits n hn)
    rw [heq]
    exact Nat.lt_trans (by decide) hlong
  have hframe : layout.frame blocks ++ rest ≠ [] := by simp [Layout.frame, Layout.bytes]
  obtain ⟨after, more, hmore⟩ := exists_framesOnto_skippable hbefore .initial [] hframe
  have hnext : after.next _ = .error .windowTooLarge := next_of_wide hstart rfl hroom hwindow
  have hread : framesOnto after more (layout.frame blocks ++ rest) = .error .windowTooLarge := by
    rw [framesOnto_eq, Layout.frame, List.append_assoc, hnext]
  rw [decode, hmore, hread]
  rfl

/-- Whatever way is taken to write a byte string as a frame of blocks that are not compressed, it is
read in front of skippable frames and behind them. A single segment that is larger than the largest
window is refused. What is left out is the ambiguous header, where a portion ends behind its first
four bytes and a whole skippable frame seems to follow that ends in the next portion. -/
theorem decode_written {before after : List Bytes} (hraw : raw = PlainBlock.joined blocks)
    (hlegal : layout.IsLegal raw.length) (hne : blocks ≠ [])
    (hblocks : ∀ block ∈ blocks, block.IsLegal (layout.blockLimit raw.length))
    (hbefore : ∀ s ∈ before, IsSkippable s) (hafter : ∀ s ∈ after, IsSkippable s)
    (hclear : layout.IsAmbiguous raw.length → before.flatten.length % portion = portion - 4 →
      ∀ size, frameSize? ((layout.frame blocks ++ after.flatten).drop 4) = some size →
        portion < size) :
    decode (before.flatten ++ (layout.frame blocks ++ after.flatten)) =
      if layout.window = none ∧ 2 ^ 27 + 1 < raw.length then .error .windowTooLarge
      else .ok raw := by
  split
  · rename_i hwide
    rw [hraw] at hlegal hwide
    exact decode_of_wide hbefore hlegal hwide.1 hwide.2 _
  · rename_i hnarrow
    have hwindow : layout.windowSize raw.length ≤ longestWindow := by
      rw [Layout.windowSize]
      cases hwindow : layout.window with
      | none => exact Nat.not_lt.mp fun hlong ↦ hnarrow ⟨hwindow, hlong⟩
      | some descriptor => exact Nat.le_succ_of_le (hlegal.window descriptor hwindow)
    refine decode_of_frame_between hbefore hafter
      (frame_written hraw hlegal hne hblocks hwindow) ?_
    have hframe : layout.frame blocks ++ after.flatten = layout.bytes raw.length ++
        (PlainBlock.written blocks ++ (layout.checksum raw ++ after.flatten)) := by
      simp [Layout.frame, hraw]
    rw [hframe] at hclear ⊢
    obtain ⟨b₀, b₁, b₂, more, hwritten, hthird⟩ :=
      PlainBlock.exists_written hne hblocks (Nat.min_le_right _ _)
    exact not_isMistaken_written hlegal ⟨b₀, b₁, b₂, _, by rw [hwritten]; rfl, hthird⟩ hclear

end Bodies

/-- A single segment with a checksum, a field for the number of a dictionary, and one byte for the
size. -/
def segmentLayout : Layout :=
  ⟨none, 0, true, true, 1⟩

/-- A header with a window of 2²⁷ bytes and eight bytes for the size. -/
def widestLayout : Layout :=
  ⟨some 0x88, 3, false, false, 0⟩

/-- Blocks of both kinds, of which one has no byte. -/
def mixedBlocks : List PlainBlock :=
  [.stored [0x5B, 0x31], .repeated 2 0x20, .stored [], .stored [0x5D]]

theorem decode_written_mixedBlocks :
    let raw : Bytes := [0x5B, 0x31, 0x20, 0x20, 0x5D]
    let before : List Bytes := [[0x50, 0x2A, 0x4D, 0x18, 1, 0, 0, 0, 7]]
    let after : List Bytes := [[0x5F, 0x2A, 0x4D, 0x18, 0, 0, 0, 0]]
    raw = PlainBlock.joined mixedBlocks ∧ mixedBlocks ≠ [] ∧
      ((∀ s ∈ before, IsSkippable s) ∧ ∀ s ∈ after, IsSkippable s) ∧
      ∀ layout ∈ [segmentLayout, widestLayout], layout.IsLegal raw.length ∧
        (∀ block ∈ mixedBlocks, block.IsLegal (layout.blockLimit raw.length)) ∧
        ¬ layout.IsAmbiguous raw.length ∧
        decode (before.flatten ++ (layout.frame mixedBlocks ++ after.flatten)) = .ok raw := by
  intro raw before after
  have hne : mixedBlocks ≠ [] := List.cons_ne_nil _ _
  have hbefore : ∀ s ∈ before, IsSkippable s := List.forall_mem_singleton.mpr
    ⟨0x50, [1, 0, 0, 0], [7], by decide, by decide, rfl, rfl, rfl⟩
  have hafter : ∀ s ∈ after, IsSkippable s := List.forall_mem_singleton.mpr
    ⟨0x5F, [0, 0, 0, 0], [], by decide, by decide, rfl, rfl, rfl⟩
  have hclear : ∀ layout : Layout, ¬ layout.IsAmbiguous raw.length := fun layout h ↦
    absurd h.length (by decide)
  have hread : ∀ layout : Layout, layout.IsLegal raw.length →
      (∀ block ∈ mixedBlocks, block.IsLegal (layout.blockLimit raw.length)) →
        decode (before.flatten ++ (layout.frame mixedBlocks ++ after.flatten)) = .ok raw := by
    intro layout hlegal hblocks
    have hsmall : ¬ (layout.window = none ∧ 2 ^ 27 + 1 < raw.length) := fun h ↦
      absurd h.2 (by decide)
    have hraw : raw = PlainBlock.joined mixedBlocks := rfl
    rw [decode_written hraw hlegal hne hblocks hbefore hafter fun h ↦ absurd h (hclear layout),
      if_neg hsmall]
  have hsegment : segmentLayout.IsLegal raw.length :=
    ⟨by simp [segmentLayout], (by decide : 5 < 256 ^ 1)⟩
  have hwindow : windowOf 0x88 ≤ 2 ^ 27 := by decide
  have hwidest : widestLayout.IsLegal raw.length :=
    ⟨fun _ h ↦ Option.mem_some_iff.mp h ▸ hwindow, (by decide : 5 < 256 ^ 8)⟩
  refine ⟨rfl, hne, ⟨hbefore, hafter⟩, List.forall_mem_cons.mpr
    ⟨⟨hsegment, ?_⟩, List.forall_mem_singleton.mpr ⟨hwidest, ?_⟩⟩⟩
  · have hblocks : ∀ block ∈ mixedBlocks, block.IsLegal (segmentLayout.blockLimit raw.length) := by
      decide
    exact ⟨hblocks, hclear _, hread _ hsegment hblocks⟩
  · have hblocks : ∀ block ∈ mixedBlocks, block.IsLegal (widestLayout.blockLimit raw.length) := by
      decide
    exact ⟨hblocks, hclear _, hread _ hwidest hblocks⟩

/-- 2²⁷ + 2 bytes. -/
def manyBlocks : List PlainBlock :=
  List.replicate 1024 (.repeated (2 ^ 17) 0x78) ++ [.repeated 2 0x78]

/-- A single segment with four bytes for its size. -/
def wideLayout : Layout :=
  ⟨none, 2, false, false, 0⟩

/-- The layout of the ambiguous header. -/
def ambiguousLayout : Layout :=
  ⟨some 0x2A, 1, true, false, 0⟩

/-- 6477 bytes, of which the first block makes the header look like that of a skippable frame of
eight bytes. The second block holds a frame, and a header that skips the third block. -/
def deceptiveBlocks : List PlainBlock :=
  [.stored [0],
    .stored ([1, 2, 3, 4, 5] ++ (frameMark ++ [0x20, 3, 0x19, 0, 0, 0x5B, 0x31, 0x5D]) ++
      [0x50, 0x2A, 0x4D, 0x18, 4, 0, 0, 0]),
    .repeated 6451 0x78]

/-- A single segment that is larger than the largest window can be written and is refused. If the
end of a portion cuts the ambiguous header, a frame inside the frame may be taken. -/
theorem not_decode_written :
    ((PlainBlock.joined manyBlocks).length = 2 ^ 27 + 2 ∧ wideLayout.IsLegal (2 ^ 27 + 2) ∧
      manyBlocks ≠ [] ∧ (∀ block ∈ manyBlocks, block.IsLegal (wideLayout.blockLimit (2 ^ 27 + 2))) ∧
      decode (wideLayout.frame manyBlocks) = .error .windowTooLarge) ∧
    ((PlainBlock.joined deceptiveBlocks).length = 6477 ∧ ambiguousLayout.IsLegal 6477 ∧
      deceptiveBlocks ≠ [] ∧
      (∀ block ∈ deceptiveBlocks, block.IsLegal (ambiguousLayout.blockLimit 6477)) ∧
      IsSkippable (padding 131063) ∧
      decode (padding 131063 ++ ambiguousLayout.frame deceptiveBlocks) =
        .ok [0x5B, 0x31, 0x5D]) := by
  refine ⟨?_, ?_⟩
  · have hlength : (PlainBlock.joined manyBlocks).length = 2 ^ 27 + 2 := by
      rw [PlainBlock.joined, manyBlocks, List.flatMap_append, List.length_append,
        ← PlainBlock.joined, PlainBlock.length_joined_replicate]
      rfl
    have hlegal : wideLayout.IsLegal (2 ^ 27 + 2) :=
      ⟨by simp [wideLayout], (by decide : 2 ^ 27 + 2 < 256 ^ 4)⟩
    have hblocks : ∀ block ∈ manyBlocks, block.IsLegal (wideLayout.blockLimit (2 ^ 27 + 2)) := by
      have hlimit : wideLayout.blockLimit (2 ^ 27 + 2) = 2 ^ 17 := Nat.min_eq_right (by decide)
      rw [hlimit, manyBlocks]
      refine List.forall_mem_append.mpr ⟨fun block hblock ↦ ?_, List.forall_mem_singleton.mpr ?_⟩
      · rw [List.eq_of_mem_replicate hblock]
        exact ⟨by decide, Nat.le_refl _⟩
      · exact ⟨by decide, by decide⟩
    have hlong : 2 ^ 27 + 1 < (PlainBlock.joined manyBlocks).length :=
      hlength ▸ Nat.lt_succ_self _
    have hrefused := decode_of_wide (List.forall_mem_nil _) (hlength.symm ▸ hlegal) rfl hlong []
    rw [List.flatten_nil, List.nil_append, List.append_nil] at hrefused
    exact ⟨hlength, hlegal, List.append_ne_nil_of_right_ne_nil _ (List.cons_ne_nil _ _), hblocks,
      hrefused⟩
  · have hlength : (PlainBlock.joined deceptiveBlocks).length = 6477 := by
      simp only [deceptiveBlocks, PlainBlock.joined, List.flatMap_cons, PlainBlock.content,
        List.length_append, List.length_replicate]
      rfl
    have hwindow : windowOf 0x2A ≤ 2 ^ 27 := by decide
    have hlegal : ambiguousLayout.IsLegal 6477 :=
      ⟨fun _ h ↦ Option.mem_some_iff.mp h ▸ hwindow,
        (by decide : 256 ≤ 6477 ∧ 6477 < 256 + 256 ^ 2)⟩
    have hblocks : ∀ block ∈ deceptiveBlocks, block.IsLegal (ambiguousLayout.blockLimit 6477) := by
      have hlimit : ambiguousLayout.blockLimit 6477 = 40960 := by decide
      rw [hlimit]
      decide
    have hsmall : 131063 < 256 ^ 4 := by decide
    have hframe : ambiguousLayout.frame deceptiveBlocks = ambiguousLayout.bytes 6477 ++
        PlainBlock.written deceptiveBlocks := by
      simp [Layout.frame, hlength, Layout.checksum, ambiguousLayout]
    have hwritten : PlainBlock.written deceptiveBlocks = [8, 0, 0, 0, 0xC8, 0, 0, 1, 2, 3, 4, 5] ++
        frameMark ++ [0x20, 3, 0x19, 0, 0, 0x5B, 0x31, 0x5D, 0x50, 0x2A, 0x4D, 0x18, 4, 0, 0, 0,
          0x9B, 0xC9, 0, 0x78] := by
      simp only [deceptiveBlocks, PlainBlock.written, PlainBlock.bytes, PlainBlock.number,
        PlainBlock.content, List.length_replicate]
      decide
    refine ⟨hlength, hlegal, List.cons_ne_nil _ _, hblocks, isSkippable_padding hsmall, ?_⟩
    rw [hframe, hwritten, decode_padding_append hsmall (by simp [Layout.bytes])]
    decide +kernel

end Intake.Zstd
