import Intake.Proofs.Deflate.Reading
import Intake.Proofs.Gzip.Members

/-!
# Writing gzip members

A member is a header with any of its fields, a stream and the trailer of what the stream stands for.
A header that is written is skipped (`skipHeader_bytes`), so a member is read as the output of its
blocks (`decode_memberBytes_iff`).
-/

set_option autoImplicit false
set_option relaxedAutoImplicit false

namespace Intake.Gzip

/-! ### Headers -/

/-- What a header says. -/
structure Header where
  isText : Bool
  time : UInt32
  extraFlags : UInt8
  system : UInt8
  extra : Option Bytes
  name : Option Bytes
  comment : Option Bytes
  /-- Whether the header ends with a checksum of its own. -/
  isChecked : Bool

/-- A name or a comment. It ends with a zero, so there is none in it. -/
def IsField (field : Bytes) : Prop :=
  field.length ≤ 65535 ∧ 0 ∉ field

instance (field : Bytes) : Decidable (IsField field) :=
  inferInstanceAs (Decidable (_ ∧ _))

namespace Header

structure IsLegal (h : Header) : Prop where
  extra : ∀ field ∈ h.extra, field.length ≤ 65535
  name : ∀ field ∈ h.name, IsField field
  comment : ∀ field ∈ h.comment, IsField field

/-- The byte that says which fields there are. -/
def flags (isText isChecked extra name comment : Bool) : UInt8 :=
  (isText.toNat + 2 * isChecked.toNat + 4 * extra.toNat + 8 * name.toNat +
    16 * comment.toNat).toUInt8

/-- The ten bytes that every header has. -/
def start (h : Header) : Bytes :=
  [0x1F, 0x8B, 8, flags h.isText h.isChecked h.extra.isSome h.name.isSome h.comment.isSome] ++
    Bytes.ofNumber 4 h.time.toNat ++ [h.extraFlags, h.system]

/-- The fields behind them. -/
def fields (h : Header) : Bytes :=
  h.extra.elim [] (fun field ↦ Bytes.ofNumber 2 field.length ++ field) ++
    h.name.elim [] (· ++ [0]) ++ h.comment.elim [] (· ++ [0])

def bytes (h : Header) : Bytes :=
  h.start ++ h.fields ++
    if h.isChecked then Bytes.ofNumber 2 (Crc32.checksum (h.start ++ h.fields)).toNat else []

end Header

theorem hasFlag_flags : ∀ isText isChecked extra name comment : Bool,
    let flags := Header.flags isText isChecked extra name comment
    hasFlag flags 0xE0 = false ∧ hasFlag flags 2 = isChecked ∧ hasFlag flags 4 = extra ∧
      hasFlag flags 8 = name ∧ hasFlag flags 16 = comment := by
  decide

theorem headerChecksum_eq (header : Bytes) :
    headerChecksum header = Bytes.ofNumber 2 (Crc32.checksum header).toNat := by
  have hlow : (Crc32.checksum header).toUInt8 = (Crc32.checksum header).toNat.toUInt8 := by
    apply UInt8.toNat_inj.mp
    simp
  have hhigh : (Crc32.checksum header >>> 8).toUInt8 =
      ((Crc32.checksum header).toNat / 256).toUInt8 := by
    apply UInt8.toNat_inj.mp
    simp [Nat.shiftRight_eq_div_pow]
  simp only [headerChecksum, Bytes.ofNumber, hlow, hhigh]

theorem zeroEndedOnto_written {room : Nat} {field : Bytes} (read : Bytes)
    (hroom : field.length ≤ room) (hzero : 0 ∉ field) (rest : Bytes) :
    zeroEndedOnto room read (field ++ 0 :: rest) = .ok (read.reverse ++ field ++ [0], rest) := by
  induction field generalizing room read with
  | nil => cases room <;> simp [zeroEndedOnto]
  | cons b field ih =>
    obtain ⟨room, rfl⟩ := Nat.exists_eq_add_of_le' (Nat.le_trans (Nat.succ_pos _) hroom)
    simp only [List.mem_cons, not_or] at hzero
    rw [List.cons_append, zeroEndedOnto, if_neg (Ne.symm hzero.1),
      ih _ (Nat.le_of_succ_le_succ hroom) hzero.2]
    simp

theorem optional_zeroEnded {field : Option Bytes} (h : ∀ text ∈ field, IsField text)
    (rest : Bytes) :
    optional field.isSome (zeroEndedOnto longestField []) (field.elim [] (· ++ [0]) ++ rest) =
      .ok (field.elim [] (· ++ [0]), rest) := by
  cases field with
  | none => rfl
  | some text =>
    obtain ⟨hlength, hzero⟩ := h text rfl
    have hread := zeroEndedOnto_written [] hlength hzero rest
    simpa [optional, longestField] using hread

theorem optional_extraField {field : Option Bytes} (h : ∀ text ∈ field, text.length ≤ 65535)
    (rest : Bytes) :
    optional field.isSome extraField
        (field.elim [] (fun text ↦ Bytes.ofNumber 2 text.length ++ text) ++ rest) =
      .ok (field.elim [] fun text ↦ Bytes.ofNumber 2 text.length ++ text, rest) := by
  cases field with
  | none => rfl
  | some text =>
    have hsize : Bytes.littleEndian (Bytes.ofNumber 2 text.length) = text.length := by
      rw [Bytes.littleEndian_ofNumber]
      exact Nat.mod_eq_of_lt (Nat.lt_succ_of_le (h text rfl))
    simp only [optional, Option.isSome_some, if_true, Option.elim_some, extraField, bind_eq_ok,
      Prod.exists]
    exact ⟨_, text ++ rest, fixedSize_eq_ok_iff.mpr ⟨Bytes.length_ofNumber 2 _, by simp⟩,
      text, rest, fixedSize_eq_ok_iff.mpr ⟨hsize.symm, rfl⟩, rfl⟩

theorem Header.length_start (h : Header) : h.start.length = 10 := by
  simp [Header.start]

/-- A header is skipped, whatever its fields are. -/
theorem skipHeader_bytes {h : Header} (hlegal : h.IsLegal) (rest : Bytes) :
    skipHeader (h.bytes ++ rest) = .ok rest := by
  obtain ⟨hreserved, hchecked, hextra, hname, hcomment⟩ :=
    hasFlag_flags h.isText h.isChecked h.extra.isSome h.name.isSome h.comment.isSome
  have hflags : h.start.getD 3 0 =
      Header.flags h.isText h.isChecked h.extra.isSome h.name.isSome h.comment.isSome := rfl
  have hstart : isStart h.start = true := by
    rw [isStart, hflags, hreserved]
    rfl
  rw [← hflags] at hchecked hextra hname hcomment
  rw [Header.bytes, Header.fields]
  simp only [List.append_assoc]
  refine skipHeader_eq_ok_iff.mpr ⟨h.start, _, _, _, _, _, _, _,
    if h.isChecked then Bytes.ofNumber 2 (Crc32.checksum (h.start ++ h.fields)).toNat else [],
    fixedSize_eq_ok_iff.mpr ⟨h.length_start, rfl⟩, hstart,
    by rw [hextra]; exact optional_extraField hlegal.extra _,
    by rw [hname]; exact optional_zeroEnded hlegal.name _,
    by rw [hcomment]; exact optional_zeroEnded hlegal.comment _, ?_, fun hflag ↦ ?_⟩
  · rw [hchecked, optional, Header.fields]
    split
    · exact fixedSize_eq_ok_iff.mpr ⟨Bytes.length_ofNumber 2 _, by simp only [List.append_assoc]⟩
    · rfl
  · rw [if_pos (hchecked ▸ hflag), headerChecksum_eq, Header.fields]
    simp only [List.append_assoc]

/-! ### Members -/

/-- A member with a stream of the given blocks. The bits behind the last block are those of
`filling`. -/
def memberBytes (header : Header) (plans : List Deflate.Plan) (filling : Nat) : Bytes :=
  header.bytes ++ Deflate.bytes plans filling ++ trailerBytes (Deflate.output plans)

theorem member_memberBytes {header : Header} {plans : List Deflate.Plan} (hheader : header.IsLegal)
    (hplans : plans ≠ []) (hlegal : Deflate.AreLegal [] plans)
    (hfew : ∀ plan ∈ plans, plan.FewDistances) (filling : Nat) :
    member (memberBytes header plans filling) = .ok (Deflate.output plans, []) := by
  have hskip := skipHeader_bytes hheader
    (Deflate.bytes plans filling ++ trailerBytes (Deflate.output plans))
  rw [← List.append_assoc] at hskip
  exact member_eq_ok_iff.mpr ⟨_, _, _, _, _, _, hskip,
    (Deflate.blocks_bytes hplans hlegal filling _).1 hfew,
    fixedSize_eq_ok_iff.mpr ⟨Bytes.length_ofNumber 4 _, rfl⟩,
    fixedSize_eq_ok_iff.mpr ⟨Bytes.length_ofNumber 4 _, (List.append_nil _).symm⟩,
    (Deflate.content_blocks hlegal).symm,
    (trailer_iff (Bytes.length_ofNumber 4 _) (Bytes.length_ofNumber 4 _)).mpr rfl⟩

theorem fewDistances_of_member {header : Header} {plans : List Deflate.Plan}
    (hheader : header.IsLegal) (hplans : plans ≠ []) (hlegal : Deflate.AreLegal [] plans)
    {filling : Nat} {found : Bytes × Bytes}
    (h : member (memberBytes header plans filling) = .ok found) :
    ∀ plan ∈ plans, plan.FewDistances := by
  have hskip := skipHeader_bytes hheader
    (Deflate.bytes plans filling ++ trailerBytes (Deflate.output plans))
  rw [← List.append_assoc] at hskip
  obtain ⟨s₁, _, _, _, _, _, hskip', hblocks, -⟩ := member_eq_ok_iff.mp h
  obtain rfl := Except.ok.inj (hskip.symm.trans hskip')
  exact (Deflate.blocks_bytes hplans hlegal filling _).2 _ hblocks

/-- A member is read as the output of its blocks, of stored bytes and of tokens in the fixed codes
or in codes that the block describes, unless a block lists too many lengths for distances. -/
theorem decode_memberBytes_iff {header : Header} {plans : List Deflate.Plan}
    (hheader : header.IsLegal) (hplans : plans ≠ []) (hlegal : Deflate.AreLegal [] plans)
    (filling : Nat) :
    decode (memberBytes header plans filling) = .ok (Deflate.output plans) ↔
      ∀ plan ∈ plans, plan.FewDistances := by
  constructor
  · intro h
    obtain ⟨contents, hcontents, -⟩ := map_eq_ok.mp h
    rw [membersOnto_eq] at hcontents
    cases hmember : member (memberBytes header plans filling) with
    | error e => simp [hmember] at hcontents
    | ok found => exact fewDistances_of_member hheader hplans hlegal hmember
  · intro hfew
    rw [decode, membersOnto_eq, member_memberBytes hheader hplans hlegal hfew]
    simp [Except.map]

/-- A header with an extra field, a name and a checksum. -/
def namedHeader : Header where
  isText := true
  time := 0x5F000000
  extraFlags := 2
  system := 3
  extra := some [0x41, 0x70, 0, 0]
  name := some [0x61, 0x2E, 0x6A]
  comment := none
  isChecked := true

/-- Codes in which a literal, the end of the block and two lengths have words, and eight distances.
A run of the same length goes on from the first code to the second. -/
def eightDistances : Deflate.Description where
  literals := List.replicate 97 0 ++ [1] ++ List.replicate 158 0 ++ [2, 3, 3]
  distances := List.replicate 8 3
  shorts := [0, 4, 4, 3] ++ List.replicate 12 0 ++ [2, 2, 2]
  written := 18
  runs := [.manyZeros 97, .single 1, .manyZeros 138, .zeros 10, .zeros 10, .single 2, .single 3,
    .again 6, .again 3]

/-- Blocks of each kind, with a copy that reaches into itself and one that reaches into the first
block. -/
def mixedPlans : List Deflate.Plan :=
  [.stored 21 [0x5B], .fixed [.literal 97, .copy 5 1],
    .described eightDistances [.literal 97, .copy 3 2, .copy 4 11]]

theorem decode_memberBytes_mixed :
    namedHeader.IsLegal ∧ mixedPlans ≠ [] ∧ Deflate.AreLegal [] mixedPlans ∧
      (∀ plan ∈ mixedPlans, plan.FewDistances) ∧
      decode (memberBytes namedHeader mixedPlans 0) =
        .ok ([0x5B] ++ List.replicate 10 97 ++ [0x5B, 97, 97, 97]) := by
  have hheader : namedHeader.IsLegal := ⟨by decide, by decide, by decide⟩
  have hlegal : Deflate.AreLegal [] mixedPlans := by decide +kernel
  have hfew : ∀ plan ∈ mixedPlans, plan.FewDistances := by decide
  exact ⟨hheader, by decide, hlegal, hfew,
    (decode_memberBytes_iff hheader (by decide) hlegal 0).mpr hfew⟩

/-- Codes with words for all 32 distances that can be listed. -/
def allDistances : Deflate.Description where
  literals := List.replicate 97 0 ++ [1] ++ List.replicate 158 0 ++ [2, 3, 3]
  distances := List.replicate 32 5
  shorts := [0, 4, 4, 4, 0, 4] ++ List.replicate 10 0 ++ [2, 2, 2]
  written := 18
  runs := [.manyZeros 97, .single 1, .manyZeros 138, .zeros 10, .zeros 10, .single 2, .single 3,
    .single 3, .single 5, .again 6, .again 6, .again 6, .again 6, .again 4, .again 3]

/-- Codes that list words for more than the 30 distances are refused. -/
theorem not_decode_allDistances :
    namedHeader.IsLegal ∧ Deflate.AreLegal [] [.described allDistances [.literal 97]] ∧
      decode (memberBytes namedHeader [.described allDistances [.literal 97]] 0) =
        .error .corrupt := by
  exact ⟨⟨by decide, by decide, by decide⟩, by decide +kernel, by decide +kernel⟩

end Intake.Gzip
