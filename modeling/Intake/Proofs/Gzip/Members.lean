import Intake.Gzip.Member
import Intake.Proofs.Bytes
import Intake.Proofs.Deflate.Local

/-!
# Members of a gzip body

A member is read without a look at what follows it (`exists_member`), and nothing goes from one
member to the next. So a body behind another one is read as it is read alone (`decode_append`), and
a body that is read falls into members, each of which begins with the fixed bytes of a header and
ends with the checksum and the size of its own content (`exists_members_of_decode`).
-/

set_option autoImplicit false
set_option relaxedAutoImplicit false

namespace Intake.Gzip

/-! ### Headers -/

theorem fixedSize_eq_ok_iff {n : Nat} {s read rest : Bytes} :
    fixedSize n s = .ok (read, rest) ↔ read.length = n ∧ s = read ++ rest := by
  rw [← Bytes.split?_eq_some_iff, fixedSize]
  cases Bytes.split? n s with
  | none => simp
  | some found => simp

theorem isLocal_fixedSize (n : Nat) : IsLocal (fixedSize n) := by
  intro s read rest h
  obtain ⟨hlength, rfl⟩ := fixedSize_eq_ok_iff.mp h
  exact ⟨read, rfl, fun t ↦ fixedSize_eq_ok_iff.mpr ⟨hlength, rfl⟩⟩

theorem isLocal_zeroEndedOnto (room : Nat) (read : Bytes) :
    IsLocal (zeroEndedOnto room read) := by
  intro s field rest h
  fun_induction zeroEndedOnto room read s with
  | case1 => simp at h
  | case2 read s =>
    obtain ⟨rfl, rfl⟩ := Prod.mk.inj (Except.ok.inj h)
    exact ⟨[0], rfl, fun t ↦ rfl⟩
  | case3 => simp at h
  | case4 read s room =>
    obtain ⟨rfl, rfl⟩ := Prod.mk.inj (Except.ok.inj h)
    exact ⟨[0], rfl, fun t ↦ rfl⟩
  | case5 room read b s hb ih =>
    obtain ⟨used, rfl, hused⟩ := ih h
    refine ⟨b :: used, rfl, fun t ↦ ?_⟩
    rw [List.cons_append, zeroEndedOnto, if_neg hb, hused]

theorem isLocal_extraField : IsLocal extraField :=
  (isLocal_fixedSize 2).bind fun size ↦
    (isLocal_fixedSize (Bytes.littleEndian size)).bind fun extra ↦ .pure (size ++ extra)

theorem isLocal_optional {field : Bytes → Except Fault (Bytes × Bytes)} (hfield : IsLocal field)
    (present : Bool) : IsLocal (optional present field) :=
  .ite (present = true) hfield (.pure [])

theorem skipHeader_eq_ok_iff {s rest : Bytes} :
    skipHeader s = .ok rest ↔
      ∃ start s₁ extra s₂ name s₃ comment s₄ sum, fixedSize 10 s = .ok (start, s₁) ∧
        isStart start = true ∧
        optional (hasFlag (start.getD 3 0) 4) extraField s₁ = .ok (extra, s₂) ∧
        optional (hasFlag (start.getD 3 0) 8) (zeroEndedOnto longestField []) s₂ =
          .ok (name, s₃) ∧
        optional (hasFlag (start.getD 3 0) 16) (zeroEndedOnto longestField []) s₃ =
          .ok (comment, s₄) ∧
        optional (hasFlag (start.getD 3 0) 2) (fixedSize 2) s₄ = .ok (sum, rest) ∧
        (hasFlag (start.getD 3 0) 2 = true →
          sum = headerChecksum (start ++ extra ++ name ++ comment)) := by
  simp only [skipHeader, bind_eq_ok, Prod.exists]
  constructor
  · rintro ⟨start, s₁, h₁, h⟩
    split at h
    · rename_i hstart
      simp only [bind_eq_ok, Prod.exists] at h
      obtain ⟨extra, s₂, h₂, name, s₃, h₃, comment, s₄, h₄, sum, s₅, h₅, h⟩ := h
      split at h
      · simp at h
      · rename_i hsum
        obtain rfl := Except.ok.inj h
        exact ⟨start, s₁, extra, s₂, name, s₃, comment, s₄, sum, h₁, hstart, h₂, h₃, h₄, h₅,
          fun hflag ↦ not_not.mp fun hne ↦ hsum ⟨hflag, hne⟩⟩
    · simp at h
  · rintro ⟨start, s₁, extra, s₂, name, s₃, comment, s₄, sum, h₁, hstart, h₂, h₃, h₄, h₅, hsum⟩
    refine ⟨start, s₁, h₁, ?_⟩
    rw [if_pos hstart]
    simp only [bind_eq_ok, Prod.exists]
    refine ⟨extra, s₂, h₂, name, s₃, h₃, comment, s₄, h₄, sum, rest, h₅, ?_⟩
    rw [if_neg fun hwrong ↦ hwrong.2 (hsum hwrong.1)]

/-- A header begins with its fixed bytes, and what follows it has no part in it. -/
theorem exists_header {s rest : Bytes} (h : skipHeader s = .ok rest) :
    ∃ used, s = used ++ rest ∧ [0x1F, 0x8B, 8] <+: used ∧ ∀ t, skipHeader (used ++ t) = .ok t := by
  obtain ⟨start, s₁, extra, s₂, name, s₃, comment, s₄, sum, h₁, hstart, h₂, h₃, h₄, h₅, hsum⟩ :=
    skipHeader_eq_ok_iff.mp h
  obtain ⟨hlength, rfl⟩ := fixedSize_eq_ok_iff.mp h₁
  obtain ⟨used₂, rfl, hused₂⟩ := isLocal_optional isLocal_extraField _ h₂
  obtain ⟨used₃, rfl, hused₃⟩ := isLocal_optional (isLocal_zeroEndedOnto _ _) _ h₃
  obtain ⟨used₄, rfl, hused₄⟩ := isLocal_optional (isLocal_zeroEndedOnto _ _) _ h₄
  obtain ⟨used₅, rfl, hused₅⟩ := isLocal_optional (isLocal_fixedSize 2) _ h₅
  have hfixed : [0x1F, 0x8B, 8] <+: start := by
    have htake : start.take 3 = [0x1F, 0x8B, 8] := by
      rw [isStart, Bool.and_eq_true, beq_iff_eq] at hstart
      exact hstart.1
    exact htake ▸ List.take_prefix 3 start
  refine ⟨start ++ used₂ ++ used₃ ++ used₄ ++ used₅, by simp only [List.append_assoc], ?_,
    fun t ↦ ?_⟩
  · simp only [List.append_assoc]
    exact hfixed.trans (List.prefix_append _ _)
  · simp only [List.append_assoc]
    exact skipHeader_eq_ok_iff.mpr ⟨start, _, extra, _, name, _, comment, _, sum,
      fixedSize_eq_ok_iff.mpr ⟨hlength, rfl⟩, hstart, hused₂ _, hused₃ _, hused₄ _, hused₅ t, hsum⟩

/-! ### Members -/

theorem member_eq_ok_iff {s content rest : Bytes} :
    member s = .ok (content, rest) ↔
      ∃ s₁ blocks s₂ sum s₃ size, skipHeader s = .ok s₁ ∧ Deflate.blocks s₁ = .ok (blocks, s₂) ∧
        fixedSize 4 s₂ = .ok (sum, s₃) ∧ fixedSize 4 s₃ = .ok (size, rest) ∧
        content = Deflate.content blocks ∧
        (Bytes.littleEndian sum, Bytes.littleEndian size) = trailer content := by
  simp only [member, bind_eq_ok, mapError_eq_ok, Prod.exists]
  constructor
  · rintro ⟨s₁, h₁, blocks, s₂, h₂, sum, s₃, h₃, size, s₄, h₄, h⟩
    split at h
    · rename_i htrailer
      obtain ⟨rfl, rfl⟩ := Prod.mk.inj (Except.ok.inj h)
      exact ⟨s₁, blocks, s₂, sum, s₃, size, h₁, h₂, h₃, h₄, rfl, htrailer⟩
    · simp at h
  · rintro ⟨s₁, blocks, s₂, sum, s₃, size, h₁, h₂, h₃, h₄, rfl, htrailer⟩
    refine ⟨s₁, h₁, blocks, s₂, h₂, sum, s₃, h₃, size, rest, h₄, ?_⟩
    rw [if_pos htrailer]

/-- The trailer of a member as it is written. -/
def trailerBytes (content : Bytes) : Bytes :=
  Bytes.ofNumber 4 (Crc32.checksum content).toNat ++ Bytes.ofNumber 4 content.length

theorem trailer_iff {content sum size : Bytes} (hsum : sum.length = 4) (hsize : size.length = 4) :
    (Bytes.littleEndian sum, Bytes.littleEndian size) = trailer content ↔
      sum ++ size = trailerBytes content := by
  have hwidth : 2 ^ 32 = 256 ^ 4 := by decide
  have hchecksum : (Crc32.checksum content).toNat % 256 ^ 4 = (Crc32.checksum content).toNat :=
    Nat.mod_eq_of_lt (Crc32.checksum content).toNat_lt
  rw [trailer, trailerBytes, Prod.mk.injEq, hwidth]
  constructor
  · rintro ⟨hsumEq, hsizeEq⟩
    rw [← hsumEq, Bytes.ofNumber_littleEndian hsum, ← Bytes.ofNumber_mod, ← hsizeEq,
      Bytes.ofNumber_littleEndian hsize]
  · intro h
    obtain ⟨rfl, rfl⟩ := List.append_inj h (by rw [hsum, Bytes.length_ofNumber])
    rw [Bytes.littleEndian_ofNumber, Bytes.littleEndian_ofNumber, hchecksum]
    exact ⟨rfl, rfl⟩

/-- A member begins with the fixed bytes of a header, ends with the trailer of its content, and is
read alike in front of any bytes. -/
theorem exists_member {s content rest : Bytes} (h : member s = .ok (content, rest)) :
    ∃ used, s = used ++ rest ∧ [0x1F, 0x8B, 8] <+: used ∧ trailerBytes content <:+ used ∧
      ∀ t, member (used ++ t) = .ok (content, t) := by
  obtain ⟨s₁, blocks, s₂, sum, s₃, size, h₁, h₂, h₃, h₄, hcontent, htrailer⟩ :=
    member_eq_ok_iff.mp h
  obtain ⟨header, rfl, hfixed, hheader⟩ := exists_header h₁
  obtain ⟨stream, rfl, hstream⟩ := Deflate.isLocal_blocks h₂
  obtain ⟨hsum, rfl⟩ := fixedSize_eq_ok_iff.mp h₃
  obtain ⟨hsize, rfl⟩ := fixedSize_eq_ok_iff.mp h₄
  refine ⟨header ++ stream ++ (sum ++ size), by simp only [List.append_assoc], ?_, ?_, fun t ↦ ?_⟩
  · simp only [List.append_assoc]
    exact hfixed.trans (List.prefix_append _ _)
  · rw [← (trailer_iff hsum hsize).mp htrailer]
    exact List.suffix_append _ _
  · simp only [List.append_assoc]
    exact member_eq_ok_iff.mpr ⟨_, blocks, _, sum, _, size, hheader _, hstream _,
      fixedSize_eq_ok_iff.mpr ⟨hsum, rfl⟩, fixedSize_eq_ok_iff.mpr ⟨hsize, rfl⟩, hcontent,
      htrailer⟩

/-! ### Bodies -/

theorem membersOnto_eq (read : List Bytes) (s : Bytes) :
    membersOnto read s =
      match member s with
      | .error e => .error e
      | .ok (content, rest) =>
        if rest = [] then .ok (content :: read).reverse
        else membersOnto (content :: read) rest := by
  rw [membersOnto]
  split
  · simp [*]
  · simp [*]
  · rename_i content rest hrest hmember
    simp only [hmember]
    rw [if_neg hrest]

/-- What has been read has no part in what is read behind it. -/
theorem membersOnto_append_read (read before : List Bytes) (s : Bytes) :
    membersOnto (read ++ before) s = (membersOnto read s).map (before.reverse ++ ·) := by
  fun_induction membersOnto read s with
  | case1 read s e hmember =>
    rw [membersOnto_eq, hmember]
    rfl
  | case2 read s content hmember =>
    rw [membersOnto_eq, hmember]
    simp [Except.map]
  | case3 read s content rest hrest hmember ih =>
    rw [membersOnto_eq, hmember]
    simp only [if_neg hrest]
    exact ih

/-- Behind the members of a body the reader is where it is at the beginning of one. -/
theorem membersOnto_append {read contents : List Bytes} {a b : Bytes}
    (ha : membersOnto read a = .ok contents) (hb : b ≠ []) :
    membersOnto read (a ++ b) = membersOnto contents.reverse b := by
  fun_induction membersOnto read a with
  | case1 => simp at ha
  | case2 read a content hmember =>
    obtain rfl := Except.ok.inj ha
    obtain ⟨used, hused, -, -, htaken⟩ := exists_member hmember
    rw [List.append_nil] at hused
    rw [membersOnto_eq, hused, htaken, List.reverse_reverse]
    simp only [if_neg hb]
  | case3 read a content rest hrest hmember ih =>
    obtain ⟨used, rfl, -, -, htaken⟩ := exists_member hmember
    rw [List.append_assoc, membersOnto_eq, htaken]
    have hne : rest ++ b ≠ [] := by simp [hb]
    simp only [if_neg hne]
    exact ih ha

/-- A body behind another one is read as it is read alone. So bodies one after the other are one
body, and there is none if what follows the first one is not a body. -/
theorem decode_append {a b x : Bytes} (ha : decode a = .ok x) (hb : b ≠ []) :
    decode (a ++ b) = (decode b).map (x ++ ·) := by
  obtain ⟨contents, hcontents, rfl⟩ := map_eq_ok.mp ha
  have hbehind := membersOnto_append_read [] contents.reverse b
  rw [List.nil_append, List.reverse_reverse] at hbehind
  rw [decode, membersOnto_append hcontents hb, hbehind, decode]
  cases membersOnto [] b with
  | error e => rfl
  | ok more => simp [Except.map]

/-- A member with a name, of stored bytes. -/
def namedMember : Bytes :=
  [0x1F, 0x8B, 8, 8, 0, 0, 0, 0, 0, 3, 0x61, 0, 1, 3, 0, 0xFC, 0xFF, 0x5B, 0x31, 0x2C,
    0x12, 0x73, 0x2D, 0x6B, 3, 0, 0, 0]

/-- A member of coded bytes. -/
def codedMember : Bytes :=
  [0x1F, 0x8B, 8, 0, 0, 0, 0, 0, 0, 3, 0x33, 0x8A, 5, 0, 0xC7, 0x6B, 0x73, 0xB9, 2, 0, 0, 0]

theorem decode_append_named :
    decode namedMember = .ok [0x5B, 0x31, 0x2C] ∧ codedMember ≠ [] ∧
      decode (namedMember ++ codedMember) = .ok [0x5B, 0x31, 0x2C, 0x32, 0x5D] := by
  have hnamed : decode namedMember = .ok [0x5B, 0x31, 0x2C] := by decide +kernel
  have hcoded : decode codedMember = .ok [0x32, 0x5D] := by decide +kernel
  refine ⟨hnamed, by decide, ?_⟩
  rw [decode_append hnamed (by decide), hcoded]
  rfl

/-! ### What a body consists of -/

/-- A member and its content. -/
structure IsMember (m content : Bytes) : Prop where
  start : [0x1F, 0x8B, 8] <+: m
  alone : decode m = .ok content
  trailer : trailerBytes content <:+ m

theorem isMember_of_taken {m content : Bytes} (hstart : [0x1F, 0x8B, 8] <+: m)
    (htrailer : trailerBytes content <:+ m) (htaken : ∀ t, member (m ++ t) = .ok (content, t)) :
    IsMember m content where
  start := hstart
  alone := by
    have hmember := htaken []
    rw [List.append_nil] at hmember
    rw [decode, membersOnto_eq, hmember]
    simp [Except.map]
  trailer := htrailer

theorem exists_members_of_membersOnto {read contents : List Bytes} {s : Bytes}
    (h : membersOnto read s = .ok contents) :
    ∃ members : List (Bytes × Bytes), members ≠ [] ∧ s = (members.map Prod.fst).flatten ∧
      contents = read.reverse ++ members.map Prod.snd ∧ ∀ m ∈ members, IsMember m.1 m.2 := by
  fun_induction membersOnto read s with
  | case1 => simp at h
  | case2 read s content hmember =>
    obtain rfl := Except.ok.inj h
    obtain ⟨used, rfl, hstart, htrailer, htaken⟩ := exists_member hmember
    refine ⟨[(used, content)], by simp, by simp, by simp, ?_⟩
    exact List.forall_mem_singleton.mpr (isMember_of_taken hstart htrailer htaken)
  | case3 read s content rest hrest hmember ih =>
    obtain ⟨used, rfl, hstart, htrailer, htaken⟩ := exists_member hmember
    obtain ⟨members, -, rfl, rfl, hmembers⟩ := ih h
    refine ⟨(used, content) :: members, by simp, by simp, by simp, ?_⟩
    exact List.forall_mem_cons.mpr ⟨isMember_of_taken hstart htrailer htaken, hmembers⟩

/-- A body that is read is one member or more, one after the other. Each of them begins with the
fixed bytes of a header, is read alone as its content, and ends with the checksum of its content and
the size of it modulo 2³². -/
theorem exists_members_of_decode {body raw : Bytes} (h : decode body = .ok raw) :
    ∃ members : List (Bytes × Bytes), members ≠ [] ∧ body = (members.map Prod.fst).flatten ∧
      raw = (members.map Prod.snd).flatten ∧
      ∀ m ∈ members, [0x1F, 0x8B, 8] <+: m.1 ∧ decode m.1 = .ok m.2 ∧
        Bytes.ofNumber 4 (Crc32.checksum m.2).toNat ++ Bytes.ofNumber 4 (m.2.length % 2 ^ 32) <:+
          m.1 := by
  obtain ⟨contents, hcontents, rfl⟩ := map_eq_ok.mp h
  obtain ⟨members, hne, hbody, rfl, hmembers⟩ := exists_members_of_membersOnto hcontents
  refine ⟨members, hne, hbody, by simp, fun m hm ↦ ?_⟩
  obtain ⟨hstart, halone, htrailer⟩ := hmembers m hm
  have hsize : Bytes.ofNumber 4 (m.2.length % 2 ^ 32) = Bytes.ofNumber 4 m.2.length :=
    Bytes.ofNumber_mod 4 m.2.length
  exact ⟨hstart, halone, hsize ▸ htrailer⟩

theorem exists_members_of_decode_named :
    decode (namedMember ++ codedMember) = .ok [0x5B, 0x31, 0x2C, 0x32, 0x5D] ∧
      ∃ members : List (Bytes × Bytes), members ≠ [] ∧
        namedMember ++ codedMember = (members.map Prod.fst).flatten ∧
        [0x5B, 0x31, 0x2C, 0x32, 0x5D] = (members.map Prod.snd).flatten ∧
        ∀ m ∈ members, [0x1F, 0x8B, 8] <+: m.1 ∧ decode m.1 = .ok m.2 ∧
          Bytes.ofNumber 4 (Crc32.checksum m.2).toNat ++ Bytes.ofNumber 4 (m.2.length % 2 ^ 32) <:+
            m.1 := by
  have hbody : decode (namedMember ++ codedMember) = .ok [0x5B, 0x31, 0x2C, 0x32, 0x5D] := by
    decide +kernel
  exact ⟨hbody, exists_members_of_decode hbody⟩

end Intake.Gzip
