import Intake.Proofs.Deflate.Size
import Intake.Proofs.Gzip.Stored

/-!
# How much a gzip body stands for

A body stands for at most 1032 times as many bytes as it has itself, however many members it has and
whatever is in them, since the stream of each member is paid for by its own bits
(`length_member_le`). No smaller factor bounds all bodies: a block may have codes in which the
longest copy takes two bits, so that all but a fixed number of its bits stand for 129 bytes each
(`decode_zerosMember`).
-/

set_option autoImplicit false
set_option relaxedAutoImplicit false

namespace Intake

open Deflate

/-! ### At most -/

namespace Gzip

/-- The content of a member is paid for by the bytes of the member. -/
theorem length_member_le {s content rest : Bytes} (h : member s = .ok (content, rest)) :
    content.length + 1032 * rest.length ≤ 1032 * s.length := by
  obtain ⟨s₁, blocks, s₂, sum, s₃, size, h₁, h₂, h₃, h₄, rfl, -⟩ := member_eq_ok_iff.mp h
  have hheader := length_skipHeader h₁
  have hpaid := length_content_le h₂
  have hsum := length_fixedSize h₃
  have hsize := length_fixedSize h₄
  omega

theorem length_membersOnto_le {read contents : List Bytes} {s : Bytes}
    (h : membersOnto read s = .ok contents) :
    contents.flatten.length ≤ read.flatten.length + 1032 * s.length := by
  fun_induction membersOnto read s with
  | case1 => simp at h
  | case2 read s content hmember =>
    obtain rfl := Except.ok.inj h
    have hpaid := length_member_le hmember
    simp only [List.length_flatten, List.map_reverse, List.sum_reverse, List.map_cons,
      List.sum_cons]
    omega
  | case3 read s content rest hrest hmember ih =>
    have hmore := ih h
    have hpaid := length_member_le hmember
    rw [List.flatten_cons, List.length_append] at hmore
    omega

end Gzip

/-! ### As much as that -/

namespace Deflate

/-- Codes in which the longest length has a word of one bit, as have two distances. -/
def longestCopies : Description where
  literals := [2] ++ List.replicate 255 0 ++ [2] ++ List.replicate 28 0 ++ [1]
  distances := [1, 1]
  shorts := [0, 2, 2] ++ List.replicate 15 0 ++ [1]
  written := 18
  runs := [.single 2, .manyZeros 138, .manyZeros 117, .single 2, .manyZeros 28, .single 1,
    .single 1, .single 1]

/-- A zero and `n` copies of it, each as long as a copy may be. -/
def zerosTokens (n : Nat) : List Token :=
  .literal 0 :: List.replicate n (.copy 258 1)

/-- A block of zeros in which a copy takes two bits. -/
def zerosPlan (n : Nat) : Plan :=
  .described longestCopies (zerosTokens n)

theorem areLegal_replicate_copy {produced : Nat} (hpos : 0 < produced) (n : Nat) :
    Token.AreLegal produced (List.replicate n (.copy 258 1)) := by
  induction n generalizing produced with
  | zero => trivial
  | succ n ih => exact ⟨⟨by decide, by decide, by decide, by decide, hpos⟩, ih (by omega)⟩

theorem areLegal_zerosPlan (n : Nat) : AreLegal [] [zerosPlan n] := by
  have hcodes : longestCopies.IsLegal := by decide +kernel
  have hwords : ∀ token : Token, token = .literal 0 ∨ token = .copy 258 1 →
      token.HasWords longestCopies.literals longestCopies.distances := by
    rintro token (rfl | rfl)
    · decide
    · decide +kernel
  refine ⟨⟨hcodes, ⟨trivial, areLegal_replicate_copy Nat.one_pos n⟩, fun token htoken ↦ ?_⟩,
    trivial⟩
  obtain rfl | hcopy := List.mem_cons.mp htoken
  · exact hwords _ (.inl rfl)
  · exact hwords token (.inr (List.eq_of_mem_replicate hcopy))

/-- The block has two bits for each copy, and some more. -/
theorem length_text_zerosPlan (n : Nat) : (text 0 [zerosPlan n]).length = 2 * n + 109 := by
  have hcodes : longestCopies.text.length = 102 := by decide +kernel
  have hliteral :
      ((Token.literal 0).text longestCopies.literals longestCopies.distances).length = 2 := by
    decide +kernel
  have hcopy :
      ((Token.copy 258 1).text longestCopies.literals longestCopies.distances).length = 2 := by
    decide +kernel
  have hend : (wordOf longestCopies.literals 256).length = 2 := by decide +kernel
  have htokens : (tokensText longestCopies.literals longestCopies.distances
      (zerosTokens n)).length = 2 * n + 4 := by
    rw [tokensText, zerosTokens, List.flatMap_cons, List.length_append, List.length_append,
      List.length_flatMap, List.map_replicate, List.sum_replicate_nat, hliteral, hcopy, hend]
    omega
  rw [text, text, List.append_nil, Plan.length_text, zerosPlan, Plan.body, List.length_append,
    hcodes, htokens]
  omega

theorem length_output_zerosPlan (n : Nat) : (output [zerosPlan n]).length = 258 * n + 1 := by
  rw [← content_blocks (areLegal_zerosPlan n), length_content]
  simp only [zerosPlan, zerosTokens, Plan.block, Block.size, Token.size, List.map_cons,
    List.map_nil, List.map_replicate, List.sum_cons, List.sum_nil, List.sum_replicate_nat]
  omega

theorem length_bytes_le (plans : List Plan) (filling : Nat) :
    8 * (bytes plans filling).length ≤ (text 0 plans).length + 7 := by
  have hpadding := length_paddingText (text 0 plans).length filling
  have hwhole : 8 ∣ (text 0 plans ++ paddingText (text 0 plans).length filling).length := by
    rw [List.length_append]
    omega
  rw [← Bytes.length_bits, bytes, Bytes.bits_ofBits hwhole, List.length_append]
  omega

end Deflate

namespace Gzip

/-- A header that says nothing. -/
def bareHeader : Header where
  isText := false
  time := 0
  extraFlags := 0
  system := 255
  extra := none
  name := none
  comment := none
  isChecked := false

/-- A member of one zero and `n` of the longest copies. -/
def zerosMember (n : Nat) : Bytes :=
  memberBytes bareHeader [zerosPlan n] 0

theorem decode_zerosMember (n : Nat) :
    decode (zerosMember n) = .ok (output [zerosPlan n]) := by
  have hheader : bareHeader.IsLegal := ⟨by decide, by decide, by decide⟩
  have hfew : (zerosPlan n).FewDistances := by
    show [1, 1].length ≤ 30
    decide
  exact decode_of_member (member_memberBytes hheader (by simp) (areLegal_zerosPlan n)
    (List.forall_mem_singleton.mpr hfew) 0)

theorem length_zerosMember_le (n : Nat) : 8 * (zerosMember n).length ≤ 2 * n + 260 := by
  have hstream := length_bytes_le [zerosPlan n] 0
  have hheader : bareHeader.bytes.length = 10 := by decide
  rw [length_text_zerosPlan] at hstream
  rw [zerosMember, memberBytes, trailerBytes, List.length_append, List.length_append,
    List.length_append, hheader, Bytes.length_ofNumber, Bytes.length_ofNumber]
  omega

/-- What a gzip body stands for is at most 1032 times as long as the body. For every smaller factor
there is a body for which it is too small. -/
theorem length_decode_le :
    (∀ ⦃body raw : Bytes⦄, decode body = .ok raw → raw.length ≤ 1032 * body.length) ∧
      ∀ factor < 1032, ∃ body raw, decode body = .ok raw ∧ factor * body.length < raw.length := by
  constructor
  · intro body raw h
    obtain ⟨contents, hcontents, rfl⟩ := map_eq_ok.mp h
    have hpaid := length_membersOnto_le hcontents
    rwa [List.flatten_nil, List.length_nil, Nat.zero_add] at hpaid
  · intro factor hfactor
    refine ⟨zerosMember 134100, _, decode_zerosMember 134100, ?_⟩
    have hshort := length_zerosMember_le 134100
    have hscaled := Nat.mul_le_mul_right (zerosMember 134100).length (Nat.le_of_lt_succ hfactor)
    rw [length_output_zerosPlan]
    omega

theorem length_decode_le_zeros :
    decode (zerosMember 3) = .ok (List.replicate 775 0) ∧
      (List.replicate 775 (0 : UInt8)).length ≤ 1032 * (zerosMember 3).length ∧ 1031 < 1032 ∧
      ∃ body raw, decode body = .ok raw ∧ 1031 * body.length < raw.length := by
  have hbody : decode (zerosMember 3) = .ok (List.replicate 775 0) := by
    rw [decode_zerosMember]
    exact congrArg Except.ok (by decide +kernel)
  exact ⟨hbody, length_decode_le.1 hbody, by decide, length_decode_le.2 1031 (by decide)⟩

end Gzip

end Intake
