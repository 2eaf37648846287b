import Intake.Proofs.Bits
import Intake.Proofs.Deflate.Steps

/-!
# How much a stream stands for

A bit of a stream pays for 129 bytes. A literal takes one bit at least and stands for one byte, a
copy takes a bit for its length and one for its distance and stands for 258 bytes at most
(`size_readToken_le`). Bytes that are stored take eight bits each. So whatever a step adds to the
output is paid for by the bits that it takes, and a stream stands for at most 1032 times as many
bytes as it has itself (`length_content_le`).
-/

set_option autoImplicit false
set_option relaxedAutoImplicit false

namespace Intake

namespace BitStream

theorem size_ofBytes (s : Bytes) : (ofBytes s).size = 8 * s.length :=
  Nat.zero_add _

theorem length_of_take? {n : Nat} {s rest : BitStream} {bits : List Bool}
    (h : take? n s = some (bits, rest)) : bits.length = n := by
  induction n generalizing s rest bits with
  | zero =>
    obtain ⟨rfl, -⟩ := Prod.mk.inj (Option.some_inj.mp h)
    rfl
  | succ n ih =>
    simp only [take?, Option.bind_eq_bind, Option.bind_eq_some_iff, Option.pure_def,
      Option.some_inj, Prod.mk.injEq, Prod.exists] at h
    obtain ⟨b, s₁, -, more, s₂, hmore, rfl, -⟩ := h
    rw [List.length_cons, ih hmore]

end BitStream

namespace Deflate

/-! ### Tokens -/

theorem lt_of_readNumber {n x : Nat} {s rest : BitStream} (h : readNumber n s = .ok (x, rest)) :
    x < 2 ^ n := by
  obtain ⟨⟨bits, s₁⟩, htake, heq⟩ := Option.map_eq_some_iff.mp (readNumber_eq_ok_iff.mp h)
  obtain ⟨rfl, -⟩ := Prod.mk.inj heq
  rw [← BitStream.length_of_take? htake]
  exact ofLowBits_lt bits

theorem lengthBases_le : ∀ entry ∈ lengthBases, entry.1 + 2 ^ entry.2 ≤ 259 := by decide

/-- No length is above 258, whatever its extra bits are. -/
theorem le_of_readLength {symbol length : Nat} {s rest : BitStream}
    (h : readExtended lengthBases symbol s = .ok (length, rest)) : length ≤ 258 := by
  obtain ⟨base, extra, n, hentry, hn, rfl⟩ := readExtended_eq_ok_iff.mp h
  have hbase := lengthBases_le (base, extra) (Array.mem_of_getElem? hentry)
  have hlt := lt_of_readNumber hn
  dsimp only at hbase
  omega

/-- A token is paid for by the bits that it takes. -/
theorem size_readToken_le {codes : Codes} {token : Token} {s rest : BitStream}
    (h : readToken codes s = .ok (some token, rest)) :
    token.size + 129 * rest.size ≤ 129 * s.size := by
  obtain ⟨symbol, s₁, hsymbol, ⟨-, htoken, rfl⟩ | ⟨-, hend, -⟩ |
    ⟨-, length, s₂, place, s₃, distance, hlength, hplace, hdistance, htoken⟩⟩ :=
      readToken_eq_ok_iff.mp h
  · obtain rfl := Option.some_inj.mp htoken
    have hbit := size_readSymbol_lt hsymbol
    rw [Token.size]
    omega
  · simp at hend
  · obtain rfl := Option.some_inj.mp htoken
    have hlong := le_of_readLength hlength
    have hbit := size_readSymbol_lt hsymbol
    have hextra := size_readExtended hlength
    have hbit' := size_readSymbol_lt hplace
    have hextra' := size_readExtended hdistance
    rw [Token.size]
    omega

/-- So are tokens up to the end of their block. -/
theorem size_readTokensOnto_le {codes : Codes} {read tokens : List Token} {s rest : BitStream}
    (h : readTokensOnto codes read s = .ok (tokens, rest)) :
    (tokens.map Token.size).sum + 129 * rest.size ≤
      (read.map Token.size).sum + 129 * s.size := by
  fun_induction readTokensOnto codes read s with
  | case1 => simp at h
  | case2 read s rest hread =>
    obtain ⟨rfl, rfl⟩ := Prod.mk.inj (Except.ok.inj h)
    have hbit := size_readToken_lt hread
    rw [List.map_reverse, List.sum_reverse]
    omega
  | case3 read s token s₁ hread ih =>
    have hmore := ih h
    have htoken := size_readToken_le hread
    rw [List.map_cons, List.sum_cons] at hmore
    omega

/-! ### Blocks -/

/-- How many bytes a block stands for. -/
def Block.size : Block → Nat
  | stored bytes => bytes.length
  | coded tokens => (tokens.map Token.size).sum

theorem Block.size_run (block : Block) (output : Array UInt8) :
    (block.run output).size = output.size + block.size := by
  cases block with
  | stored bytes =>
    rw [run, size, ← Array.length_toList, Array.toList_appendList, List.length_append,
      Array.length_toList]
  | coded tokens => exact Token.size_expand output tokens

theorem size_foldl_run (blocks : List Block) (output : Array UInt8) :
    (blocks.foldl Block.run output).size = output.size + (blocks.map Block.size).sum := by
  induction blocks generalizing output with
  | nil => rfl
  | cons block blocks ih =>
    rw [List.foldl_cons, ih, Block.size_run, List.map_cons, List.sum_cons, Nat.add_assoc]

theorem length_content (blocks : List Block) :
    (content blocks).length = (blocks.map Block.size).sum := by
  rw [content, Array.length_toList, size_foldl_run, Array.size_empty, Nat.zero_add]

theorem length_readStored_le {s bytes rest : Bytes} (h : readStored s = .ok (bytes, rest)) :
    bytes.length + rest.length ≤ s.length := by
  obtain ⟨header, tail, hheader, -, hstored⟩ := readStored_eq_ok_iff.mp h
  obtain ⟨-, rfl⟩ := Bytes.split?_eq_some_iff.mp hheader
  obtain ⟨-, rfl⟩ := Bytes.split?_eq_some_iff.mp hstored
  simp only [List.length_append]
  omega

/-- A block is paid for by the bits that it takes. -/
theorem size_readBody_le {kind : Nat} {block : Block} {s rest : BitStream}
    (h : readBody kind s = .ok (block, rest)) :
    block.size + 129 * rest.size ≤ 129 * s.size := by
  obtain ⟨-, bytes, tail, hstored, rfl, rfl⟩ | ⟨codes, s₁, tokens, hcodes, htokens, rfl⟩ :=
    readBody_eq_ok_iff.mp h
  · have hlength := length_readStored_le hstored
    have haligned := s.size_aligned
    rw [Block.size, BitStream.size_ofBytes]
    omega
  · have hpaid := size_readTokensOnto_le htokens
    have hs₁ : s₁.size ≤ s.size := by
      obtain ⟨-, -, rfl⟩ | ⟨-, hcodes⟩ := hcodes
      · exact Nat.le_refl _
      · exact size_readCodes hcodes
    rw [List.map_nil, List.sum_nil] at hpaid
    rw [Block.size]
    omega

theorem size_readBlock_le {last : Bool} {block : Block} {s rest : BitStream}
    (h : readBlock s = .ok ((last, block), rest)) :
    block.size + 129 * rest.size ≤ 129 * s.size := by
  obtain ⟨mark, s₁, kind, s₂, hmark, hkind, hbody, -⟩ := readBlock_eq_ok_iff.mp h
  have hpaid := size_readBody_le hbody
  have hbit := size_readNumber hmark
  have hbits := size_readNumber hkind
  omega

/-- So are blocks up to the last one. -/
theorem size_readBlocksOnto_le {read blocks : List Block} {s rest : BitStream}
    (h : readBlocksOnto read s = .ok (blocks, rest)) :
    (blocks.map Block.size).sum + 129 * rest.size ≤ (read.map Block.size).sum + 129 * s.size := by
  fun_induction readBlocksOnto read s with
  | case1 => simp at h
  | case2 read s block rest hread =>
    obtain ⟨rfl, rfl⟩ := Prod.mk.inj (Except.ok.inj h)
    have hpaid := size_readBlock_le hread
    rw [List.map_reverse, List.sum_reverse, List.map_cons, List.sum_cons]
    omega
  | case3 read s block s₁ hread ih =>
    have hmore := ih h
    have hpaid := size_readBlock_le hread
    rw [List.map_cons, List.sum_cons] at hmore
    omega

/-- A stream stands for at most 1032 times as many bytes as it has itself. -/
theorem length_content_le {s rest : Bytes} {bs : List Block} (h : blocks s = .ok (bs, rest)) :
    (content bs).length + 1032 * rest.length ≤ 1032 * s.length := by
  obtain ⟨behind, hread, rfl⟩ := blocks_eq_ok_iff.mp h
  have hpaid := size_readBlocksOnto_le hread
  have haligned := behind.size_aligned
  rw [List.map_nil, List.sum_nil, BitStream.size_ofBytes] at hpaid
  rw [length_content]
  omega

end Deflate

end Intake
