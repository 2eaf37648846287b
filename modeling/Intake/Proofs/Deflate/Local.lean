import Intake.Proofs.Deflate.Steps
import Intake.Proofs.Local

/-!
# DEFLATE streams end where they say

Every part of a DEFLATE stream is read without a look at what follows it, so a stream is read alike
whatever bytes stand behind it (`isLocal_blocks`).
-/

set_option autoImplicit false
set_option relaxedAutoImplicit false

namespace Intake.Deflate

open BitStream

/-! ### Numbers and symbols -/

theorem isLocal_readNumber (n : Nat) : BitStream.IsLocal (readNumber n) := by
  intro s x rest h
  obtain ⟨used, hs, hused⟩ := exists_of_number? (readNumber_eq_ok_iff.mp h)
  exact ⟨used, hs, fun t ↦ readNumber_eq_ok_iff.mpr (hused t)⟩

theorem exists_of_treeRead {α : Type} {tree : CodeTree α} {s rest : BitStream} {symbol : α}
    (h : tree.read s = .ok (symbol, rest)) :
    ∃ used, s.bytes = used ++ rest.bytes ∧
      ∀ t, tree.read ⟨s.bits, used ++ t⟩ = .ok (symbol, ⟨rest.bits, t⟩) := by
  induction tree generalizing s with
  | vacant => simp [CodeTree.read] at h
  | leaf =>
    obtain ⟨rfl, rfl⟩ := Prod.mk.inj (Except.ok.inj h)
    exact ⟨[], rfl, fun t ↦ rfl⟩
  | fork zero one ihZero ihOne =>
    unfold CodeTree.read at h
    split at h
    · simp at h
    · rename_i middle hnext
      obtain ⟨used, hs, hused⟩ := exists_of_next? hnext
      obtain ⟨more, hmiddle, hmore⟩ := ihZero h
      refine ⟨used ++ more, by rw [hs, hmiddle, List.append_assoc], fun t ↦ ?_⟩
      rw [List.append_assoc, CodeTree.read, hused]
      exact hmore t
    · rename_i middle hnext
      obtain ⟨used, hs, hused⟩ := exists_of_next? hnext
      obtain ⟨more, hmiddle, hmore⟩ := ihOne h
      refine ⟨used ++ more, by rw [hs, hmiddle, List.append_assoc], fun t ↦ ?_⟩
      rw [List.append_assoc, CodeTree.read, hused]
      exact hmore t

theorem isLocal_readSymbol {α : Type} (code : PrefixCode α) :
    BitStream.IsLocal (readSymbol code) := by
  intro s symbol rest h
  obtain ⟨used, hs, hused⟩ := exists_of_treeRead (readSymbol_eq_ok_iff.mp h)
  exact ⟨used, hs, fun t ↦ readSymbol_eq_ok_iff.mpr (hused t)⟩

theorem isLocal_readExtended (bases : Array (Nat × Nat)) (symbol : Nat) :
    BitStream.IsLocal (readExtended bases symbol) := by
  intro s x rest h
  obtain ⟨base, extra, n, hentry, hn, rfl⟩ := readExtended_eq_ok_iff.mp h
  obtain ⟨used, hs, hused⟩ := isLocal_readNumber extra hn
  exact ⟨used, hs, fun t ↦ readExtended_eq_ok_iff.mpr ⟨base, extra, n, hentry, hused t, rfl⟩⟩

/-! ### Tokens -/

theorem isLocal_readToken (codes : Codes) : BitStream.IsLocal (readToken codes) := by
  intro s token rest h
  obtain ⟨symbol, s₁, hsymbol, hcase⟩ := readToken_eq_ok_iff.mp h
  obtain ⟨used, hs, hused⟩ := isLocal_readSymbol _ hsymbol
  obtain ⟨hliteral, rfl, rfl⟩ | ⟨hend, rfl, rfl⟩ |
    ⟨hlonger, length, s₂, place, s₃, distance, hlength, hplace, hdistance, rfl⟩ := hcase
  · exact ⟨used, hs, fun t ↦
      readToken_eq_ok_iff.mpr ⟨symbol, _, hused t, .inl ⟨hliteral, rfl, rfl⟩⟩⟩
  · exact ⟨used, hs, fun t ↦
      readToken_eq_ok_iff.mpr ⟨symbol, _, hused t, .inr (.inl ⟨hend, rfl, rfl⟩)⟩⟩
  · obtain ⟨forLength, hs₁, hforLength⟩ := isLocal_readExtended _ _ hlength
    obtain ⟨forPlace, hs₂, hforPlace⟩ := isLocal_readSymbol _ hplace
    obtain ⟨forDistance, hs₃, hforDistance⟩ := isLocal_readExtended _ _ hdistance
    refine ⟨used ++ forLength ++ forPlace ++ forDistance, by simp [hs, hs₁, hs₂, hs₃], fun t ↦ ?_⟩
    simp only [List.append_assoc]
    exact readToken_eq_ok_iff.mpr ⟨symbol, _, hused _, .inr (.inr ⟨hlonger, length, _, place, _,
      distance, hforLength _, hforPlace _, hforDistance t, rfl⟩)⟩

theorem isLocal_readTokensOnto (codes : Codes) (read : List Token) :
    BitStream.IsLocal (readTokensOnto codes read) := by
  intro s tokens rest h
  fun_induction readTokensOnto codes read s with
  | case1 => simp at h
  | case2 read s middle hread =>
    obtain ⟨rfl, rfl⟩ := Prod.mk.inj (Except.ok.inj h)
    obtain ⟨used, hs, hused⟩ := isLocal_readToken codes hread
    exact ⟨used, hs, fun t ↦ readTokensOnto_eq_ok_iff.mpr (.inl ⟨hused t, rfl⟩)⟩
  | case3 read s token middle hread ih =>
    obtain ⟨used, hs, hused⟩ := isLocal_readToken codes hread
    obtain ⟨more, hmiddle, hmore⟩ := ih h
    refine ⟨used ++ more, by rw [hs, hmiddle, List.append_assoc], fun t ↦ ?_⟩
    rw [List.append_assoc]
    exact readTokensOnto_eq_ok_iff.mpr (.inr ⟨token, _, hused _, hmore t⟩)

/-! ### Word lengths -/

theorem isLocal_readLengths (code : PrefixCode Nat) (read : List Nat) :
    BitStream.IsLocal (readLengths code read) := by
  intro s lengths rest h
  obtain ⟨symbol, s₁, hsymbol, hcase⟩ := readLengths_eq_ok_iff.mp h
  obtain ⟨used, hs, hused⟩ := isLocal_readSymbol _ hsymbol
  obtain ⟨hkind, rfl, rfl⟩ | ⟨extra, least, previous, length, n, hkind, hlength, hn, rfl⟩ := hcase
  · exact ⟨used, hs, fun t ↦
      readLengths_eq_ok_iff.mpr ⟨symbol, _, hused t, .inl ⟨hkind, rfl, rfl⟩⟩⟩
  · obtain ⟨more, hs₁, hmore⟩ := isLocal_readNumber _ hn
    refine ⟨used ++ more, by rw [hs, hs₁, List.append_assoc], fun t ↦ ?_⟩
    rw [List.append_assoc]
    exact readLengths_eq_ok_iff.mpr ⟨symbol, _, hused _,
      .inr ⟨extra, least, previous, length, n, hkind, hlength, hmore t, rfl⟩⟩

theorem isLocal_readLengthsOnto (code : PrefixCode Nat) (count : Nat) (read : List Nat) :
    BitStream.IsLocal (readLengthsOnto code count read) := by
  intro s lengths rest h
  fun_induction readLengthsOnto code count read s with
  | case1 => simp at h
  | case2 read s hcount longer middle hread ih =>
    obtain ⟨used, hs, hused⟩ := isLocal_readLengths code read hread
    obtain ⟨more, hmiddle, hmore⟩ := ih h
    refine ⟨used ++ more, by rw [hs, hmiddle, List.append_assoc], fun t ↦ ?_⟩
    rw [List.append_assoc]
    exact readLengthsOnto_eq_ok_iff.mpr (.inl ⟨longer, _, hcount, hused _, hmore t⟩)
  | case3 read s _ hcount =>
    obtain ⟨rfl, rfl⟩ := Prod.mk.inj (Except.ok.inj h)
    exact ⟨[], rfl, fun t ↦ readLengthsOnto_eq_ok_iff.mpr (.inr ⟨hcount, rfl, rfl⟩)⟩
  | case4 => simp at h

theorem isLocal_readShortLengths (n : Nat) : BitStream.IsLocal (readShortLengths n) := by
  intro s lengths rest h
  induction n generalizing s lengths with
  | zero =>
    obtain ⟨rfl, rfl⟩ := Prod.mk.inj (Except.ok.inj h)
    exact ⟨[], rfl, fun t ↦ rfl⟩
  | succ n ih =>
    obtain ⟨length, s₁, more, hlength, hmore, rfl⟩ := readShortLengths_succ_eq_ok_iff.mp h
    obtain ⟨used, hs, hused⟩ := isLocal_readNumber 3 hlength
    obtain ⟨used', hs₁, hused'⟩ := ih hmore
    refine ⟨used ++ used', by rw [hs, hs₁, List.append_assoc], fun t ↦ ?_⟩
    rw [List.append_assoc]
    exact readShortLengths_succ_eq_ok_iff.mpr ⟨length, _, more, hused _, hused' t, rfl⟩

theorem isLocal_readCodes : BitStream.IsLocal readCodes := by
  intro s codes rest h
  obtain ⟨literals, s₁, distances, s₂, shorts, s₃, short, s₄, lengths, h₁, h₂, h₃, hliterals,
    hdistances, h₄, hkraft, h₅, hcodes⟩ := readCodes_eq_ok_iff.mp h
  obtain ⟨used₁, hs, hused₁⟩ := isLocal_readNumber 5 h₁
  obtain ⟨used₂, hs₁, hused₂⟩ := isLocal_readNumber 5 h₂
  obtain ⟨used₃, hs₂, hused₃⟩ := isLocal_readNumber 4 h₃
  obtain ⟨used₄, hs₃, hused₄⟩ := isLocal_readShortLengths _ h₄
  obtain ⟨used₅, hs₄, hused₅⟩ := isLocal_readLengthsOnto _ _ _ h₅
  refine ⟨used₁ ++ used₂ ++ used₃ ++ used₄ ++ used₅, by simp [hs, hs₁, hs₂, hs₃, hs₄],
    fun t ↦ ?_⟩
  simp only [List.append_assoc]
  exact readCodes_eq_ok_iff.mpr ⟨literals, _, distances, _, shorts, _, short, _, lengths, hused₁ _,
    hused₂ _, hused₃ _, hliterals, hdistances, hused₄ _, hkraft, hused₅ t, hcodes⟩

/-! ### Blocks -/

theorem isLocal_readStored : Intake.IsLocal readStored := by
  intro s bytes rest h
  obtain ⟨header, tail, hheader, hsizes, hbytes⟩ := readStored_eq_ok_iff.mp h
  obtain ⟨hheaderLength, rfl⟩ := Bytes.split?_eq_some_iff.mp hheader
  obtain ⟨hlength, rfl⟩ := Bytes.split?_eq_some_iff.mp hbytes
  refine ⟨header ++ bytes, (List.append_assoc _ _ _).symm, fun t ↦ ?_⟩
  rw [List.append_assoc]
  exact readStored_eq_ok_iff.mpr ⟨header, bytes ++ t,
    Bytes.split?_eq_some_iff.mpr ⟨hheaderLength, rfl⟩, hsizes,
    Bytes.split?_eq_some_iff.mpr ⟨hlength, rfl⟩⟩

theorem isLocal_readBody (kind : Nat) : BitStream.IsLocal (readBody kind) := by
  intro s block rest h
  obtain ⟨rfl, bytes, tail, hstored, rfl, rfl⟩ | ⟨codes, s₁, tokens, hcodes, htokens, rfl⟩ :=
    readBody_eq_ok_iff.mp h
  · obtain ⟨used, hs, hused⟩ := isLocal_readStored hstored
    exact ⟨used, hs, fun t ↦ readBody_eq_ok_iff.mpr (.inl ⟨rfl, bytes, t, hused t, rfl, rfl⟩)⟩
  · obtain ⟨more, hs₁, hmore⟩ := isLocal_readTokensOnto _ _ htokens
    obtain ⟨rfl, rfl, rfl⟩ | ⟨rfl, hcodes⟩ := hcodes
    · exact ⟨more, hs₁, fun t ↦ readBody_eq_ok_iff.mpr
        (.inr ⟨.fixed, _, tokens, .inl ⟨rfl, rfl, rfl⟩, hmore t, rfl⟩)⟩
    · obtain ⟨used, hs, hused⟩ := isLocal_readCodes hcodes
      refine ⟨used ++ more, by rw [hs, hs₁, List.append_assoc], fun t ↦ ?_⟩
      rw [List.append_assoc]
      exact readBody_eq_ok_iff.mpr
        (.inr ⟨codes, _, tokens, .inr ⟨rfl, hused _⟩, hmore t, rfl⟩)

theorem isLocal_readBlock : BitStream.IsLocal readBlock := by
  rintro s ⟨last, block⟩ rest h
  obtain ⟨mark, s₁, kind, s₂, hmark, hkind, hbody, rfl⟩ := readBlock_eq_ok_iff.mp h
  obtain ⟨used₁, hs, hused₁⟩ := isLocal_readNumber 1 hmark
  obtain ⟨used₂, hs₁, hused₂⟩ := isLocal_readNumber 2 hkind
  obtain ⟨used₃, hs₂, hused₃⟩ := isLocal_readBody kind hbody
  refine ⟨used₁ ++ used₂ ++ used₃, by simp [hs, hs₁, hs₂], fun t ↦ ?_⟩
  simp only [List.append_assoc]
  exact readBlock_eq_ok_iff.mpr ⟨mark, _, kind, _, hused₁ _, hused₂ _, hused₃ t, rfl⟩

theorem isLocal_readBlocksOnto (read : List Block) : BitStream.IsLocal (readBlocksOnto read) := by
  intro s blocks rest h
  fun_induction readBlocksOnto read s with
  | case1 => simp at h
  | case2 read s block middle hread =>
    obtain ⟨rfl, rfl⟩ := Prod.mk.inj (Except.ok.inj h)
    obtain ⟨used, hs, hused⟩ := isLocal_readBlock hread
    exact ⟨used, hs, fun t ↦
      readBlocksOnto_eq_ok_iff.mpr ⟨true, block, _, hused t, .inl ⟨rfl, rfl, rfl⟩⟩⟩
  | case3 read s block middle hread ih =>
    obtain ⟨used, hs, hused⟩ := isLocal_readBlock hread
    obtain ⟨more, hmiddle, hmore⟩ := ih h
    refine ⟨used ++ more, by rw [hs, hmiddle, List.append_assoc], fun t ↦ ?_⟩
    rw [List.append_assoc]
    exact readBlocksOnto_eq_ok_iff.mpr ⟨false, block, _, hused _, .inr ⟨rfl, hmore t⟩⟩

theorem isLocal_blocks : Intake.IsLocal blocks := by
  intro s bs rest h
  obtain ⟨behind, hread, rfl⟩ := blocks_eq_ok_iff.mp h
  obtain ⟨used, hs, hused⟩ := isLocal_readBlocksOnto [] hread
  exact ⟨used, hs, fun t ↦ blocks_eq_ok_iff.mpr ⟨_, hused t, rfl⟩⟩

end Intake.Deflate
