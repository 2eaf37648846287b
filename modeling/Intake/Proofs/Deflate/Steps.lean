import Intake.Deflate.Block
import Mathlib.Tactic.Common

/-!
# Steps of a DEFLATE reader

For each reader of the format: the steps that lead to its result. What is proved of all streams that
can be read, and what is proved of streams that are written, starts from these.
-/

set_option autoImplicit false
set_option relaxedAutoImplicit false

namespace Intake.Deflate

variable {α : Type} {s rest : BitStream}

/-! ### Numbers and symbols -/

theorem readNumber_eq_ok_iff {n x : Nat} :
    readNumber n s = .ok (x, rest) ↔ s.number? n = some (x, rest) := by
  unfold readNumber
  cases s.number? n with
  | none => simp
  | some read => simp

theorem readSymbol_eq_ok_iff {code : PrefixCode α} {symbol : α} :
    readSymbol code s = .ok (symbol, rest) ↔ code.read s = .ok (symbol, rest) := by
  unfold readSymbol
  cases code.read s with
  | error e => simp
  | ok read => simp

theorem readExtended_eq_ok_iff {bases : Array (Nat × Nat)} {symbol x : Nat} :
    readExtended bases symbol s = .ok (x, rest) ↔
      ∃ base extra n, bases[symbol]? = some (base, extra) ∧
        readNumber extra s = .ok (n, rest) ∧ x = base + n := by
  unfold readExtended
  constructor
  · intro h
    split at h
    · simp at h
    · rename_i base extra hentry
      split at h
      · simp at h
      · rename_i n s₁ hn
        obtain ⟨rfl, rfl⟩ := Prod.mk.inj (Except.ok.inj h)
        exact ⟨base, extra, n, hentry, hn, rfl⟩
  · rintro ⟨base, extra, n, hentry, hn, rfl⟩
    simp only [hentry, hn]

/-! ### Tokens -/

/-- A token is a literal, the end of the block, or a length and a distance. -/
theorem readToken_eq_ok_iff {codes : Codes} {token : Option Token} :
    readToken codes s = .ok (token, rest) ↔
      ∃ symbol s₁, readSymbol codes.literals s = .ok (symbol, s₁) ∧
        (symbol < endOfBlock ∧ token = some (.literal symbol.toUInt8) ∧ rest = s₁ ∨
          symbol = endOfBlock ∧ token = none ∧ rest = s₁ ∨
          endOfBlock < symbol ∧ ∃ length s₂ place s₃ distance,
            readExtended lengthBases (symbol - 257) s₁ = .ok (length, s₂) ∧
            readSymbol codes.distances s₂ = .ok (place, s₃) ∧
            readExtended distanceBases place s₃ = .ok (distance, rest) ∧
            token = some (.copy length distance)) := by
  unfold readToken
  constructor
  · intro h
    split at h
    · simp at h
    · rename_i symbol s₁ hsymbol
      refine ⟨symbol, s₁, hsymbol, ?_⟩
      split at h
      · rename_i hliteral
        obtain ⟨rfl, rfl⟩ := Prod.mk.inj (Except.ok.inj h)
        exact .inl ⟨hliteral, rfl, rfl⟩
      · split at h
        · rename_i hend
          obtain ⟨rfl, rfl⟩ := Prod.mk.inj (Except.ok.inj h)
          exact .inr (.inl ⟨hend, rfl, rfl⟩)
        · split at h
          · simp at h
          · rename_i length s₂ hlength
            split at h
            · simp at h
            · rename_i place s₃ hplace
              split at h
              · simp at h
              · rename_i distance s₄ hdistance
                obtain ⟨rfl, rfl⟩ := Prod.mk.inj (Except.ok.inj h)
                exact .inr (.inr ⟨by omega, length, s₂, place, s₃, distance, hlength, hplace,
                  hdistance, rfl⟩)
  · rintro ⟨symbol, s₁, hsymbol, ⟨hliteral, rfl, rfl⟩ | ⟨rfl, rfl, rfl⟩ |
      ⟨hlonger, length, s₂, place, s₃, distance, hlength, hplace, hdistance, rfl⟩⟩
    · simp only [hsymbol, if_pos hliteral]
    · simp only [hsymbol, Nat.lt_irrefl, if_false, if_true]
    · simp only [hsymbol, if_neg (Nat.lt_asymm hlonger), if_neg (Nat.ne_of_gt hlonger), hlength,
        hplace, hdistance]

theorem readTokensOnto_eq_ok_iff {codes : Codes} {read tokens : List Token} :
    readTokensOnto codes read s = .ok (tokens, rest) ↔
      readToken codes s = .ok (none, rest) ∧ tokens = read.reverse ∨
        ∃ token s₁, readToken codes s = .ok (some token, s₁) ∧
          readTokensOnto codes (token :: read) s₁ = .ok (tokens, rest) := by
  rw [readTokensOnto]
  constructor
  · intro h
    split at h
    · simp at h
    · rename_i s₁ hnone
      obtain ⟨rfl, rfl⟩ := Prod.mk.inj (Except.ok.inj h)
      exact .inl ⟨hnone, rfl⟩
    · rename_i token s₁ htoken
      exact .inr ⟨token, s₁, htoken, h⟩
  · rintro (⟨hnone, rfl⟩ | ⟨token, s₁, htoken, h⟩)
    · split <;> simp_all
    · split <;> simp_all

/-! ### Word lengths -/

/-- A symbol of the third code is a word length, or repeats one. -/
theorem readLengths_eq_ok_iff {code : PrefixCode Nat} {read lengths : List Nat} :
    readLengths code read s = .ok (lengths, rest) ↔
      ∃ symbol s₁, readSymbol code s = .ok (symbol, s₁) ∧
        (repetition? symbol = none ∧ lengths = symbol :: read ∧ rest = s₁ ∨
          ∃ extra least previous length n, repetition? symbol = some (extra, least, previous) ∧
            (if previous then read.head? else some 0) = some length ∧
            readNumber extra s₁ = .ok (n, rest) ∧
            lengths = List.replicate (least + n) length ++ read) := by
  unfold readLengths
  constructor
  · intro h
    split at h
    · simp at h
    · rename_i symbol s₁ hsymbol
      refine ⟨symbol, s₁, hsymbol, ?_⟩
      split at h
      · rename_i hkind
        obtain ⟨rfl, rfl⟩ := Prod.mk.inj (Except.ok.inj h)
        exact .inl ⟨hkind, rfl, rfl⟩
      · rename_i extra least previous hkind
        split at h
        · simp at h
        · rename_i length hlength
          split at h
          · simp at h
          · rename_i n s₂ hn
            obtain ⟨rfl, rfl⟩ := Prod.mk.inj (Except.ok.inj h)
            exact .inr ⟨extra, least, previous, length, n, hkind, hlength, hn, rfl⟩
  · rintro ⟨symbol, s₁, hsymbol, ⟨hkind, rfl, rfl⟩ |
      ⟨extra, least, previous, length, n, hkind, hlength, hn, rfl⟩⟩
    · simp only [hsymbol, hkind]
    · simp only [hsymbol, hkind, hlength, hn]

theorem readLengthsOnto_eq_ok_iff {code : PrefixCode Nat} {count : Nat} {read lengths : List Nat} :
    readLengthsOnto code count read s = .ok (lengths, rest) ↔
      (∃ longer s₁, read.length < count ∧ readLengths code read s = .ok (longer, s₁) ∧
        readLengthsOnto code count longer s₁ = .ok (lengths, rest)) ∨
      read.length = count ∧ lengths = read.reverse ∧ rest = s := by
  rw [readLengthsOnto]
  constructor
  · intro h
    split at h
    · rename_i hcount
      split at h
      · simp at h
      · rename_i longer s₁ hlonger
        exact .inl ⟨longer, s₁, hcount, hlonger, h⟩
    · split at h
      · rename_i hcount
        obtain ⟨rfl, rfl⟩ := Prod.mk.inj (Except.ok.inj h)
        exact .inr ⟨hcount, rfl, rfl⟩
      · simp at h
  · rintro (⟨longer, s₁, hcount, hlonger, h⟩ | ⟨hcount, rfl, rfl⟩)
    · rw [if_pos hcount]
      split <;> simp_all
    · rw [if_neg (by omega), if_pos hcount]

theorem readShortLengths_succ_eq_ok_iff {n : Nat} {lengths : List Nat} :
    readShortLengths (n + 1) s = .ok (lengths, rest) ↔
      ∃ length s₁ more, readNumber 3 s = .ok (length, s₁) ∧
        readShortLengths n s₁ = .ok (more, rest) ∧ lengths = length :: more := by
  rw [readShortLengths]
  constructor
  · intro h
    split at h
    · simp at h
    · rename_i length s₁ hlength
      split at h
      · simp at h
      · rename_i more s₂ hmore
        obtain ⟨rfl, rfl⟩ := Prod.mk.inj (Except.ok.inj h)
        exact ⟨length, s₁, more, hlength, hmore, rfl⟩
  · rintro ⟨length, s₁, more, hlength, hmore, rfl⟩
    simp only [hlength, hmore]

theorem readCodes_eq_ok_iff {codes : Codes} :
    readCodes s = .ok (codes, rest) ↔
      ∃ literals s₁ distances s₂ shorts s₃ short s₄ lengths,
        readNumber 5 s = .ok (literals, s₁) ∧ readNumber 5 s₁ = .ok (distances, s₂) ∧
        readNumber 4 s₂ = .ok (shorts, s₃) ∧ literals + 257 ≤ 286 ∧ distances + 1 ≤ 30 ∧
        readShortLengths (shorts + 4) s₃ = .ok (short, s₄) ∧
        kraftSum 7 (inSymbolOrder short) = 2 ^ 7 ∧
        readLengthsOnto (.canonical 7 (inSymbolOrder short)) (literals + 257 + (distances + 1)) []
          s₄ = .ok (lengths, rest) ∧
        codesOfLengths? (literals + 257) lengths = some codes := by
  simp only [readCodes, bind_eq_ok, Prod.exists]
  constructor
  · rintro ⟨literals, s₁, h₁, distances, s₂, h₂, shorts, s₃, h₃, h⟩
    split at h
    · simp at h
    · rename_i hcounts
      obtain ⟨⟨short, s₄⟩, h₄, h⟩ := bind_eq_ok.mp h
      dsimp only at h
      split at h
      · simp at h
      · rename_i hkraft
        obtain ⟨⟨lengths, s₅⟩, h₅, h⟩ := bind_eq_ok.mp h
        dsimp only at h
        split at h
        · rename_i found hcodes
          obtain ⟨rfl, rfl⟩ := Prod.mk.inj (Except.ok.inj h)
          exact ⟨literals, s₁, distances, s₂, shorts, s₃, short, s₄, lengths, h₁, h₂, h₃, by omega,
            by omega, h₄, not_not.mp hkraft, h₅, hcodes⟩
        · simp at h
  · rintro ⟨literals, s₁, distances, s₂, shorts, s₃, short, s₄, lengths, h₁, h₂, h₃, hliterals,
      hdistances, h₄, hkraft, h₅, hcodes⟩
    refine ⟨literals, s₁, h₁, distances, s₂, h₂, shorts, s₃, h₃, ?_⟩
    rw [if_neg (by omega)]
    refine bind_eq_ok.mpr ⟨(short, s₄), h₄, ?_⟩
    dsimp only
    rw [if_neg (not_not.mpr hkraft)]
    refine bind_eq_ok.mpr ⟨(lengths, rest), h₅, ?_⟩
    dsimp only
    rw [hcodes]

/-! ### Blocks -/

theorem readStored_eq_ok_iff {s bytes rest : Bytes} :
    readStored s = .ok (bytes, rest) ↔
      ∃ header tail, Bytes.split? 4 s = some (header, tail) ∧
        Bytes.littleEndian (header.take 2) + Bytes.littleEndian (header.drop 2) = 0xFFFF ∧
        Bytes.split? (Bytes.littleEndian (header.take 2)) tail = some (bytes, rest) := by
  unfold readStored
  constructor
  · intro h
    split at h
    · simp at h
    · rename_i header tail hheader
      dsimp only at h
      split at h
      · simp at h
      · rename_i hsizes
        split at h
        · simp at h
        · rename_i stored hstored
          obtain rfl := Except.ok.inj h
          exact ⟨header, tail, hheader, not_not.mp hsizes, hstored⟩
  · rintro ⟨header, tail, hheader, hsizes, hstored⟩
    simp only [hheader, hsizes, hstored, ne_eq, not_true_eq_false, if_false]

/-- A block of stored bytes begins at the next byte, and a coded one where the stream is, with its
codes if it brings any. -/
theorem readBody_eq_ok_iff {kind : Nat} {block : Block} :
    readBody kind s = .ok (block, rest) ↔
      (kind = 0 ∧ ∃ bytes tail, readStored s.aligned = .ok (bytes, tail) ∧
        block = .stored bytes ∧ rest = .ofBytes tail) ∨
      ∃ codes s₁ tokens, (kind = 1 ∧ codes = .fixed ∧ s₁ = s ∨
          kind = 2 ∧ readCodes s = .ok (codes, s₁)) ∧
        readTokensOnto codes [] s₁ = .ok (tokens, rest) ∧ block = .coded tokens := by
  unfold readBody
  constructor
  · intro h
    split at h
    · obtain ⟨⟨bytes, tail⟩, hstored, heq⟩ := map_eq_ok.mp h
      obtain ⟨rfl, rfl⟩ := Prod.mk.inj heq
      exact .inl ⟨rfl, bytes, tail, hstored, rfl, rfl⟩
    · obtain ⟨⟨tokens, s₂⟩, htokens, heq⟩ := map_eq_ok.mp h
      obtain ⟨rfl, rfl⟩ := Prod.mk.inj heq
      exact .inr ⟨.fixed, s, tokens, .inl ⟨rfl, rfl, rfl⟩, htokens, rfl⟩
    · obtain ⟨⟨codes, s₁⟩, hcodes, h⟩ := bind_eq_ok.mp h
      obtain ⟨⟨tokens, s₂⟩, htokens, heq⟩ := map_eq_ok.mp h
      obtain ⟨rfl, rfl⟩ := Prod.mk.inj heq
      exact .inr ⟨codes, s₁, tokens, .inr ⟨rfl, hcodes⟩, htokens, rfl⟩
    · simp at h
  · rintro (⟨rfl, bytes, tail, hstored, rfl, rfl⟩ |
      ⟨codes, s₁, tokens, ⟨rfl, rfl, rfl⟩ | ⟨rfl, hcodes⟩, htokens, rfl⟩)
    · exact map_eq_ok.mpr ⟨(bytes, tail), hstored, rfl⟩
    · exact map_eq_ok.mpr ⟨(tokens, rest), htokens, rfl⟩
    · exact bind_eq_ok.mpr ⟨(codes, s₁), hcodes, map_eq_ok.mpr ⟨(tokens, rest), htokens, rfl⟩⟩

theorem readBlock_eq_ok_iff {last : Bool} {block : Block} :
    readBlock s = .ok ((last, block), rest) ↔
      ∃ mark s₁ kind s₂, readNumber 1 s = .ok (mark, s₁) ∧ readNumber 2 s₁ = .ok (kind, s₂) ∧
        readBody kind s₂ = .ok (block, rest) ∧ last = decide (mark = 1) := by
  unfold readBlock
  constructor
  · intro h
    split at h
    · simp at h
    · rename_i mark s₁ hmark
      split at h
      · simp at h
      · rename_i kind s₂ hkind
        split at h
        · simp at h
        · rename_i found s₃ hbody
          simp only [Except.ok.injEq, Prod.mk.injEq] at h
          obtain ⟨⟨rfl, rfl⟩, rfl⟩ := h
          exact ⟨mark, s₁, kind, s₂, hmark, hkind, hbody, rfl⟩
  · rintro ⟨mark, s₁, kind, s₂, hmark, hkind, hbody, rfl⟩
    simp only [hmark, hkind, hbody]

theorem readBlocksOnto_eq_ok_iff {read blocks : List Block} :
    readBlocksOnto read s = .ok (blocks, rest) ↔
      ∃ last block s₁, readBlock s = .ok ((last, block), s₁) ∧
        (last = true ∧ blocks = (block :: read).reverse ∧ rest = s₁ ∨
          last = false ∧ readBlocksOnto (block :: read) s₁ = .ok (blocks, rest)) := by
  rw [readBlocksOnto]
  constructor
  · intro h
    split at h
    · simp at h
    · rename_i block s₁ hblock
      obtain ⟨rfl, rfl⟩ := Prod.mk.inj (Except.ok.inj h)
      exact ⟨true, block, s₁, hblock, .inl ⟨rfl, rfl, rfl⟩⟩
    · rename_i block s₁ hblock
      exact ⟨false, block, s₁, hblock, .inr ⟨rfl, h⟩⟩
  · rintro ⟨last, block, s₁, hblock, ⟨rfl, rfl, rfl⟩ | ⟨rfl, h⟩⟩
    · split <;> simp_all
    · split <;> simp_all

theorem blocks_eq_ok_iff {s rest : Bytes} {bs : List Block} :
    blocks s = .ok (bs, rest) ↔
      ∃ behind, readBlocksOnto [] (.ofBytes s) = .ok (bs, behind) ∧ rest = behind.aligned := by
  unfold blocks
  constructor
  · intro h
    split at h
    · simp at h
    · rename_i found behind hread
      obtain ⟨rfl, rfl⟩ := Prod.mk.inj (Except.ok.inj h)
      exact ⟨behind, hread, rfl⟩
  · rintro ⟨behind, hread, rfl⟩
    simp only [hread]

end Intake.Deflate
