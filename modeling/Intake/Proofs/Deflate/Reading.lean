import Intake.Proofs.Deflate.Expansion
import Intake.Proofs.Deflate.Steps
import Mathlib.Data.List.GetD

/-!
# Reading what has been written

Every reader of the format takes the bits of what it reads off the stream and leaves what follows
them (`reads_readTokensOnto`, `reads_readCodes`). A block of stored bytes begins at a whole byte, so
where a block stands has to be known as well: `exists_readBlock` has the position, and
`exists_readBlocksOnto` goes on from block to block with it.
-/

set_option autoImplicit false
set_option relaxedAutoImplicit false

namespace Intake.Deflate

open BitStream

/-! ### Numbers and symbols -/

theorem reads_readNumber {n x : Nat} (hx : x < 2 ^ n) : Reads (readNumber n) (lowBits n x) x := by
  intro s bits hs
  obtain ⟨rest, hread, hrest⟩ := hs.number? hx
  exact ⟨rest, readNumber_eq_ok_iff.mpr hread, hrest⟩

theorem reads_readSymbol {α : Type} {code : PrefixCode α} {text : List Bool} {symbol : α}
    (h : Reads code.read text symbol) : Reads (readSymbol code) text symbol := by
  intro s bits hs
  obtain ⟨rest, hread, hrest⟩ := h hs
  exact ⟨rest, readSymbol_eq_ok_iff.mpr hread, hrest⟩

theorem reads_readExtended {bases : Array (Nat × Nat)} {symbol base extra n : Nat}
    (hentry : bases[symbol]? = some (base, extra)) (hn : n < 2 ^ extra) :
    Reads (readExtended bases symbol) (lowBits extra n) (base + n) := by
  intro s bits hs
  obtain ⟨rest, hread, hrest⟩ := reads_readNumber hn hs
  exact ⟨rest, readExtended_eq_ok_iff.mpr ⟨base, extra, n, hentry, hread, rfl⟩, hrest⟩

/-- A code reads the words of the given lengths. -/
def ReadsWords (code : PrefixCode Nat) (lengths : List Nat) : Prop :=
  ∀ symbol, lengths.getD symbol 0 ≠ 0 → Reads (readSymbol code) (wordOf lengths symbol) symbol

theorem readsWords_canonical {longest : Nat} {lengths : List Nat} (hpos : 0 < longest)
    (h : IsComplete longest lengths) : ReadsWords (.canonical longest lengths) lengths := by
  intro symbol hsymbol
  cases hlength : lengths[symbol]? with
  | none => simp [List.getD, hlength] at hsymbol
  | some length =>
    rw [List.getD, hlength, Option.getD_some] at hsymbol
    exact reads_readSymbol (reads_canonical hpos h.1 h.kraftSum hlength hsymbol)

/-! ### Lengths and distances -/

/-- The places of numbers with the same extra bits. -/
theorem place_bounds (fine n : Nat) :
    n / 2 ^ extraBits fine n < 2 ^ (fine + 1) ∧
      (extraBits fine n = 0 ∨ 2 ^ fine ≤ n / 2 ^ extraBits fine n) := by
  have hpos := Nat.two_pow_pos (extraBits fine n)
  have hhigh : n < 2 ^ (fine + 1) * 2 ^ extraBits fine n := by
    rw [← Nat.pow_add]
    refine Nat.lt_of_lt_of_le Nat.lt_log2_self (Nat.pow_le_pow_right Nat.two_pos ?_)
    rw [extraBits]
    omega
  refine ⟨(Nat.div_lt_iff_lt_mul hpos).mpr hhigh, ?_⟩
  by_cases hextra : extraBits fine n = 0
  · exact .inl hextra
  · refine .inr ((Nat.le_div_iff_mul_le hpos).mpr ?_)
    have hlog : fine + extraBits fine n = n.log2 := by
      rw [extraBits] at hextra ⊢
      omega
    have hn : n ≠ 0 := by
      rintro rfl
      exact hextra (Nat.zero_sub fine)
    rw [← Nat.pow_add, hlog]
    exact Nat.log2_self_le hn

/-- A number is what its place tells and its extra bits. -/
theorem place_add_extra (fine n : Nat) :
    n / 2 ^ extraBits fine n * 2 ^ extraBits fine n + n % 2 ^ extraBits fine n = n :=
  Nat.div_add_mod' n _

theorem extraBits_lt {fine n : Nat} (bits : Nat) (hn : n < 2 ^ bits) (hfine : fine < bits) :
    extraBits fine n < bits - fine := by
  have hlog : n.log2 < bits := by
    by_cases h : n = 0
    · rw [h]
      exact Nat.lt_of_le_of_lt (Nat.zero_le fine) hfine
    · exact (Nat.log2_lt h).mpr hn
  rw [extraBits]
  omega

theorem lengthBases_place : ∀ e < 6, ∀ q < 8, e = 0 ∨ 4 ≤ q →
    lengthBases[4 * e + q]? = some (q * 2 ^ e + 3, e) := by
  decide

theorem distanceBases_place : ∀ e < 14, ∀ q < 4, e = 0 ∨ 2 ≤ q →
    distanceBases[2 * e + q]? = some (q * 2 ^ e + 1, e) := by
  decide

theorem exists_lengthEntry {length : Nat} (hlow : 3 ≤ length) (hhigh : length ≤ 258) :
    ∃ base extra n, lengthBases[lengthSymbol length - 257]? = some (base, extra) ∧ n < 2 ^ extra ∧
      lengthText length = lowBits extra n ∧ base + n = length := by
  by_cases hlongest : length = 258
  · subst hlongest
    exact ⟨258, 0, 0, rfl, by decide, rfl, rfl⟩
  · rw [lengthSymbol, lengthText, if_neg hlongest, if_neg hlongest, Nat.add_sub_cancel_left]
    obtain ⟨hplace, hsplit⟩ := place_bounds 2 (length - 3)
    have hextra := extraBits_lt 8 (show length - 3 < 2 ^ 8 by omega) (show 2 < 8 by decide)
    have hsum := place_add_extra 2 (length - 3)
    exact ⟨_, _, (length - 3) % 2 ^ extraBits 2 (length - 3),
      lengthBases_place _ hextra _ hplace hsplit, Nat.mod_lt _ (Nat.two_pow_pos _), rfl, by omega⟩

theorem exists_distanceEntry {distance : Nat} (hlow : 1 ≤ distance) (hhigh : distance ≤ 32768) :
    ∃ base extra n, distanceBases[place 1 (distance - 1)]? = some (base, extra) ∧ n < 2 ^ extra ∧
      extraText 1 (distance - 1) = lowBits extra n ∧ base + n = distance := by
  obtain ⟨hplace, hsplit⟩ := place_bounds 1 (distance - 1)
  have hextra := extraBits_lt 15 (show distance - 1 < 2 ^ 15 by omega)
    (show 1 < 15 by decide)
  have hsum := place_add_extra 1 (distance - 1)
  exact ⟨_, _, (distance - 1) % 2 ^ extraBits 1 (distance - 1),
    distanceBases_place _ hextra _ hplace hsplit, Nat.mod_lt _ (Nat.two_pow_pos _), rfl, by omega⟩

theorem lengthSymbol_gt (length : Nat) : endOfBlock < lengthSymbol length := by
  rw [lengthSymbol, endOfBlock]
  split <;> omega

/-! ### Tokens -/

/-- Codes read the words of the given lengths. -/
structure Codes.ReadsWords (codes : Codes) (literals distances : List Nat) : Prop where
  literals : Deflate.ReadsWords codes.literals literals
  distances : Deflate.ReadsWords codes.distances distances

variable {codes : Codes} {literals distances : List Nat}

theorem reads_literal (hcodes : codes.ReadsWords literals distances) {byte : UInt8}
    (hword : literals.getD byte.toNat 0 ≠ 0) :
    Reads (readToken codes) (wordOf literals byte.toNat) (some (.literal byte)) := by
  intro s bits hs
  obtain ⟨rest, hsymbol, hrest⟩ := hcodes.literals _ hword hs
  have hbyte : byte.toNat.toUInt8 = byte := by simp
  exact ⟨rest, readToken_eq_ok_iff.mpr
    ⟨_, rest, hsymbol, .inl ⟨byte.toNat_lt, by rw [hbyte], rfl⟩⟩, hrest⟩

theorem reads_endOfBlock (hcodes : codes.ReadsWords literals distances)
    (hword : literals.getD 256 0 ≠ 0) :
    Reads (readToken codes) (wordOf literals 256) none := by
  intro s bits hs
  obtain ⟨rest, hsymbol, hrest⟩ := hcodes.literals _ hword hs
  exact ⟨rest, readToken_eq_ok_iff.mpr ⟨256, rest, hsymbol, .inr (.inl ⟨rfl, rfl, rfl⟩)⟩, hrest⟩

theorem reads_copy (hcodes : codes.ReadsWords literals distances) {length distance produced : Nat}
    (hlegal : (Token.copy length distance).IsLegal produced)
    (hwords : (Token.copy length distance).HasWords literals distances) :
    Reads (readToken codes) ((Token.copy length distance).text literals distances)
      (some (.copy length distance)) := by
  obtain ⟨hshortest, hlongest, hnearest, hfarthest, -⟩ := hlegal
  obtain ⟨base, extra, n, hentry, hn, htext, hlength⟩ := exists_lengthEntry hshortest hlongest
  obtain ⟨base', extra', n', hentry', hn', htext', hdistance⟩ :=
    exists_distanceEntry hnearest hfarthest
  intro s bits hs
  simp only [Token.text, List.append_assoc] at hs
  rw [htext, htext'] at hs
  obtain ⟨s₁, hsymbol, hs₁⟩ := hcodes.literals _ hwords.1 hs
  obtain ⟨s₂, hread, hs₂⟩ := reads_readExtended hentry hn hs₁
  obtain ⟨s₃, hplace, hs₃⟩ := hcodes.distances _ hwords.2 hs₂
  obtain ⟨rest, hread', hrest⟩ := reads_readExtended hentry' hn' hs₃
  rw [hlength] at hread
  rw [hdistance] at hread'
  exact ⟨rest, readToken_eq_ok_iff.mpr ⟨_, s₁, hsymbol, .inr (.inr ⟨lengthSymbol_gt length, length,
    s₂, _, s₃, distance, hread, hplace, hread', rfl⟩)⟩, hrest⟩

theorem reads_readToken (hcodes : codes.ReadsWords literals distances) {token : Token}
    {produced : Nat} (hlegal : token.IsLegal produced)
    (hwords : token.HasWords literals distances) :
    Reads (readToken codes) (token.text literals distances) (some token) := by
  cases token with
  | literal byte => exact reads_literal hcodes hwords
  | copy length distance => exact reads_copy hcodes hlegal hwords

theorem reads_readTokensOnto (hcodes : codes.ReadsWords literals distances) {tokens : List Token}
    (read : List Token) {produced : Nat} (hlegal : Token.AreLegal produced tokens)
    (hwords : ∀ token ∈ tokens, token.HasWords literals distances)
    (hend : literals.getD 256 0 ≠ 0) :
    Reads (readTokensOnto codes read) (tokensText literals distances tokens)
      (read.reverse ++ tokens) := by
  induction tokens generalizing read produced with
  | nil =>
    intro s bits hs
    obtain ⟨rest, hread, hrest⟩ := reads_endOfBlock hcodes hend hs
    exact ⟨rest, readTokensOnto_eq_ok_iff.mpr (.inl ⟨hread, by simp⟩), hrest⟩
  | cons token tokens ih =>
    obtain ⟨hword, hwords⟩ := List.forall_mem_cons.mp hwords
    intro s bits hs
    have htext : tokensText literals distances (token :: tokens) =
        token.text literals distances ++ tokensText literals distances tokens := by
      rw [tokensText, tokensText, List.flatMap_cons, List.append_assoc]
    rw [htext, List.append_assoc] at hs
    obtain ⟨s₁, hread, hs₁⟩ := reads_readToken hcodes hlegal.1 hword hs
    obtain ⟨rest, hmore, hrest⟩ := ih (token :: read) hlegal.2 hwords hs₁
    rw [List.reverse_cons, List.append_assoc] at hmore
    exact ⟨rest, readTokensOnto_eq_ok_iff.mpr (.inr ⟨token, s₁, hread, hmore⟩), hrest⟩

/-! ### The fixed codes -/

/-- The words of the fixed codes. -/
theorem readsWords_fixed :
    Codes.fixed.ReadsWords ((List.range 288).map fixedLength) (List.replicate 32 5) := by
  have hliterals : (List.range 288).map fixedLength = fixedLiteralLengths := by decide +kernel
  rw [hliterals]
  exact ⟨readsWords_canonical (by decide) (by decide +kernel),
    readsWords_canonical (by decide) (by decide +kernel)⟩

theorem hasWords_fixed {token : Token} {produced : Nat} (h : token.IsLegal produced) :
    token.HasWords ((List.range 288).map fixedLength) (List.replicate 32 5) := by
  have hpos : ∀ symbol, fixedLength symbol ≠ 0 := by
    intro symbol
    rw [fixedLength]
    split
    · decide
    · split
      · decide
      · split <;> decide
  have hliterals : ∀ symbol < 288, ((List.range 288).map fixedLength).getD symbol 0 ≠ 0 := by
    intro symbol hsymbol
    rw [List.getD_eq_getElem _ _ (by simpa using hsymbol), List.getElem_map]
    exact hpos _
  have hdistances : ∀ symbol < 32, (List.replicate 32 5).getD symbol 0 ≠ 0 := by
    intro symbol hsymbol
    rw [List.getD_eq_getElem _ _ (by simpa using hsymbol), List.getElem_replicate]
    decide
  cases token with
  | literal byte => exact hliterals _ (Nat.lt_trans byte.toNat_lt (by decide))
  | copy length distance =>
    obtain ⟨hshortest, hlongest, hnearest, hfarthest, -⟩ := h
    obtain ⟨_, _, _, hentry, -⟩ := exists_lengthEntry hshortest hlongest
    obtain ⟨_, _, _, hentry', -⟩ := exists_distanceEntry hnearest hfarthest
    have hlength : lengthSymbol length - 257 < 29 := (Array.getElem?_eq_some_iff.mp hentry).1
    have hdistance : place 1 (distance - 1) < 30 := (Array.getElem?_eq_some_iff.mp hentry').1
    exact ⟨hliterals _ (by omega), hdistances _ (by omega)⟩

theorem Token.hasWords_of_areLegal {tokens : List Token} {produced : Nat}
    (h : Token.AreLegal produced tokens) :
    ∀ token ∈ tokens,
      token.HasWords ((List.range 288).map fixedLength) (List.replicate 32 5) := by
  induction tokens generalizing produced with
  | nil => simp
  | cons token tokens ih => exact List.forall_mem_cons.mpr ⟨hasWords_fixed h.1, ih h.2⟩

/-! ### Described codes -/

theorem repetition?_single {length : Nat} (h : length ≤ 15) : repetition? length = none := by
  unfold repetition?
  split
  · omega
  · omega
  · omega
  · rfl

/-- A run is read onto what has been read before it, which is kept reversed. -/
theorem reads_readLengths {code : PrefixCode Nat} {shorts read : List Nat}
    (hcode : ReadsWords code shorts) {run : Run} (hlegal : run.IsLegal read.reverse)
    (hword : shorts.getD run.symbol 0 ≠ 0) :
    Reads (readLengths code read) (wordOf shorts run.symbol ++ run.extra)
      ((run.lengths read.reverse).reverse ++ read) := by
  intro s bits hs
  rw [List.append_assoc] at hs
  obtain ⟨s₁, hsymbol, hs₁⟩ := hcode _ hword hs
  cases run with
  | single length =>
    exact ⟨s₁, readLengths_eq_ok_iff.mpr
      ⟨_, s₁, hsymbol, .inl ⟨repetition?_single hlegal, rfl, rfl⟩⟩, hs₁⟩
  | again count =>
    obtain ⟨hlow, hhigh, hbefore⟩ := hlegal
    obtain ⟨rest, hn, hrest⟩ := reads_readNumber (show count - 3 < 2 ^ 2 by omega) hs₁
    cases read with
    | nil => exact absurd rfl hbefore
    | cons length read =>
      refine ⟨rest, readLengths_eq_ok_iff.mpr ⟨_, s₁, hsymbol,
        .inr ⟨2, 3, true, length, _, rfl, rfl, hn, ?_⟩⟩, hrest⟩
      rw [Run.lengths, List.reverse_replicate, Nat.add_sub_cancel' hlow]
      simp
  | zeros count =>
    obtain ⟨hlow, hhigh⟩ := hlegal
    obtain ⟨rest, hn, hrest⟩ := reads_readNumber (show count - 3 < 2 ^ 3 by omega) hs₁
    refine ⟨rest, readLengths_eq_ok_iff.mpr ⟨_, s₁, hsymbol,
      .inr ⟨3, 3, false, 0, _, rfl, rfl, hn, ?_⟩⟩, hrest⟩
    rw [Run.lengths, List.reverse_replicate, Nat.add_sub_cancel' hlow]
  | manyZeros count =>
    obtain ⟨hlow, hhigh⟩ := hlegal
    obtain ⟨rest, hn, hrest⟩ := reads_readNumber (show count - 11 < 2 ^ 7 by omega) hs₁
    refine ⟨rest, readLengths_eq_ok_iff.mpr ⟨_, s₁, hsymbol,
      .inr ⟨7, 11, false, 0, _, rfl, rfl, hn, ?_⟩⟩, hrest⟩
    rw [Run.lengths, List.reverse_replicate, Nat.add_sub_cancel' hlow]

theorem Run.length_lengths_pos {run : Run} {before : List Nat} (h : run.IsLegal before) :
    0 < (run.lengths before).length := by
  cases run with
  | single length => exact Nat.one_pos
  | again count => exact List.length_replicate ▸ Nat.lt_of_lt_of_le (by decide) h.1
  | zeros count => exact List.length_replicate ▸ Nat.lt_of_lt_of_le (by decide) h.1
  | manyZeros count => exact List.length_replicate ▸ Nat.lt_of_lt_of_le (by decide) h.1

/-- Runs are read up to the last length that they spell. -/
theorem reads_readLengthsOnto {code : PrefixCode Nat} {shorts : List Nat} (read : List Nat)
    (hcode : ReadsWords code shorts) {runs : List Run} (hlegal : Run.AreLegal read.reverse runs)
    (hwords : ∀ run ∈ runs, shorts.getD run.symbol 0 ≠ 0) :
    Reads (readLengthsOnto code (read.length + (Run.spelled read.reverse runs).length) read)
      (runs.flatMap fun run ↦ wordOf shorts run.symbol ++ run.extra)
      (read.reverse ++ Run.spelled read.reverse runs) := by
  induction runs generalizing read with
  | nil =>
    intro s bits hs
    exact ⟨s, readLengthsOnto_eq_ok_iff.mpr (.inr ⟨rfl, by simp [Run.spelled], rfl⟩), hs⟩
  | cons run runs ih =>
    obtain ⟨hrun, hruns⟩ := hlegal
    obtain ⟨hword, hwords⟩ := List.forall_mem_cons.mp hwords
    intro s bits hs
    rw [List.flatMap_cons, List.append_assoc] at hs
    obtain ⟨s₁, hread, hs₁⟩ := reads_readLengths hcode hrun hword hs
    have hreverse : ((run.lengths read.reverse).reverse ++ read).reverse =
        read.reverse ++ run.lengths read.reverse := by simp
    rw [← hreverse] at hruns
    obtain ⟨rest, hmore, hrest⟩ := ih _ hruns hwords hs₁
    have hcount : ((run.lengths read.reverse).reverse ++ read).length +
        (Run.spelled (read.reverse ++ run.lengths read.reverse) runs).length =
          read.length + (Run.spelled read.reverse (run :: runs)).length := by
      simp only [Run.spelled, List.length_append, List.length_reverse]
      omega
    rw [hreverse, hcount, List.append_assoc] at hmore
    have hless : read.length < read.length + (Run.spelled read.reverse (run :: runs)).length := by
      have := Run.length_lengths_pos hrun
      rw [Run.spelled, List.length_append]
      omega
    exact ⟨rest, readLengthsOnto_eq_ok_iff.mpr (.inl ⟨_, s₁, hless, hread, hmore⟩), hrest⟩

theorem reads_readShortLengths {lengths : List Nat} (h : ∀ length ∈ lengths, length < 8) :
    Reads (readShortLengths lengths.length) (lengths.flatMap (lowBits 3)) lengths := by
  induction lengths with
  | nil => exact fun s bits hs ↦ ⟨s, rfl, hs⟩
  | cons length lengths ih =>
    obtain ⟨hlength, hlengths⟩ := List.forall_mem_cons.mp h
    intro s bits hs
    rw [List.flatMap_cons, List.append_assoc] at hs
    obtain ⟨s₁, hread, hs₁⟩ := reads_readNumber (n := 3) hlength hs
    obtain ⟨rest, hmore, hrest⟩ := ih hlengths hs₁
    exact ⟨rest, readShortLengths_succ_eq_ok_iff.mpr ⟨length, s₁, lengths, hread, hmore, rfl⟩,
      hrest⟩

theorem lengthOrder_idxOf :
    ∀ symbol < 19, lengthOrder[lengthOrder.idxOf symbol]? = some symbol := by
  decide

/-- Lengths that are not written are zero. -/
theorem inSymbolOrder_written {shorts : List Nat} {written : Nat} (hlength : shorts.length = 19)
    (hunwritten : ∀ symbol ∈ lengthOrder.drop written, shorts.getD symbol 0 = 0) :
    inSymbolOrder ((lengthOrder.take written).map fun symbol ↦ shorts.getD symbol 0) = shorts := by
  apply List.ext_getElem
  · rw [inSymbolOrder, List.length_map, List.length_range, hlength]
  · intro symbol hsymbol hsymbol'
    have hplace := lengthOrder_idxOf symbol (by simpa [inSymbolOrder] using hsymbol)
    have hgetD : shorts[symbol] = shorts.getD symbol 0 := (List.getD_eq_getElem _ _ hsymbol').symm
    simp only [inSymbolOrder, List.getElem_map, List.getElem_range]
    rw [hgetD, List.getD, List.getElem?_map]
    by_cases hwritten : lengthOrder.idxOf symbol < written
    · rw [List.getElem?_take_of_lt hwritten, hplace]
      rfl
    · rw [List.getElem?_take_eq_none (Nat.not_lt.mp hwritten)]
      have hdropped :
          (lengthOrder.drop written)[lengthOrder.idxOf symbol - written]? = some symbol := by
        rw [List.getElem?_drop, Nat.add_sub_cancel' (Nat.not_lt.mp hwritten), hplace]
      exact (hunwritten symbol (List.mem_of_getElem? hdropped)).symm

theorem codeOfLengths?_of_isComplete {lengths : List Nat} (h : IsComplete 15 lengths) :
    codeOfLengths? lengths = some (.canonical longestWord lengths) :=
  if_pos h.kraftSum

theorem reads_shorts {d : Description} (h : d.IsLegal) :
    Reads (readShortLengths (d.written - 4 + 4))
      ((lengthOrder.take d.written).flatMap fun symbol ↦ lowBits 3 (d.shorts.getD symbol 0))
      ((lengthOrder.take d.written).map fun symbol ↦ d.shorts.getD symbol 0) := by
  have hlength : d.written - 4 + 4 =
      ((lengthOrder.take d.written).map fun symbol ↦ d.shorts.getD symbol 0).length := by
    rw [List.length_map, List.length_take, Nat.sub_add_cancel h.written_bounds.1]
    exact (Nat.min_eq_left h.written_bounds.2).symm
  have hshort : ∀ symbol, d.shorts.getD symbol 0 < 8 := by
    intro symbol
    rw [List.getD]
    cases hget : d.shorts[symbol]? with
    | none => exact Nat.zero_lt_succ 7
    | some length => exact Nat.lt_succ_of_le (h.shorts_complete.1 _ (List.mem_of_getElem? hget))
  rw [hlength, ← List.flatMap_map (f := fun symbol ↦ d.shorts.getD symbol 0)]
  refine reads_readShortLengths fun length hlength ↦ ?_
  obtain ⟨symbol, -, rfl⟩ := List.mem_map.mp hlength
  exact hshort symbol

/-- A description is read as codes that read the words it describes. -/
theorem reads_readCodes {d : Description} (h : d.IsLegal) (hfew : d.distances.length ≤ 30) :
    ∃ codes : Codes, codes.ReadsWords d.literals d.distances ∧ Reads readCodes d.text codes := by
  refine ⟨⟨.canonical longestWord d.literals, .canonical longestWord d.distances⟩,
    ⟨readsWords_canonical (by decide) h.literals_complete,
      readsWords_canonical (by decide) h.distances_complete⟩, ?_⟩
  obtain ⟨hliterals, hliterals'⟩ := h.literals_length
  have hdistances := h.distances_length.1
  obtain ⟨hwritten, hwritten'⟩ := h.written_bounds
  have horder := inSymbolOrder_written h.shorts_length h.unwritten
  intro s bits hs
  simp only [Description.text, List.append_assoc] at hs
  obtain ⟨s₁, h₁, hs₁⟩ := reads_readNumber (show d.literals.length - 257 < 2 ^ 5 by omega) hs
  obtain ⟨s₂, h₂, hs₂⟩ := reads_readNumber (show d.distances.length - 1 < 2 ^ 5 by omega) hs₁
  obtain ⟨s₃, h₃, hs₃⟩ := reads_readNumber (show d.written - 4 < 2 ^ 4 by omega) hs₂
  obtain ⟨s₄, h₄, hs₄⟩ := reads_shorts h hs₃
  have hcount : ([] : List Nat).length + (Run.spelled [] d.runs).length =
      d.literals.length - 257 + 257 + (d.distances.length - 1 + 1) := by
    rw [h.spelled, List.length_append, List.length_nil]
    omega
  obtain ⟨rest, h₅, hrest⟩ := reads_readLengthsOnto []
    (readsWords_canonical (by decide) h.shorts_complete) h.runs_legal h.run_word hs₄
  rw [List.reverse_nil, List.nil_append, hcount, h.spelled] at h₅
  refine ⟨rest, readCodes_eq_ok_iff.mpr ⟨_, s₁, _, s₂, _, s₃, _, s₄, _, h₁, h₂, h₃, by omega,
    by omega, h₄, by rw [horder]; exact h.shorts_complete.kraftSum, by rw [horder]; exact h₅, ?_⟩,
    hrest⟩
  rw [Nat.sub_add_cancel hliterals, codesOfLengths?, List.take_left, List.drop_left,
    codeOfLengths?_of_isComplete h.literals_complete,
    codeOfLengths?_of_isComplete h.distances_complete]
  rfl

/-- Codes are not read if too many lengths are listed for distances. -/
theorem distances_length_of_readCodes {d : Description} (h : d.IsLegal) {codes : Codes}
    {s rest : BitStream} {bits : List Bool} (hs : s.Holds (d.text ++ bits))
    (hread : readCodes s = .ok (codes, rest)) : d.distances.length ≤ 30 := by
  obtain ⟨literals, s₁, distances, s₂, -, -, -, -, -, h₁, h₂, -, -, hdistances, -⟩ :=
    readCodes_eq_ok_iff.mp hread
  have hliterals := h.literals_length
  have hlisted := h.distances_length
  simp only [Description.text, List.append_assoc] at hs
  obtain ⟨t₁, ht₁, hs₁⟩ := reads_readNumber (show d.literals.length - 257 < 2 ^ 5 by omega) hs
  obtain ⟨rfl, rfl⟩ := Prod.mk.inj (Except.ok.inj (ht₁.symm.trans h₁))
  obtain ⟨t₂, ht₂, -⟩ := reads_readNumber (show d.distances.length - 1 < 2 ^ 5 by omega) hs₁
  obtain ⟨rfl, -⟩ := Prod.mk.inj (Except.ok.inj (ht₂.symm.trans h₂))
  omega

/-! ### Blocks -/

theorem readStored_written {bytes : Bytes} (h : bytes.length ≤ 65535) (rest : Bytes) :
    readStored (Bytes.ofNumber 2 bytes.length ++ Bytes.ofNumber 2 (65535 - bytes.length) ++ bytes ++
      rest) = .ok (bytes, rest) := by
  have hsize : ∀ n ≤ 65535, Bytes.littleEndian (Bytes.ofNumber 2 n) = n := fun n hn ↦ by
    rw [Bytes.littleEndian_ofNumber]
    exact Nat.mod_eq_of_lt (Nat.lt_succ_of_le hn)
  have htake : (Bytes.ofNumber 2 bytes.length ++ Bytes.ofNumber 2 (65535 - bytes.length)).take 2 =
      Bytes.ofNumber 2 bytes.length := List.take_left' (Bytes.length_ofNumber 2 _)
  have hdrop : (Bytes.ofNumber 2 bytes.length ++ Bytes.ofNumber 2 (65535 - bytes.length)).drop 2 =
      Bytes.ofNumber 2 (65535 - bytes.length) := List.drop_left' (Bytes.length_ofNumber 2 _)
  refine readStored_eq_ok_iff.mpr
    ⟨Bytes.ofNumber 2 bytes.length ++ Bytes.ofNumber 2 (65535 - bytes.length), bytes ++ rest,
      Bytes.split?_eq_some_iff.mpr ⟨by simp, by simp⟩, ?_, Bytes.split?_eq_some_iff.mpr ⟨?_, rfl⟩⟩
  · rw [htake, hdrop, hsize _ h, hsize _ (Nat.sub_le _ _)]
    omega
  · rw [htake, hsize _ h]

theorem length_paddingText (position filling : Nat) :
    (paddingText position filling).length = (8 - position % 8) % 8 :=
  length_lowBits _ _

theorem Plan.length_text (plan : Plan) (position : Nat) (last : Bool) :
    (plan.text position last).length = 3 + (plan.body (position + 3)).length := by
  rw [text, List.length_append, List.length_cons, length_lowBits]

/-- The body of a block at a position of a stream that ends with a whole byte. -/
theorem exists_readBody {plan : Plan} {position produced : Nat} {s : BitStream} {bits : List Bool}
    (hlegal : plan.IsLegal produced) (hfew : plan.FewDistances)
    (hs : s.Holds (plan.body position ++ bits))
    (hwhole : 8 ∣ position + (plan.body position).length + bits.length) :
    ∃ rest, readBody plan.kind s = .ok (plan.block, rest) ∧ rest.Holds bits := by
  cases plan with
  | stored filling bytes =>
    rw [Plan.body, List.append_assoc] at hs
    have hpadding := length_paddingText position filling
    obtain ⟨rest, haligned, hbits⟩ := hs.exists_aligned (by omega) (by
      rw [Plan.body, List.length_append, Bytes.length_bits] at hwhole
      omega)
    have hread := readStored_written hlegal rest
    rw [← haligned] at hread
    exact ⟨.ofBytes rest, readBody_eq_ok_iff.mpr (.inl ⟨rfl, bytes, rest, hread, rfl, rfl⟩),
      hbits ▸ holds_ofBytes rest⟩
  | fixed tokens =>
    obtain ⟨rest, hread, hrest⟩ := reads_readTokensOnto readsWords_fixed [] hlegal
      (Token.hasWords_of_areLegal hlegal) (by decide +kernel) hs
    exact ⟨rest, readBody_eq_ok_iff.mpr
      (.inr ⟨.fixed, s, tokens, .inl ⟨rfl, rfl, rfl⟩, hread, rfl⟩), hrest⟩
  | described d tokens =>
    obtain ⟨hcodes, htokens, hwords⟩ := hlegal
    obtain ⟨codes, hreads, hdescribed⟩ := reads_readCodes hcodes hfew
    rw [Plan.body, List.append_assoc] at hs
    obtain ⟨s₁, hread, hs₁⟩ := hdescribed hs
    obtain ⟨rest, hread', hrest⟩ :=
      reads_readTokensOnto hreads [] htokens hwords hcodes.end_word hs₁
    exact ⟨rest, readBody_eq_ok_iff.mpr
      (.inr ⟨codes, s₁, tokens, .inr ⟨rfl, hread⟩, hread', rfl⟩), hrest⟩

theorem fewDistances_of_readBody {plan : Plan} {position produced : Nat} {s rest : BitStream}
    {bits : List Bool} {block : Block} (hlegal : plan.IsLegal produced)
    (hs : s.Holds (plan.body position ++ bits)) (hread : readBody plan.kind s = .ok (block, rest)) :
    plan.FewDistances := by
  cases plan with
  | stored => trivial
  | fixed => trivial
  | described d tokens =>
    rw [Plan.body, List.append_assoc] at hs
    obtain ⟨hkind, -⟩ | ⟨codes, s₁, -, ⟨hkind, -⟩ | ⟨-, hcodes⟩, -⟩ := readBody_eq_ok_iff.mp hread
    · exact absurd hkind (by simp [Plan.kind])
    · exact absurd hkind (by simp [Plan.kind])
    · exact distances_length_of_readCodes hlegal.1 hs hcodes

/-- A block is read where it stands, unless it lists too many lengths. -/
theorem readBlock_text {plan : Plan} {position produced : Nat} {last : Bool} {s : BitStream}
    {bits : List Bool} (hlegal : plan.IsLegal produced)
    (hs : s.Holds (plan.text position last ++ bits))
    (hwhole : 8 ∣ position + (plan.text position last).length + bits.length) :
    (plan.FewDistances →
      ∃ rest, readBlock s = .ok ((last, plan.block), rest) ∧ rest.Holds bits) ∧
    ∀ read rest, readBlock s = .ok (read, rest) → plan.FewDistances := by
  have hmark : [last] = lowBits 1 last.toNat := by cases last <;> rfl
  rw [Plan.length_text] at hwhole
  rw [Plan.text, List.cons_append, List.cons_append, List.append_assoc, ← List.singleton_append,
    hmark] at hs
  obtain ⟨s₁, h₁, hs₁⟩ := reads_readNumber (show last.toNat < 2 ^ 1 from last.toNat_lt) hs
  have hkind : plan.kind < 2 ^ 2 := by
    cases plan <;> simp [Plan.kind]
  obtain ⟨s₂, h₂, hs₂⟩ := reads_readNumber hkind hs₁
  constructor
  · intro hfew
    obtain ⟨rest, h₃, hrest⟩ := exists_readBody hlegal hfew hs₂ (by omega)
    exact ⟨rest, readBlock_eq_ok_iff.mpr ⟨_, s₁, _, s₂, h₁, h₂, h₃, by cases last <;> rfl⟩, hrest⟩
  · rintro ⟨mark, block⟩ rest hread
    obtain ⟨_, t₁, _, t₂, ht₁, ht₂, ht₃, -⟩ := readBlock_eq_ok_iff.mp hread
    obtain ⟨rfl, rfl⟩ := Prod.mk.inj (Except.ok.inj (h₁.symm.trans ht₁))
    obtain ⟨rfl, rfl⟩ := Prod.mk.inj (Except.ok.inj (h₂.symm.trans ht₂))
    exact fewDistances_of_readBody hlegal hs₂ ht₃

/-- Blocks are read up to the one that is marked, behind those that have been read. -/
theorem exists_readBlocksOnto {plans : List Plan} (hplans : plans ≠ []) (read : List Block)
    {position : Nat} {before : Bytes} {s : BitStream} {bits : List Bool}
    (hlegal : AreLegal before plans) (hfew : ∀ plan ∈ plans, plan.FewDistances)
    (hs : s.Holds (text position plans ++ bits))
    (hwhole : 8 ∣ position + (text position plans).length + bits.length) :
    ∃ rest, readBlocksOnto read s = .ok (read.reverse ++ plans.map Plan.block, rest) ∧
      rest.Holds bits := by
  induction plans generalizing read position before s with
  | nil => exact absurd rfl hplans
  | cons plan plans ih =>
    obtain ⟨hplan, hmore⟩ := hlegal
    obtain ⟨hhere, hfew⟩ := List.forall_mem_cons.mp hfew
    rw [text, List.append_assoc] at hs
    rw [text, List.length_append] at hwhole
    obtain ⟨s₁, hread, hs₁⟩ := (readBlock_text hplan hs (by
      rw [List.length_append]
      omega)).1 hhere
    cases plans with
    | nil =>
      exact ⟨s₁, readBlocksOnto_eq_ok_iff.mpr
        ⟨true, plan.block, s₁, hread, .inl ⟨rfl, by simp, rfl⟩⟩, hs₁⟩
    | cons next plans =>
      obtain ⟨rest, hread', hrest⟩ := ih (by simp) (plan.block :: read) hmore hfew hs₁ (by omega)
      rw [List.reverse_cons, List.append_assoc] at hread'
      exact ⟨rest, readBlocksOnto_eq_ok_iff.mpr
        ⟨false, plan.block, s₁, hread, .inr ⟨rfl, hread'⟩⟩, hrest⟩

/-- Blocks are not read if one of them lists too many lengths. -/
theorem fewDistances_of_readBlocksOnto {plans : List Plan} {read blocks : List Block}
    {position : Nat} {before : Bytes} {s rest : BitStream} {bits : List Bool}
    (hlegal : AreLegal before plans) (hs : s.Holds (text position plans ++ bits))
    (hwhole : 8 ∣ position + (text position plans).length + bits.length)
    (hread : readBlocksOnto read s = .ok (blocks, rest)) : ∀ plan ∈ plans, plan.FewDistances := by
  induction plans generalizing read position before s with
  | nil => simp
  | cons plan plans ih =>
    obtain ⟨hplan, hmore⟩ := hlegal
    rw [text, List.append_assoc] at hs
    rw [text, List.length_append] at hwhole
    obtain ⟨hgoes, hneeds⟩ := readBlock_text hplan hs (by
      rw [List.length_append]
      omega)
    obtain ⟨last, block, t₁, hblock, hnext⟩ := readBlocksOnto_eq_ok_iff.mp hread
    have hhere := hneeds _ _ hblock
    obtain ⟨s₁, hblock', hs₁⟩ := hgoes hhere
    rw [hblock] at hblock'
    simp only [Except.ok.injEq, Prod.mk.injEq] at hblock'
    obtain ⟨⟨rfl, rfl⟩, rfl⟩ := hblock'
    refine List.forall_mem_cons.mpr ⟨hhere, ?_⟩
    cases plans with
    | nil => simp
    | cons next plans =>
      obtain ⟨hlast, -⟩ | ⟨-, hread'⟩ := hnext
      · simp at hlast
      · exact ih hmore hs₁ (by omega) hread'

/-- A stream that has been written is read as its blocks, whatever follows it, unless one of them
lists too many lengths. -/
theorem blocks_bytes {plans : List Plan} (hplans : plans ≠ []) (hlegal : AreLegal [] plans)
    (filling : Nat) (rest : Bytes) :
    ((∀ plan ∈ plans, plan.FewDistances) →
      blocks (bytes plans filling ++ rest) = .ok (plans.map Plan.block, rest)) ∧
    ∀ found, blocks (bytes plans filling ++ rest) = .ok found →
      ∀ plan ∈ plans, plan.FewDistances := by
  have hpadding := length_paddingText (text 0 plans).length filling
  have hbits : Bytes.bits (bytes plans filling ++ rest) =
      text 0 plans ++ (paddingText (text 0 plans).length filling ++ (rest.bits ++ [])) := by
    rw [Bytes.bits_append, bytes, Bytes.bits_ofBits (by rw [List.length_append]; omega),
      List.append_assoc, List.append_nil]
  have hs := holds_ofBytes (bytes plans filling ++ rest)
  rw [hbits] at hs
  have hwhole : 8 ∣ 0 + (text 0 plans).length +
      (paddingText (text 0 plans).length filling ++ (rest.bits ++ [])).length := by
    simp only [List.length_append, List.length_nil, Bytes.length_bits]
    omega
  constructor
  · intro hfew
    obtain ⟨behind, hread, hbehind⟩ := exists_readBlocksOnto hplans [] hlegal hfew hs hwhole
    obtain ⟨more, haligned, hmore⟩ := hbehind.exists_aligned (by omega) (by simp)
    obtain rfl : more = [] := Bytes.bits_injective hmore
    exact blocks_eq_ok_iff.mpr ⟨behind, hread, by rw [haligned, List.append_nil]⟩
  · rintro ⟨found, behind⟩ hread
    obtain ⟨_, hread, -⟩ := blocks_eq_ok_iff.mp hread
    exact fewDistances_of_readBlocksOnto hlegal hs hwhole hread

end Intake.Deflate
