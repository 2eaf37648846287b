import Intake.Json.Quote
import Intake.Proofs.Json.Taken

/-!
# Reading a string

A string is read off the front of a text exactly where pieces of the grammar stand in front of a
quotation mark and stand for some text (`outcome_read_pieces`, `exists_pieces_of_read`). Escapes are
undone on the way, and what is left to check at the end is that the bytes between the marks are
UTF-8. Since every escape stands for a whole character, the bytes that are no escape have to be
characters on their own (`exists_pieces_of_unquoted`).
-/

set_option autoImplicit false
set_option relaxedAutoImplicit false

namespace Intake.Json

open Utf8

/-! ### Units of UTF-16 -/

theorem encode_hexDigit (d : HexDigit) : String.utf8EncodeChar d.char = [d.char.toUInt8] := by
  obtain ⟨value, capital⟩ := d
  revert value capital
  decide

theorem hexDigit?_hexDigit (d : HexDigit) : Text.hexDigit? d.char.toUInt8 = some d.value.val := by
  obtain ⟨value, capital⟩ := d
  revert value capital
  decide

theorem exists_hexDigit {b : UInt8} {n : Nat} (h : Text.hexDigit? b = some n) :
    ∃ d : HexDigit, d.value.val = n ∧ d.char.toUInt8 = b := by
  have hsmall : ∀ v : Fin 16, (HexDigit.char ⟨v, false⟩).toUInt8.toNat =
      if v.val < 10 then v.val + 48 else v.val + 87 := by decide
  have hcapital : ∀ v : Fin 16, 10 ≤ v.val →
      (HexDigit.char ⟨v, true⟩).toUInt8.toNat = v.val + 55 := by decide
  have h0 : '0'.toUInt8.toNat = 48 := rfl
  have h9 : '9'.toUInt8.toNat = 57 := rfl
  have ha : 'a'.toUInt8.toNat = 97 := rfl
  have hf : 'f'.toUInt8.toNat = 102 := rfl
  have hA : 'A'.toUInt8.toNat = 65 := rfl
  have hF : 'F'.toUInt8.toNat = 70 := rfl
  unfold Text.hexDigit? at h
  simp only [UInt8.le_iff_toNat_le, h0, h9, ha, hf, hA, hF] at h
  split_ifs at h with hdigit hletter hbig
  · refine ⟨⟨⟨b.toNat - 48, by omega⟩, false⟩, Option.some_inj.mp h, ?_⟩
    rw [← UInt8.toNat_inj, hsmall, if_pos (by simp only; omega)]
    simp only
    omega
  · refine ⟨⟨⟨b.toNat - 87, by omega⟩, false⟩, Option.some_inj.mp h, ?_⟩
    rw [← UInt8.toNat_inj, hsmall, if_neg (by simp only; omega)]
    simp only
    omega
  · refine ⟨⟨⟨b.toNat - 55, by omega⟩, true⟩, Option.some_inj.mp h, ?_⟩
    rw [← UInt8.toNat_inj, hcapital _ (by simp only; omega)]
    simp only
    omega

theorem encode_hexUnit (u : HexUnit) :
    encode u.chars = [u.first.char.toUInt8, u.second.char.toUInt8, u.third.char.toUInt8,
      u.fourth.char.toUInt8] := by
  simp [HexUnit.chars, encode_hexDigit]

namespace Escape

theorem outcome_hexUnit (u : HexUnit) (s : Bytes) :
    outcome (hexUnit (encode u.chars ++ s)) = some (u.value, s) := by
  have hunit : hexUnit? u.first.char.toUInt8 u.second.char.toUInt8 u.third.char.toUInt8
      u.fourth.char.toUInt8 = some u.value := by
    simp [hexUnit?, hexDigit?_hexDigit, HexUnit.value]
  rw [encode_hexUnit]
  show outcome (hexUnit (_ :: _ :: _ :: _ :: s)) = _
  rw [hexUnit]
  split
  · rename_i n hn
    rw [outcome_ok, ← Option.some_inj.mp (hunit.symm.trans hn)]
  · rename_i hnone
    exact absurd (hunit.symm.trans hnone) (by simp)

theorem exists_hexUnit {s rest : Bytes} {n : Nat} (h : outcome (hexUnit s) = some (n, rest)) :
    ∃ u : HexUnit, u.value = n ∧ s = encode u.chars ++ rest := by
  unfold hexUnit at h
  split at h
  · rename_i a b c d rest'
    split at h
    · rename_i m hm
      obtain ⟨rfl, rfl⟩ := Prod.mk.inj (Option.some_inj.mp h)
      simp only [hexUnit?, Option.bind_eq_bind, Option.bind_eq_some_iff, Option.pure_def,
        Option.some_inj] at hm
      obtain ⟨i, hi, j, hj, k, hk, l, hl, rfl⟩ := hm
      obtain ⟨di, rfl, rfl⟩ := exists_hexDigit hi
      obtain ⟨dj, rfl, rfl⟩ := exists_hexDigit hj
      obtain ⟨dk, rfl, rfl⟩ := exists_hexDigit hk
      obtain ⟨dl, rfl, rfl⟩ := exists_hexDigit hl
      exact ⟨⟨di, dj, dk, dl⟩, rfl, by rw [encode_hexUnit]; rfl⟩
    · simp at h
  · simp at h

/-! ### Escapes -/

theorem short?_letter (e : Short) : short? e.letter.toUInt8 = some e.char := by
  cases e with
  | _ => decide

theorem encode_letter (e : Short) : String.utf8EncodeChar e.letter = [e.letter.toUInt8] := by
  cases e with
  | _ => decide

theorem exists_of_short? {b : UInt8} {c : Char} (h : short? b = some c) :
    ∃ e : Short, e.char = c ∧ e.letter.toUInt8 = b := by
  unfold short? at h
  split_ifs at h with h1 h2 h3 h4 h5 h6 h7 h8
  · exact ⟨.quotationMark, Option.some_inj.mp h, h1.symm⟩
  · exact ⟨.reverseSolidus, Option.some_inj.mp h, h2.symm⟩
  · exact ⟨.solidus, Option.some_inj.mp h, h3.symm⟩
  · exact ⟨.backspace, Option.some_inj.mp h, h4.symm⟩
  · exact ⟨.formFeed, Option.some_inj.mp h, h5.symm⟩
  · exact ⟨.lineFeed, Option.some_inj.mp h, h6.symm⟩
  · exact ⟨.carriageReturn, Option.some_inj.mp h, h7.symm⟩
  · exact ⟨.tab, Option.some_inj.mp h, h8.symm⟩

theorem short?_u : short? 'u'.toUInt8 = none := by decide

theorem read_short (e : Short) (s : Bytes) :
    read (e.letter.toUInt8 :: s) = .ok ⟨.char e.char, s, Nat.lt_succ_self _⟩ := by
  rw [read]
  split
  · rename_i c hc
    rw [Option.some_inj.mp ((short?_letter e).symm.trans hc)]
  · rename_i hnone
    exact absurd ((short?_letter e).symm.trans hnone) (by simp)

theorem outcome_read_unit (s : Bytes) :
    outcome (read ('u'.toUInt8 :: s)) = (outcome (hexUnit s)).map (Prod.map .unit id) := by
  rw [read]
  split
  · rename_i c hc
    exact absurd (short?_u.symm.trans hc) (by simp)
  · rw [if_pos rfl]
    cases hexUnit s with
    | error e => rfl
    | ok t => rfl

theorem outcome_lowUnit_unit (s : Bytes) :
    outcome (lowUnit ('\\'.toUInt8 :: 'u'.toUInt8 :: s)) =
      (outcome (hexUnit s)).filter fun p ↦ isLow p.1 := by
  rw [lowUnit, if_pos rfl, if_pos rfl]
  cases hexUnit s with
  | error e => rfl
  | ok t =>
    dsimp only
    split_ifs with hlow
    · simp [Taken.widen, Option.filter, hlow]
    · simp [Option.filter, hlow]

theorem outcome_lowUnit_eq_none {s : Bytes}
    (h : ∀ digits, s ≠ '\\'.toUInt8 :: 'u'.toUInt8 :: digits) : outcome (lowUnit s) = none := by
  match s with
  | [] => rfl
  | [b] =>
    rw [lowUnit]
    split_ifs <;> rfl
  | b :: c :: digits =>
    rw [lowUnit]
    split_ifs with hb hc
    · exact absurd (by rw [hb, hc]) (h digits)
    · rfl
    · rfl

/-- A character is escaped by a letter, by one unit that is no surrogate, or by a high surrogate and
a low one. -/
theorem outcome_character (s : Bytes) :
    outcome (character s) = (outcome (read s)).bind fun p ↦
      match p with
      | (.char c, rest) => some (c, rest)
      | (.unit n, rest) =>
        if isLow n then none
        else if isHigh n then (outcome (lowUnit rest)).map (Prod.map (paired n) id)
        else some (Char.ofNat n, rest) := by
  unfold character
  cases read s with
  | error e => rfl
  | ok t =>
    obtain ⟨e, rest, hshorter⟩ := t
    cases e with
    | char c => rfl
    | unit n =>
      simp only [outcome_ok, Option.bind_some]
      split_ifs with hlow hhigh
      · rfl
      · cases lowUnit rest with
        | error e => rfl
        | ok t =>
          simp only [outcome_ok, Taken.map, Taken.widen, Option.map_some, Prod.map_apply, id_eq]
      · rfl

end Escape

/-! ### What stands between quotation marks -/

/-- The bytes that stand in front of a quotation mark, with escapes undone, and what follows the
mark. -/
inductive Unquoted : Bytes → Bytes → Bytes → Prop
  | stop {rest : Bytes} : Unquoted ('"'.toUInt8 :: rest) [] rest
  | escape {s s' bytes rest : Bytes} {c : Char} (hc : outcome (Escape.character s) = some (c, s'))
      (h : Unquoted s' bytes rest) :
      Unquoted ('\\'.toUInt8 :: s) (String.utf8EncodeChar c ++ bytes) rest
  | plain {s bytes rest : Bytes} {b : UInt8} (hmark : b ≠ '"'.toUInt8) (hescape : b ≠ '\\'.toUInt8)
      (hcontrol : ¬ b < 0x20) (h : Unquoted s bytes rest) : Unquoted (b :: s) (b :: bytes) rest

theorem unquoted_cons_iff {b : UInt8} {s bytes rest : Bytes} :
    Unquoted (b :: s) bytes rest ↔
      if b = '"'.toUInt8 then bytes = [] ∧ s = rest
      else if b = '\\'.toUInt8 then
        ∃ c s' more, outcome (Escape.character s) = some (c, s') ∧ Unquoted s' more rest ∧
          bytes = String.utf8EncodeChar c ++ more
      else ¬ b < 0x20 ∧ ∃ more, Unquoted s more rest ∧ bytes = b :: more := by
  have hne : '\\'.toUInt8 ≠ '"'.toUInt8 := by decide
  constructor
  · intro h
    cases h with
    | stop => simp
    | escape hc h => simpa [hne] using ⟨_, _, hc, _, h, rfl⟩
    | plain hmark hescape hcontrol h => simp [hmark, hescape, hcontrol, h]
  · intro h
    split_ifs at h with hmark hescape
    · obtain ⟨rfl, rfl⟩ := h
      exact hmark ▸ .stop
    · obtain ⟨c, s', more, hc, h, rfl⟩ := h
      exact hescape ▸ .escape hc h
    · obtain ⟨hcontrol, more, h, rfl⟩ := h
      exact .plain hmark hescape hcontrol h

theorem not_unquoted_nil {bytes rest : Bytes} : ¬ Unquoted [] bytes rest :=
  fun h ↦ nomatch h

theorem outcome_bytesOnto {source read s bytes rest : Bytes} (h : s.length ≤ source.length) :
    outcome (Quote.bytesOnto source read s h) = some (bytes, rest) ↔
      ∃ more, bytes = read.reverse ++ more ∧ Unquoted s more rest := by
  fun_induction Quote.bytesOnto source read s h with
  | case1 read h => simp [not_unquoted_nil]
  | case2 read s h => simp [unquoted_cons_iff, eq_comm]
  | case3 read s e hc h hmark =>
    simp [unquoted_cons_iff, hmark, hc]
  | case4 read s c s' hshorter hc h hmark _ ih =>
    rw [ih]
    simp [unquoted_cons_iff, hmark, hc, List.reverseAux_eq]
  | case5 read b s h hmark hescape hcontrol =>
    simp [unquoted_cons_iff, hmark, hescape, hcontrol]
  | case6 read b s h hmark hescape hcontrol _ ih =>
    rw [ih]
    simp [unquoted_cons_iff, hmark, hescape, hcontrol]

/-- A byte that stands for itself between quotation marks. -/
def PlainByte (b : UInt8) : Prop :=
  b ≠ '"'.toUInt8 ∧ b ≠ '\\'.toUInt8 ∧ ¬ b < 0x20

theorem plainByte_of_le {b : UInt8} (h : 0x80 ≤ b.toNat) : PlainByte b := by
  refine ⟨?_, ?_, ?_⟩
  · rintro rfl
    exact absurd h (by decide)
  · rintro rfl
    exact absurd h (by decide)
  · simp only [UInt8.lt_iff_toNat_lt, UInt8.reduceToNat]
    omega

theorem plainByte_of_plain {c : Char} (h : 0x20 ≤ c.toNat ∧ c ≠ '"' ∧ c ≠ '\\') :
    ∀ b ∈ String.utf8EncodeChar c, PlainByte b := by
  by_cases hascii : c.toNat < 0x80
  · have hbyte : c.toUInt8.toNat = c.toNat := toNat_ofNat (n := c.toNat) (by omega)
    have hchar : ∀ d : Char, d.toUInt8.toNat = d.toNat → c.toUInt8 = d.toUInt8 → c = d := by
      intro d hd heq
      rw [← Char.toNat_inj, ← hd, ← hbyte, heq]
    rw [utf8EncodeChar_of_lt hascii, List.forall_mem_singleton]
    refine ⟨fun heq ↦ h.2.1 (hchar _ rfl heq), fun heq ↦ h.2.2 (hchar _ rfl heq), ?_⟩
    simp only [UInt8.lt_iff_toNat_lt, hbyte, UInt8.reduceToNat]
    omega
  · obtain ⟨first, more, heq, -, hmore, hfirst⟩ := utf8EncodeChar_eq_cons c
    rw [heq]
    exact List.forall_mem_cons.mpr
      ⟨plainByte_of_le (hfirst (by omega)), fun b hb ↦ plainByte_of_le (hmore b hb).1⟩

theorem unquoted_append_iff {raw s bytes rest : Bytes} (hraw : ∀ b ∈ raw, PlainByte b) :
    Unquoted (raw ++ s) bytes rest ↔ ∃ more, Unquoted s more rest ∧ bytes = raw ++ more := by
  induction raw generalizing bytes with
  | nil => simp
  | cons b raw ih =>
    obtain ⟨⟨hmark, hescape, hcontrol⟩, hmore⟩ := List.forall_mem_cons.mp hraw
    rw [List.cons_append, unquoted_cons_iff, if_neg hmark, if_neg hescape]
    simp [hcontrol, ih hmore]

/-! ### Pieces -/

theorem encode_backslash : String.utf8EncodeChar '\\' = ['\\'.toUInt8] := by decide

theorem encode_u : String.utf8EncodeChar 'u' = ['u'.toUInt8] := by decide

theorem encode_quotationMark : String.utf8EncodeChar '"' = ['"'.toUInt8] := by decide

theorem encode_short (e : Short) :
    encode (Piece.short e).chars = ['\\'.toUInt8, e.letter.toUInt8] := by
  rw [Piece.chars, encode_cons, encode_cons, encode_backslash, Escape.encode_letter]
  rfl

theorem encode_unit (u : HexUnit) :
    encode (Piece.unit u).chars = '\\'.toUInt8 :: 'u'.toUInt8 :: encode u.chars := by
  rw [Piece.chars, encode_cons, encode_cons, encode_backslash, encode_u]
  rfl

theorem encode_pieces_cons (p : Piece) (ps : Pieces) :
    encode (Pieces.chars (p :: ps)) = encode p.chars ++ encode (Pieces.chars ps) := by
  rw [Pieces.chars, List.flatMap_cons, encode_append]
  rfl

theorem encode_pieces_append (first second : Pieces) :
    encode (Pieces.chars (first ++ second)) =
      encode first.chars ++ encode second.chars := by
  rw [Pieces.chars, List.flatMap_append, encode_append]
  rfl

theorem unquoted_backslash_iff {s s' bytes rest : Bytes} {c : Char}
    (h : outcome (Escape.character s) = some (c, s')) :
    Unquoted ('\\'.toUInt8 :: s) bytes rest ↔
      ∃ more, Unquoted s' more rest ∧ bytes = String.utf8EncodeChar c ++ more := by
  have hne : '\\'.toUInt8 ≠ '"'.toUInt8 := by decide
  rw [unquoted_cons_iff, if_neg hne, if_pos rfl, h]
  constructor
  · rintro ⟨d, s₁, more, heq, hmore, rfl⟩
    obtain ⟨rfl, rfl⟩ := Prod.mk.inj (Option.some_inj.mp heq)
    exact ⟨more, hmore, rfl⟩
  · rintro ⟨more, hmore, rfl⟩
    exact ⟨c, s', more, rfl, hmore, rfl⟩

theorem not_unquoted_backslash {s bytes rest : Bytes} (h : outcome (Escape.character s) = none) :
    ¬ Unquoted ('\\'.toUInt8 :: s) bytes rest := by
  have hne : '\\'.toUInt8 ≠ '"'.toUInt8 := by decide
  rw [unquoted_cons_iff, if_neg hne, if_pos rfl, h]
  rintro ⟨c, s', more, heq, -⟩
  exact absurd heq (by simp)

theorem character_short (e : Short) (s : Bytes) :
    outcome (Escape.character (e.letter.toUInt8 :: s)) = some (e.char, s) := by
  rw [Escape.outcome_character, Escape.read_short]
  rfl

theorem character_unit (u : HexUnit) (s : Bytes) :
    outcome (Escape.character ('u'.toUInt8 :: (encode u.chars ++ s))) =
      if Escape.isLow u.value then none
      else if Escape.isHigh u.value then
        (outcome (Escape.lowUnit s)).map (Prod.map (Escape.paired u.value) id)
      else some (Char.ofNat u.value, s) := by
  rw [Escape.outcome_character, Escape.outcome_read_unit, Escape.outcome_hexUnit]
  rfl

theorem lowUnit_unit (u : HexUnit) (ps : Pieces) (s : Bytes) :
    outcome (Escape.lowUnit (encode (Pieces.chars (.unit u :: ps)) ++ s)) =
      if Escape.isLow u.value then some (u.value, encode ps.chars ++ s) else none := by
  rw [encode_pieces_cons, encode_unit, List.append_assoc, List.cons_append, List.cons_append,
    Escape.outcome_lowUnit_unit, Escape.outcome_hexUnit]
  simp only [Option.filter]

/-- No low surrogate stands in front of a mark or behind another piece than a unit. -/
theorem lowUnit_eq_none {ps : Pieces} (rest : Bytes) (h : ∀ u more, ps ≠ .unit u :: more) :
    outcome (Escape.lowUnit (encode ps.chars ++ '"'.toUInt8 :: rest)) = none := by
  refine Escape.outcome_lowUnit_eq_none fun digits heq ↦ ?_
  match ps with
  | [] => exact absurd (List.cons.inj heq).1 (by decide)
  | .plain c hc :: ps =>
    obtain ⟨first, more, hform, -⟩ := utf8EncodeChar_eq_cons c
    have hplain := plainByte_of_plain hc first (by rw [hform]; exact List.mem_cons_self)
    rw [encode_pieces_cons, Piece.chars, encode_cons, hform] at heq
    exact hplain.2.1 (List.cons.inj heq).1
  | .short e :: ps =>
    have hletter : e.letter.toUInt8 ≠ 'u'.toUInt8 := by
      cases e with
      | _ => decide
    rw [encode_pieces_cons, encode_short] at heq
    exact hletter (List.cons.inj (List.cons.inj heq).2).1
  | .unit u :: ps => exact h u ps rfl

/-- One character more in front of a text is the form of that character in front of its bytes. -/
theorem exists_form_append_iff {p : Prop} {o : Option (List Char)} {c : Char} {bytes : Bytes} :
    (∃ more, (p ∧ ∃ text, o = some text ∧ more = encode text) ∧
        bytes = String.utf8EncodeChar c ++ more) ↔
      p ∧ ∃ text, o.map (c :: ·) = some text ∧ bytes = encode text := by
  constructor
  · rintro ⟨more, ⟨hp, text, rfl, rfl⟩, rfl⟩
    exact ⟨hp, c :: text, rfl, rfl⟩
  · rintro ⟨hp, text, htext, rfl⟩
    obtain ⟨text, rfl, rfl⟩ := Option.map_eq_some_iff.mp htext
    exact ⟨encode text, ⟨hp, text, rfl, rfl⟩, rfl⟩

/-- Between quotation marks, pieces are undone to the text that they stand for. -/
theorem unquoted_pieces_iff {ps : Pieces} {rest bytes final : Bytes} :
    Unquoted (encode ps.chars ++ '"'.toUInt8 :: rest) bytes final ↔
      rest = final ∧ ∃ text, ps.unescaped = some text ∧ bytes = encode text := by
  fun_induction Pieces.unescaped ps generalizing bytes with
  | case1 => simp [Pieces.chars, unquoted_cons_iff, and_comm]
  | case2 c h ps ih =>
    rw [encode_pieces_cons, Piece.chars, List.append_assoc, encode_cons, encode_nil,
      List.append_nil, unquoted_append_iff (plainByte_of_plain h)]
    simp only [ih, exists_form_append_iff]
  | case3 e ps ih =>
    rw [encode_pieces_cons, encode_short, List.append_assoc, List.cons_append, List.cons_append,
      List.nil_append, unquoted_backslash_iff (character_short e _)]
    simp only [ih, exists_form_append_iff]
  | case4 u ps hlow =>
    rw [encode_pieces_cons, encode_unit, List.append_assoc, List.cons_append, List.cons_append]
    refine iff_of_false (not_unquoted_backslash ?_) (by simp)
    rw [character_unit, if_pos hlow]
  | case5 u hlow hhigh low ps hlow' ih =>
    have hcharacter := character_unit u
      (encode (Pieces.chars (Piece.unit low :: ps)) ++ '"'.toUInt8 :: rest)
    rw [if_neg hlow, if_pos hhigh, lowUnit_unit, if_pos hlow'] at hcharacter
    rw [encode_pieces_cons, encode_unit, List.append_assoc, List.cons_append, List.cons_append,
      unquoted_backslash_iff hcharacter]
    simp only [id_eq, ih, exists_form_append_iff]
  | case6 u hlow hhigh low ps hlow' =>
    rw [encode_pieces_cons, encode_unit, List.append_assoc, List.cons_append, List.cons_append]
    refine iff_of_false (not_unquoted_backslash ?_) (by simp)
    rw [character_unit, if_neg hlow, if_pos hhigh, lowUnit_unit, if_neg hlow']
    rfl
  | case7 u ps hlow hhigh hnone =>
    rw [encode_pieces_cons, encode_unit, List.append_assoc, List.cons_append, List.cons_append]
    refine iff_of_false (not_unquoted_backslash ?_) (by simp)
    rw [character_unit, if_neg hlow, if_pos hhigh, lowUnit_eq_none rest hnone]
    rfl
  | case8 u ps hlow hhigh ih =>
    have hcharacter := character_unit u (encode (Pieces.chars ps) ++ '"'.toUInt8 :: rest)
    rw [if_neg hlow, if_neg hhigh] at hcharacter
    rw [encode_pieces_cons, encode_unit, List.append_assoc, List.cons_append, List.cons_append,
      unquoted_backslash_iff hcharacter]
    simp only [ih, exists_form_append_iff]

/-! ### Pieces of what was read -/

namespace Escape

theorem exists_of_outcome_read {s rest : Bytes} {e : Escape}
    (h : outcome (read s) = some (e, rest)) :
    (∃ short : Short, e = .char short.char ∧ s = short.letter.toUInt8 :: rest) ∨
      ∃ u : HexUnit, e = .unit u.value ∧ s = 'u'.toUInt8 :: (encode u.chars ++ rest) := by
  cases s with
  | nil => simp [read] at h
  | cons b s =>
    by_cases hu : b = 'u'.toUInt8
    · rw [hu, outcome_read_unit] at h
      obtain ⟨⟨n, s'⟩, hunit, heq⟩ := Option.map_eq_some_iff.mp h
      obtain ⟨rfl, rfl⟩ := Prod.mk.inj heq
      obtain ⟨u, rfl, rfl⟩ := exists_hexUnit hunit
      exact Or.inr ⟨u, rfl, by rw [hu]; rfl⟩
    · rw [read] at h
      split at h
      · rename_i c hc
        obtain ⟨rfl, rfl⟩ := Prod.mk.inj (Option.some_inj.mp h)
        obtain ⟨short, rfl, rfl⟩ := exists_of_short? hc
        exact Or.inl ⟨short, rfl, rfl⟩
      · rw [if_neg hu] at h
        exact absurd h (by simp)

theorem exists_of_outcome_lowUnit {s rest : Bytes} {n : Nat}
    (h : outcome (lowUnit s) = some (n, rest)) :
    ∃ u : HexUnit, u.value = n ∧ isLow n = true ∧ s = encode (Piece.unit u).chars ++ rest := by
  by_cases hs : ∃ digits, s = '\\'.toUInt8 :: 'u'.toUInt8 :: digits
  · obtain ⟨digits, rfl⟩ := hs
    rw [outcome_lowUnit_unit, Option.filter_eq_some_iff] at h
    obtain ⟨u, rfl, rfl⟩ := exists_hexUnit h.1
    exact ⟨u, rfl, h.2, by rw [encode_unit]; rfl⟩
  · rw [outcome_lowUnit_eq_none (not_exists.mp hs)] at h
    exact absurd h (by simp)

/-- What is read behind a backslash as a character is one piece, or two pieces that are a pair. -/
theorem exists_pieces_of_character {s rest : Bytes} {c : Char}
    (h : outcome (character s) = some (c, rest)) :
    ∃ es : Pieces, '\\'.toUInt8 :: s = encode es.chars ++ rest ∧
      ∀ ps : Pieces, Pieces.unescaped (es ++ ps) = ps.unescaped.map (c :: ·) := by
  rw [outcome_character, Option.bind_eq_some_iff] at h
  obtain ⟨⟨e, s'⟩, hread, hstep⟩ := h
  obtain ⟨short, rfl, rfl⟩ | ⟨u, rfl, rfl⟩ := exists_of_outcome_read hread
  · obtain ⟨rfl, rfl⟩ := Prod.mk.inj (Option.some_inj.mp hstep)
    refine ⟨[.short short], ?_, fun ps ↦ rfl⟩
    rw [encode_pieces_cons, encode_short]
    rfl
  · dsimp only at hstep
    split_ifs at hstep with hlow hhigh
    · obtain ⟨⟨n, s₂⟩, hunit, heq⟩ := Option.map_eq_some_iff.mp hstep
      obtain ⟨rfl, rfl⟩ := Prod.mk.inj heq
      obtain ⟨low, rfl, hlow', rfl⟩ := exists_of_outcome_lowUnit hunit
      refine ⟨[.unit u, .unit low], ?_, fun ps ↦ ?_⟩
      · rw [encode_pieces_cons, encode_pieces_cons, encode_unit u, List.append_assoc,
          List.append_assoc]
        rfl
      · show Pieces.unescaped (.unit u :: .unit low :: ps) = _
        rw [Pieces.unescaped, if_neg hlow, if_pos hhigh, if_pos hlow']
    · obtain ⟨rfl, rfl⟩ := Prod.mk.inj (Option.some_inj.mp hstep)
      refine ⟨[.unit u], ?_, fun ps ↦ ?_⟩
      · rw [encode_pieces_cons, encode_unit]
        simp [Pieces.chars]
      · show Pieces.unescaped (.unit u :: ps) = _
        rw [Pieces.unescaped.eq_def]
        dsimp only
        rw [if_neg hlow, if_neg hhigh]

end Escape

/-- Bytes that go on with a form are no escape, since an escape stands for a whole form. -/
theorem unquoted_of_continues {more s bytes rest : Bytes} (hmore : ∀ b ∈ more, Continues b)
    (h : Unquoted s (more ++ bytes) rest) : ∃ s', s = more ++ s' ∧ Unquoted s' bytes rest := by
  induction more generalizing s with
  | nil => exact ⟨s, rfl, h⟩
  | cons b more ih =>
    obtain ⟨hb, hmore⟩ := List.forall_mem_cons.mp hmore
    rw [List.cons_append] at h
    generalize hall : b :: (more ++ bytes) = all at h
    cases h with
    | stop => exact absurd hall (by simp)
    | @escape _ _ _ _ c hc hrest =>
      obtain ⟨first, tail, hform, hfirst, -⟩ := utf8EncodeChar_eq_cons c
      rw [hform, List.cons_append] at hall
      exact absurd ((List.cons.inj hall).1 ▸ hb) hfirst
    | plain hmark hescape hcontrol hrest =>
      obtain ⟨rfl, rfl⟩ := List.cons.inj hall
      obtain ⟨s', rfl, hs'⟩ := ih hmore hrest
      exact ⟨s', rfl, hs'⟩

theorem plain_of_plainByte {c : Char} {first : UInt8} {more : Bytes}
    (hform : String.utf8EncodeChar c = first :: more) (h : PlainByte first) :
    0x20 ≤ c.toNat ∧ c ≠ '"' ∧ c ≠ '\\' := by
  obtain ⟨hmark, hescape, hcontrol⟩ := h
  refine ⟨?_, ?_, ?_⟩
  · by_contra hlt
    have hbyte : c.toUInt8.toNat = c.toNat := toNat_ofNat (n := c.toNat) (by omega)
    rw [utf8EncodeChar_of_lt (by omega)] at hform
    rw [← (List.cons.inj hform).1, UInt8.lt_iff_toNat_lt, hbyte] at hcontrol
    exact hcontrol (by simpa using hlt)
  · rintro rfl
    exact hmark (List.cons.inj hform).1.symm
  · rintro rfl
    exact hescape (List.cons.inj hform).1.symm

/-- A text that stands between quotation marks is written in pieces there. -/
theorem exists_pieces_of_unquoted {s rest : Bytes} {text : List Char}
    (h : Unquoted s (encode text) rest) :
    ∃ ps : Pieces, s = encode ps.chars ++ '"'.toUInt8 :: rest ∧ ps.unescaped = some text := by
  induction text generalizing s with
  | nil =>
    generalize hall : encode [] = all at h
    cases h with
    | stop => exact ⟨[], rfl, rfl⟩
    | @escape _ _ _ _ c hc hrest =>
      obtain ⟨first, more, hform, -⟩ := utf8EncodeChar_eq_cons c
      rw [hform] at hall
      exact absurd hall (by simp)
    | plain => exact absurd hall (by simp)
  | cons c text ih =>
    obtain ⟨first, more, hform, hfirst, hmore, -⟩ := utf8EncodeChar_eq_cons c
    generalize hall : encode (c :: text) = all at h
    cases h with
    | stop =>
      rw [encode_cons, hform] at hall
      exact absurd hall (by simp)
    | @escape _ s' bytes _ d hd hrest =>
      have hfront : front? (encode (c :: text)) = some (d, bytes) := by
        rw [hall, front?_utf8EncodeChar]
      rw [encode_cons, front?_utf8EncodeChar] at hfront
      obtain ⟨rfl, rfl⟩ := Prod.mk.inj (Option.some_inj.mp hfront)
      obtain ⟨es, hes, hunescaped⟩ := Escape.exists_pieces_of_character hd
      obtain ⟨ps, rfl, hps⟩ := ih hrest
      refine ⟨es ++ ps, ?_, by rw [hunescaped, hps]; rfl⟩
      rw [hes, encode_pieces_append, List.append_assoc]
    | @plain s' bytes _ b hmark hescape hcontrol hrest =>
      rw [encode_cons, hform, List.cons_append] at hall
      obtain ⟨rfl, rfl⟩ := List.cons.inj hall
      obtain ⟨s'', rfl, hs''⟩ := unquoted_of_continues (fun b hb ↦ (hmore b hb)) hrest
      obtain ⟨ps, rfl, hps⟩ := ih hs''
      have hplain := plain_of_plainByte hform ⟨hmark, hescape, hcontrol⟩
      refine ⟨.plain c hplain :: ps, ?_, by rw [Pieces.unescaped, hps]; rfl⟩
      rw [encode_pieces_cons, Piece.chars, encode_cons, hform, encode_nil, List.append_nil,
        List.append_assoc]
      rfl

/-! ### Strings -/

theorem outcome_quote_read {s rest : Bytes} {text : String} :
    outcome (Quote.read s) = some (text, rest) ↔ Unquoted s (encode text.toList) rest := by
  have hbytes : ∀ bytes final,
      outcome (Quote.bytesOnto s [] s (length_le_self s)) = some (bytes, final) ↔
        Unquoted s bytes final := fun bytes final ↦ by
    rw [outcome_bytesOnto]
    simp
  unfold Quote.read
  cases hread : Quote.bytesOnto s [] s (length_le_self s) with
  | error e =>
    rw [← hbytes, hread]
    simp
  | ok t =>
    obtain ⟨bytes, final, hshorter⟩ := t
    rw [← hbytes, hread]
    dsimp only
    split
    · rename_i found hfound
      rw [wellFormed_eq_iff] at hfound
      rw [hfound]
      simp only [outcome_ok, Option.some_inj, Prod.mk.injEq]
      constructor
      · rintro ⟨rfl, rfl⟩
        exact ⟨by rw [String.toList_ofList], rfl⟩
      · rintro ⟨heq, rfl⟩
        exact ⟨by rw [encode_injective heq, String.ofList_toList], rfl⟩
    · rename_i _ bad hbad hfound
      refine iff_of_false (by simp) fun heq ↦ ?_
      obtain ⟨rfl, rfl⟩ := Prod.mk.inj (Option.some_inj.mp heq)
      rw [wellFormed_eq_iff.mpr rfl] at hfound
      exact hbad (Prod.mk.inj hfound).2.symm

/-- Pieces in front of a quotation mark are read as the text that they stand for. -/
theorem outcome_read_pieces (ps : Pieces) (rest : Bytes) :
    outcome (Quote.read (encode ps.chars ++ '"'.toUInt8 :: rest)) =
      ps.unescaped.map fun text ↦ (String.ofList text, rest) := by
  refine Option.ext fun ⟨text, final⟩ ↦ ?_
  rw [outcome_quote_read, unquoted_pieces_iff, Option.map_eq_some_iff]
  constructor
  · rintro ⟨rfl, unescaped, hunescaped, heq⟩
    exact ⟨unescaped, hunescaped, by rw [← encode_injective heq, String.ofList_toList]⟩
  · rintro ⟨unescaped, hunescaped, heq⟩
    obtain ⟨rfl, rfl⟩ := Prod.mk.inj heq
    exact ⟨rfl, unescaped, hunescaped, by rw [String.toList_ofList]⟩

/-- What is read as a string is written in pieces. -/
theorem exists_pieces_of_read {s rest : Bytes} {text : String}
    (h : outcome (Quote.read s) = some (text, rest)) :
    ∃ ps : Pieces, s = encode ps.chars ++ '"'.toUInt8 :: rest ∧
      ps.unescaped = some text.toList :=
  exists_pieces_of_unquoted (outcome_quote_read.mp h)

end Intake.Json
