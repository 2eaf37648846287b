import Intake.Deflate.Alphabet
import Intake.Deflate.Token
import Intake.Outcome

/-!
# Blocks of the DEFLATE format

A stream is a sequence of blocks, each of them stored bytes or coded tokens, the last one marked.
`blocks` reads a stream off the front of a byte string and hands back the bytes from the next byte
boundary on; what the blocks stand for is `content`. A stream that stops in the middle is told from
one that breaks the format.
-/

set_option autoImplicit false
set_option relaxedAutoImplicit false

namespace Intake.Deflate

/-- Why a stream could not be read. -/
inductive Fault
  /-- The bytes end inside the stream. -/
  | incomplete
  /-- The stream breaks the format. -/
  | corrupt
  deriving DecidableEq, Repr

inductive Block
  | stored (bytes : Bytes)
  | coded (tokens : List Token)
  deriving DecidableEq, Repr

def Fault.ofNoSymbol : NoSymbol → Fault
  | .ended => .incomplete
  | .unassigned => .corrupt

/-- A number of `n` bits. -/
def readNumber (n : Nat) (s : BitStream) : Except Fault (Nat × BitStream) :=
  match s.number? n with
  | some read => .ok read
  | none => .error .incomplete

/-- A symbol of a code. -/
def readSymbol {α : Type} (code : PrefixCode α) (s : BitStream) : Except Fault (α × BitStream) :=
  match code.read s with
  | .ok read => .ok read
  | .error e => .error (.ofNoSymbol e)

/-- A base and its extra bits. -/
def readExtended (bases : Array (Nat × Nat)) (symbol : Nat) (s : BitStream) :
    Except Fault (Nat × BitStream) :=
  match bases[symbol]? with
  | none => .error .corrupt
  | some (base, extra) =>
    match readNumber extra s with
    | .error e => .error e
    | .ok (n, s) => .ok (base + n, s)

/-- The next token, or nothing at the end of the block. -/
def readToken (codes : Codes) (s : BitStream) : Except Fault (Option Token × BitStream) :=
  match readSymbol codes.literals s with
  | .error e => .error e
  | .ok (symbol, s) =>
    if symbol < endOfBlock then .ok (some (.literal symbol.toUInt8), s)
    else if symbol = endOfBlock then .ok (none, s)
    else
      match readExtended lengthBases (symbol - 257) s with
      | .error e => .error e
      | .ok (length, s) =>
        match readSymbol codes.distances s with
        | .error e => .error e
        | .ok (symbol, s) =>
          match readExtended distanceBases symbol s with
          | .error e => .error e
          | .ok (distance, s) => .ok (some (.copy length distance), s)

theorem size_readNumber {n x : Nat} {s rest : BitStream} (h : readNumber n s = .ok (x, rest)) :
    rest.size + n = s.size := by
  unfold readNumber at h
  split at h
  · obtain rfl := Except.ok.inj h
    exact BitStream.size_number? ‹_›
  · simp at h

theorem size_readSymbol_lt {α : Type} {code : PrefixCode α} {s rest : BitStream} {symbol : α}
    (h : readSymbol code s = .ok (symbol, rest)) : rest.size < s.size := by
  unfold readSymbol at h
  split at h
  · obtain rfl := Except.ok.inj h
    exact PrefixCode.size_read_lt ‹_›
  · simp at h

theorem size_readExtended {bases : Array (Nat × Nat)} {symbol x : Nat} {s rest : BitStream}
    (h : readExtended bases symbol s = .ok (x, rest)) : rest.size ≤ s.size := by
  unfold readExtended at h
  split at h
  · simp at h
  · split at h
    · simp at h
    · simp only [Except.ok.injEq, Prod.mk.injEq] at h
      obtain ⟨_, rfl⟩ := h
      have := size_readNumber ‹_›
      omega

theorem size_readToken_lt {codes : Codes} {s rest : BitStream} {token : Option Token}
    (h : readToken codes s = .ok (token, rest)) : rest.size < s.size := by
  unfold readToken at h
  split at h
  · simp at h
  · have h₁ := size_readSymbol_lt ‹_›
    split at h
    · simp only [Except.ok.injEq, Prod.mk.injEq] at h
      obtain ⟨_, rfl⟩ := h
      exact h₁
    · split at h
      · simp only [Except.ok.injEq, Prod.mk.injEq] at h
        obtain ⟨_, rfl⟩ := h
        exact h₁
      · split at h
        · simp at h
        · have h₂ := size_readExtended ‹_›
          split at h
          · simp at h
          · have h₃ := size_readSymbol_lt ‹_›
            split at h
            · simp at h
            · have h₄ := size_readExtended ‹_›
              simp only [Except.ok.injEq, Prod.mk.injEq] at h
              obtain ⟨_, rfl⟩ := h
              omega

/-- Reads tokens up to the end of the block onto `read`, which is kept reversed. -/
def readTokensOnto (codes : Codes) (read : List Token) (s : BitStream) :
    Except Fault (List Token × BitStream) :=
  match _h : readToken codes s with
  | .error e => .error e
  | .ok (none, rest) => .ok (read.reverse, rest)
  | .ok (some token, rest) => readTokensOnto codes (token :: read) rest
termination_by s.size
decreasing_by exact size_readToken_lt ‹_›

/-- How often a symbol of the third code repeats a length, and which: the number of extra bits, the
least count, and whether the length before is repeated or zero. -/
def repetition? : Nat → Option (Nat × Nat × Bool)
  | 16 => some (2, 3, true)
  | 17 => some (3, 3, false)
  | 18 => some (7, 11, false)
  | _ => none

/-- The word lengths that one symbol of the third code adds in front of the reversed list `read`. -/
def readLengths (code : PrefixCode Nat) (read : List Nat) (s : BitStream) :
    Except Fault (List Nat × BitStream) :=
  match readSymbol code s with
  | .error e => .error e
  | .ok (symbol, s) =>
    match repetition? symbol with
    | none => .ok (symbol :: read, s)
    | some (extra, least, previous) =>
      match if previous then read.head? else some 0 with
      | none => .error .corrupt
      | some length =>
        match readNumber extra s with
        | .error e => .error e
        | .ok (n, s) => .ok (List.replicate (least + n) length ++ read, s)

theorem size_readLengths_lt {code : PrefixCode Nat} {read lengths : List Nat} {s rest : BitStream}
    (h : readLengths code read s = .ok (lengths, rest)) : rest.size < s.size := by
  unfold readLengths at h
  split at h
  · simp at h
  · have h₁ := size_readSymbol_lt ‹_›
    split at h
    · simp only [Except.ok.injEq, Prod.mk.injEq] at h
      obtain ⟨_, rfl⟩ := h
      exact h₁
    · split at h
      · simp at h
      · split at h
        · simp at h
        · have h₂ := size_readNumber ‹_›
          simp only [Except.ok.injEq, Prod.mk.injEq] at h
          obtain ⟨_, rfl⟩ := h
          omega

/-- Reads word lengths onto `read`, which is kept reversed, until there are `count` of them. -/
def readLengthsOnto (code : PrefixCode Nat) (count : Nat) (read : List Nat) (s : BitStream) :
    Except Fault (List Nat × BitStream) :=
  if read.length < count then
    match _h : readLengths code read s with
    | .error e => .error e
    | .ok (lengths, rest) => readLengthsOnto code count lengths rest
  else if read.length = count then .ok (read.reverse, s)
  else .error .corrupt
termination_by s.size
decreasing_by exact size_readLengths_lt ‹_›

/-- `n` word lengths of the third code, of three bits each. -/
def readShortLengths : Nat → BitStream → Except Fault (List Nat × BitStream)
  | 0, s => .ok ([], s)
  | n + 1, s =>
    match readNumber 3 s with
    | .error e => .error e
    | .ok (length, s) =>
      match readShortLengths n s with
      | .error e => .error e
      | .ok (lengths, s) => .ok (length :: lengths, s)

/-- The word lengths of the third code in the order of its symbols. -/
def inSymbolOrder (lengths : List Nat) : List Nat :=
  (List.range 19).map fun symbol ↦ lengths.getD (lengthOrder.idxOf symbol) 0

/-- The codes with these word lengths, the first `literals` of which are for literals. -/
def codesOfLengths? (literals : Nat) (lengths : List Nat) : Option Codes := do
  let literalCode ← codeOfLengths? (lengths.take literals)
  let distanceCode ← codeOfLengths? (lengths.drop literals)
  return ⟨literalCode, distanceCode⟩

/-- The codes that a block brings with it. -/
def readCodes (s : BitStream) : Except Fault (Codes × BitStream) := do
  let (literals, s) ← readNumber 5 s
  let (distances, s) ← readNumber 5 s
  let (shorts, s) ← readNumber 4 s
  if 286 < literals + 257 ∨ 30 < distances + 1 then .error .corrupt
  else
    let (lengths, s) ← readShortLengths (shorts + 4) s
    if kraftSum 7 (inSymbolOrder lengths) ≠ 2 ^ 7 then .error .corrupt
    else
      let code := PrefixCode.canonical 7 (inSymbolOrder lengths)
      let (lengths, s) ← readLengthsOnto code (literals + 257 + (distances + 1)) [] s
      match codesOfLengths? (literals + 257) lengths with
      | some codes => .ok (codes, s)
      | none => .error .corrupt

/-- A block of stored bytes: its size, the complement of its size, and the bytes. -/
def readStored (s : Bytes) : Except Fault (Bytes × Bytes) :=
  match Bytes.split? 4 s with
  | none => .error .incomplete
  | some (header, s) =>
    let size := Bytes.littleEndian (header.take 2)
    if size + Bytes.littleEndian (header.drop 2) ≠ 0xFFFF then .error .corrupt
    else
      match Bytes.split? size s with
      | none => .error .incomplete
      | some stored => .ok stored

/-- What stands behind the mark and the kind of a block. -/
def readBody (kind : Nat) (s : BitStream) : Except Fault (Block × BitStream) :=
  match kind with
  | 0 => (readStored s.aligned).map fun (bytes, s) ↦ (.stored bytes, .ofBytes s)
  | 1 => (readTokensOnto .fixed [] s).map fun (tokens, s) ↦ (.coded tokens, s)
  | 2 => do
    let (codes, s) ← readCodes s
    (readTokensOnto codes [] s).map fun (tokens, s) ↦ (.coded tokens, s)
  | _ => .error .corrupt

/-- The next block, and whether it is the last. -/
def readBlock (s : BitStream) : Except Fault ((Bool × Block) × BitStream) :=
  match readNumber 1 s with
  | .error e => .error e
  | .ok (last, s) =>
    match readNumber 2 s with
    | .error e => .error e
    | .ok (kind, s) =>
      match readBody kind s with
      | .error e => .error e
      | .ok (block, s) => .ok ((last = 1, block), s)

theorem size_readTokensOnto_lt {codes : Codes} {read tokens : List Token} {s rest : BitStream}
    (h : readTokensOnto codes read s = .ok (tokens, rest)) : rest.size < s.size := by
  fun_induction readTokensOnto codes read s with
  | case1 => simp at h
  | case2 read s rest hread =>
    obtain ⟨rfl, rfl⟩ := Prod.mk.inj (Except.ok.inj h)
    exact size_readToken_lt hread
  | case3 read s token rest hread ih =>
    have := size_readToken_lt hread
    have := ih h
    omega

theorem size_readLengthsOnto {code : PrefixCode Nat} {count : Nat} {read lengths : List Nat}
    {s rest : BitStream} (h : readLengthsOnto code count read s = .ok (lengths, rest)) :
    rest.size ≤ s.size := by
  fun_induction readLengthsOnto code count read s with
  | case1 => simp at h
  | case2 read s hcount longer rest hread ih =>
    have := size_readLengths_lt hread
    have := ih h
    omega
  | case3 =>
    obtain ⟨rfl, rfl⟩ := Prod.mk.inj (Except.ok.inj h)
    exact Nat.le_refl _
  | case4 => simp at h

theorem size_readShortLengths {n : Nat} {lengths : List Nat} {s rest : BitStream}
    (h : readShortLengths n s = .ok (lengths, rest)) : rest.size ≤ s.size := by
  induction n generalizing s lengths with
  | zero =>
    obtain ⟨rfl, rfl⟩ := Prod.mk.inj (Except.ok.inj h)
    exact Nat.le_refl _
  | succ n ih =>
    unfold readShortLengths at h
    split at h
    · simp at h
    · have := size_readNumber ‹_›
      split at h
      · simp at h
      · obtain ⟨rfl, rfl⟩ := Prod.mk.inj (Except.ok.inj h)
        have := ih ‹_›
        omega

theorem size_readCodes {codes : Codes} {s rest : BitStream} (h : readCodes s = .ok (codes, rest)) :
    rest.size ≤ s.size := by
  simp only [readCodes, bind_eq_ok, Prod.exists] at h
  obtain ⟨literals, s₁, h₁, distances, s₂, h₂, shorts, s₃, h₃, h⟩ := h
  have := size_readNumber h₁
  have := size_readNumber h₂
  have := size_readNumber h₃
  split at h
  · simp at h
  · simp only [bind_eq_ok, Prod.exists] at h
    obtain ⟨lengths, s₄, h₄, h⟩ := h
    have := size_readShortLengths h₄
    split at h
    · simp at h
    · simp only [bind_eq_ok, Prod.exists] at h
      obtain ⟨lengths, s₅, h₅, h⟩ := h
      have := size_readLengthsOnto h₅
      split at h
      · obtain ⟨rfl, rfl⟩ := Prod.mk.inj (Except.ok.inj h)
        omega
      · simp at h

theorem length_readStored {s bytes rest : Bytes} (h : readStored s = .ok (bytes, rest)) :
    rest.length ≤ s.length := by
  unfold readStored at h
  split at h
  · simp at h
  · have := Bytes.length_of_split? ‹_›
    dsimp only at h
    split at h
    · simp at h
    · split at h
      · simp at h
      · obtain rfl := Except.ok.inj h
        have := Bytes.length_of_split? ‹_›
        omega

theorem size_readBody {kind : Nat} {s rest : BitStream} {block : Block}
    (h : readBody kind s = .ok (block, rest)) : rest.size ≤ s.size := by
  unfold readBody at h
  split at h
  · obtain ⟨⟨bytes, tail⟩, h₁, h⟩ := map_eq_ok.1 h
    obtain ⟨rfl, rfl⟩ := Prod.mk.inj h
    have := length_readStored h₁
    have := s.size_aligned
    simp only [BitStream.ofBytes, BitStream.size, List.length_nil] at *
    omega
  · obtain ⟨⟨tokens, s₁⟩, h₁, h⟩ := map_eq_ok.1 h
    obtain ⟨rfl, rfl⟩ := Prod.mk.inj h
    exact Nat.le_of_lt (size_readTokensOnto_lt h₁)
  · obtain ⟨⟨codes, s₁⟩, h₁, h⟩ := bind_eq_ok.1 h
    obtain ⟨⟨tokens, s₂⟩, h₂, h⟩ := map_eq_ok.1 h
    obtain ⟨rfl, rfl⟩ := Prod.mk.inj h
    have := size_readCodes h₁
    have := size_readTokensOnto_lt h₂
    omega
  · simp at h

theorem size_readBlock_lt {last : Bool} {block : Block} {s rest : BitStream}
    (h : readBlock s = .ok ((last, block), rest)) : rest.size < s.size := by
  unfold readBlock at h
  split at h
  · simp at h
  · have := size_readNumber ‹_›
    split at h
    · simp at h
    · have := size_readNumber ‹_›
      split at h
      · simp at h
      · obtain ⟨-, rfl⟩ := Prod.mk.inj (Except.ok.inj h)
        have := size_readBody ‹_›
        omega

/-- Reads blocks onto `read`, which is kept reversed, up to the one marked as the last. -/
def readBlocksOnto (read : List Block) (s : BitStream) : Except Fault (List Block × BitStream) :=
  match _h : readBlock s with
  | .error e => .error e
  | .ok ((true, block), rest) => .ok ((block :: read).reverse, rest)
  | .ok ((false, block), rest) => readBlocksOnto (block :: read) rest
termination_by s.size
decreasing_by exact size_readBlock_lt ‹_›

/-- The blocks of the stream that a byte string begins with, and the bytes behind the stream. -/
def blocks (s : Bytes) : Except Fault (List Block × Bytes) :=
  match readBlocksOnto [] (.ofBytes s) with
  | .error e => .error e
  | .ok (blocks, rest) => .ok (blocks, rest.aligned)

/-- The output after one block. -/
def Block.run (output : Array UInt8) : Block → Array UInt8
  | stored bytes => output ++ bytes
  | coded tokens => Token.expand output tokens

/-- The bytes that a list of blocks stands for. -/
def content (blocks : List Block) : Bytes :=
  (blocks.foldl Block.run #[]).toList

theorem size_readBlocksOnto_lt {read blocks : List Block} {s rest : BitStream}
    (h : readBlocksOnto read s = .ok (blocks, rest)) : rest.size < s.size := by
  fun_induction readBlocksOnto read s with
  | case1 => simp at h
  | case2 read s block rest hread =>
    obtain ⟨rfl, rfl⟩ := Prod.mk.inj (Except.ok.inj h)
    exact size_readBlock_lt hread
  | case3 read s block rest hread ih =>
    have := size_readBlock_lt hread
    have := ih h
    omega

theorem length_of_blocks {s rest : Bytes} {bs : List Block} (h : blocks s = .ok (bs, rest)) :
    rest.length < s.length := by
  unfold blocks at h
  split at h
  · simp at h
  · obtain ⟨rfl, rfl⟩ := Prod.mk.inj (Except.ok.inj h)
    have h₁ := size_readBlocksOnto_lt ‹_›
    simp only [BitStream.ofBytes, BitStream.size, BitStream.aligned, List.length_nil] at h₁ ⊢
    omega

end Intake.Deflate
