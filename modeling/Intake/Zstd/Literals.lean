import Intake.PrefixCode
import Intake.Zstd.BlockBits
import Intake.Zstd.Fault
import Intake.Zstd.Fse
import Intake.Zstd.Header

/-!
# Literals of a Zstandard block

A block begins with its literals: as they are, as one repeated byte, or coded with a prefix code
that the block describes or takes over from an earlier block. The description gives each symbol a
weight, and the words are assigned from the smallest weight, which has the longest words, upwards.

Coded literals are read backwards, in one stream or in four, one or two symbols at a look. A stream
that is read by itself has to end where its bits do. Four streams that are long enough are read side
by side, and then nothing is asked of their ends: what is left of a stream is ignored, and a stream
that is too short goes on in the one in front of it.
-/

set_option autoImplicit false
set_option relaxedAutoImplicit false

namespace Intake.Zstd

variable [Release]

/-- The longest word of a literal code. -/
def longestWord : Nat := 12

/-- The weights of a list, in units of a longest word. -/
def totalWeight (weights : List Nat) : Nat :=
  (weights.map fun weight ↦ 2 ^ weight / 2).sum

/-- The weights with the last one, which is the rest to the next power of two. There have to be
two longest words or more, and an even number of them. -/
def completeWeights? (weights : List Nat) : Option (Nat × List Nat) :=
  let total := totalWeight weights
  let log := Nat.log2 total + 1
  let rest := 2 ^ log - total
  let all := weights ++ [Nat.log2 rest + 1]
  let longest := all.count 1
  if weights.all (· ≤ longestWord) ∧ total ≠ 0 ∧ log ≤ longestWord ∧ 2 ^ Nat.log2 rest = rest ∧
      2 ≤ longest ∧ longest % 2 = 0 then
    some (log, all)
  else none

/-- The code in which a symbol of weight `w` has a word of `log + 1 - w` bits. -/
def codeOfWeights (log : Nat) (weights : List Nat) : PrefixCode UInt8 :=
  let words := (List.range' 1 log).flatMap fun weight ↦
    (weights.zipIdx.filter (·.1 = weight)).map fun (_, symbol) ↦
      (log + 1 - weight, symbol.toUInt8)
  .ofWords log words

/-- Weights written as one state machine after the other, two of them in turn, until the bits give
out. At most `room` weights may be written, and the last two steps need room for both machines. -/
def alternateWeights (t : Table) :
    (room state other : Nat) → BackwardBits → Option (List Nat)
  | 0, _, _, _ | 1, _, _, _ => none
  | room + 2, state, other, bits =>
    let weight := (t.cell state).symbol
    match t.next? state bits with
    | none => some [weight, (t.cell other).symbol]
    | some (state, bits) => (alternateWeights t (room + 1) other state bits).map (weight :: ·)

/-- Weights that are compressed with a distribution of their own. -/
def packedWeights? (s : Bytes) : Option (List Nat) := do
  let (d, s) ← readDistribution 256 s
  if 6 < d.log then none
  else
    let t := Table.ofDistribution d
    let bits ← BackwardBits.ofBytes? s
    let (state, bits) ← t.start? bits
    let (other, bits) ← t.start? bits
    alternateWeights t 255 state other bits

/-- Weights of four bits each, the first one in the high half of the first byte. -/
def plainWeights (count : Nat) (s : Bytes) : List Nat :=
  (s.flatMap fun b ↦ [b.toNat / 16, b.toNat % 16]).take count

/-- The code that a description stands for, the length of its longest word, and the bytes behind the
description. -/
def readCode? : Bytes → Option (PrefixCode UInt8 × Nat × Bytes)
  | [] => none
  | size :: s => do
    let (weights, s) ←
      if 128 ≤ size then do
        let count := size.toNat - 127
        let (plain, s) ← Bytes.split? ((count + 1) / 2) s
        some (plainWeights count plain, s)
      else do
        let (packed, s) ← Bytes.split? size.toNat s
        let weights ← packedWeights? packed
        some (weights, s)
    let (log, weights) ← completeWeights? weights
    return (codeOfWeights log weights, log, s)

/-! ### Streams -/

/-- A code for literals and how it is looked up: at `width` bits, for one symbol, or for two where
the words of both are among these bits. -/
structure LiteralCode where
  words : PrefixCode UInt8
  width : Nat
  pairs : Bool

/-- The width of most codes. -/
def usualWidth : Nat := 11

/-- How long it takes to prepare a code and to read 256 literals with it, for one symbol at a look
and for two. The rows are for the size of coded literals in sixteenths of their size. -/
def lookTimes : Array ((Nat × Nat) × Nat × Nat) := #[
  ((0, 0), 1, 1), ((0, 0), 1, 1), ((150, 216), 381, 119), ((170, 205), 514, 112),
  ((177, 199), 539, 110), ((197, 194), 644, 107), ((221, 192), 735, 107), ((256, 189), 881, 106),
  ((359, 188), 1167, 109), ((582, 187), 1570, 114), ((688, 187), 1712, 122),
  ((825, 186), 1965, 136), ((976, 185), 2131, 150), ((1180, 186), 2070, 175),
  ((1377, 185), 1731, 202), ((1412, 185), 1695, 202)]

/-- Whether four streams are read with two symbols at a look. -/
def prefersPairs (size coded : Nat) : Bool :=
  let row := if size ≤ coded then 15 else coded * 16 / size
  let (once, twice) := lookTimes.getD row ((0, 0), 0, 0)
  let time (times : Nat × Nat) := times.1 + times.2 * (size / 256)
  time twice + time twice / 32 < time once

namespace LiteralCode

/-- What is found at the next bits: a symbol, maybe a second one, and how many bits their words
have. -/
def look (code : LiteralCode) (bits : BlockBits) : Option (UInt8 × Option UInt8 × Nat) :=
  match code.words.readBackward (bits.peek code.width) with
  | .error _ => none
  | .ok (first, rest) =>
    match if code.pairs then code.words.readBackward rest else .error .ended with
    | .error _ => some (first, none, code.width - rest.length)
    | .ok (second, rest) => some (first, some second, code.width - rest.length)

/-- `count` symbols onto the reversed list `read`, and the bits behind them. If two symbols are
found where only one is left to be read, the word of the second one is taken as far as it goes. -/
def symbolsOnto (code : LiteralCode) :
    (count : Nat) → (read : Bytes) → BlockBits → Option (Bytes × BlockBits)
  | 0, read, bits => some (read, bits)
  | 1, read, bits =>
    (code.look bits).map fun (first, second, n) ↦
      (first :: read, if second.isSome then bits.clip n else bits.skip n)
  | count + 2, read, bits =>
    match code.look bits with
    | none => none
    | some (first, none, n) => symbolsOnto code (count + 1) (first :: read) (bits.skip n)
    | some (first, some second, n) =>
      symbolsOnto code count (second :: first :: read) (bits.skip n)

/-- A stream of `count` symbols, which has to end where its bits do. -/
def oneStream (code : LiteralCode) (count : Nat) (s : Bytes) : Option Bytes := do
  let bits ← BlockBits.ofBytes? s
  let (read, bits) ← code.symbolsOnto count [] bits
  if bits.isAtEnd then some read.reverse else none

end LiteralCode

/-- How many bytes hold the sizes of the first three of four streams. -/
def sizesWidth : Nat := 6

/-- One of four streams that are read side by side. -/
structure Lane where
  /-- Where the stream begins. -/
  start : Nat
  /-- Where the eight bytes begin that are at hand. -/
  place : Nat
  /-- How many bits of them have been read. -/
  used : Nat
  bits : BlockBits
  /-- The symbols so far, the latest one first. -/
  read : Bytes
  /-- How many symbols are left to be read. -/
  left : Nat

namespace Lane

/-- The stream of `count` symbols that takes up the bytes of `s` from `start` to `stop`, where there
are sizes in front of the first stream. Without a mark in its last byte the stream begins with that
byte. If it has too few bits it goes on in front of where it begins, in the later releases up to the
first of the sizes. -/
def ofBytes (s : Bytes) (start stop count : Nat) : Lane :=
  let mark := (s.getD (stop - 1) 0).toNat
  let used := if mark = 0 then 0 else 8 - Nat.log2 mark
  let lowest := if Release.strict then 0 else sizesWidth
  let bits := (((s.take stop).drop lowest).flatMap fun byte ↦ lowBits 8 byte.toNat).reverse
  { start
    place := stop - 8
    used
    bits := ⟨bits.drop used, BlockBits.lastBits (s.drop lowest), false⟩
    read := []
    left := count }

/-- The stream after a look at its bits. -/
def look (code : LiteralCode) (lane : Lane) : Option Lane :=
  (code.look lane.bits).map fun (first, second, n) ↦
    { lane with
      used := lane.used + n
      bits := lane.bits.skip n
      read := second.toList ++ first :: lane.read
      left := lane.left - (1 + second.toList.length) }

/-- The stream after five looks, with other bytes at hand for those that have been read. -/
def round (code : LiteralCode) (lane : Lane) : Option Lane := do
  let lane ← lane.look code
  let lane ← lane.look code
  let lane ← lane.look code
  let lane ← lane.look code
  let lane ← lane.look code
  return { lane with place := lane.place - lane.used / 8, used := lane.used % 8 }

/-- The symbols of a stream. It must not have been read far beyond its beginning up to here. -/
def finish (code : LiteralCode) (lane : Lane) : Option Bytes :=
  if lane.place + 8 < lane.start then none
  else (code.symbolsOnto lane.left lane.read lane.bits).map (·.1.reverse)

end Lane

/-- Four streams that are read side by side. -/
structure Lanes where
  first : Lane
  second : Lane
  third : Lane
  fourth : Lane

namespace Lanes

def round (code : LiteralCode) (lanes : Lanes) : Option Lanes := do
  let first ← lanes.first.round code
  let second ← lanes.second.round code
  let third ← lanes.third.round code
  let fourth ← lanes.fourth.round code
  return ⟨first, second, third, fourth⟩

/-- At most `n` rounds, while more than `goal` symbols of the last stream are left. -/
def rounds (code : LiteralCode) (goal : Nat) : (n : Nat) → Lanes → Option Lanes
  | 0, lanes => some lanes
  | n + 1, lanes =>
    if lanes.fourth.left ≤ goal then some lanes
    else (lanes.round code).bind (rounds code goal n)

/-- How many rounds can be made without a look at what is left. -/
def safeRounds (code : LiteralCode) (lanes : Lanes) : Nat :=
  let bytes := (lanes.first.place - if Release.strict then 0 else sizesWidth + 8) / 7
  if code.pairs then
    min bytes (min (min lanes.first.left lanes.second.left)
      (min lanes.third.left lanes.fourth.left) / 10)
  else min bytes (lanes.fourth.left / 5)

/-- Whether a stream has been read further than the one in front of it. -/
def areCrossed (lanes : Lanes) : Bool :=
  lanes.second.place < lanes.first.place || lanes.third.place < lanes.second.place ||
    lanes.fourth.place < lanes.third.place

/-- How many rounds have to be safe for any to be made. -/
def fewestRounds (code : LiteralCode) : Nat :=
  if Release.strict then 1 else if code.pairs then 2 else 4

/-- The streams side by side as long as there is enough of all of them. -/
def run (code : LiteralCode) : (fuel : Nat) → Lanes → Option Lanes
  | 0, lanes => some lanes
  | fuel + 1, lanes =>
    let n := lanes.safeRounds code
    if n < fewestRounds code || lanes.areCrossed then some lanes
    else (lanes.rounds code (lanes.fourth.left - 5 * n) n).bind (run code fuel)

/-- The symbols of all streams. -/
def finish (code : LiteralCode) (lanes : Lanes) : Option Bytes := do
  let first ← lanes.first.finish code
  let second ← lanes.second.finish code
  let third ← lanes.third.finish code
  let fourth ← lanes.fourth.finish code
  return first ++ second ++ third ++ fourth

end Lanes

/-- Four streams, the first three of which have their sizes in front, and a quarter of the symbols
each, rounded up. -/
def fourStreams (code : LiteralCode) (count : Nat) (s : Bytes) : Option Bytes := do
  let quarter := (count + 3) / 4
  let last := count - 3 * quarter
  let (sizes, behind) ← Bytes.split? sizesWidth s
  let size₁ := Bytes.littleEndian (sizes.take 2)
  let size₂ := Bytes.littleEndian ((sizes.drop 2).take 2)
  let size₃ := Bytes.littleEndian (sizes.drop 4)
  let (first, behind) ← Bytes.split? size₁ behind
  let (second, behind) ← Bytes.split? size₂ behind
  let (third, fourth) ← Bytes.split? size₃ behind
  if count < 3 * quarter then none
  else if code.width = usualWidth ∧ (if Release.strict then 8 else 16) ≤ size₁ ∧ 8 ≤ size₂ ∧
      8 ≤ size₃ ∧ 8 ≤ fourth.length ∧ 0 < last then
    let stop₁ := sizesWidth + size₁
    let stop₂ := stop₁ + size₂
    let stop₃ := stop₂ + size₃
    let lanes : Lanes :=
      { first := .ofBytes s sizesWidth stop₁ quarter
        second := .ofBytes s stop₁ stop₂ quarter
        third := .ofBytes s stop₂ stop₃ quarter
        fourth := .ofBytes s stop₃ s.length last }
    (lanes.run code count).bind (·.finish code)
  else
    let first ← code.oneStream quarter first
    let second ← code.oneStream quarter second
    let third ← code.oneStream quarter third
    let fourth ← code.oneStream last fourth
    return first ++ second ++ third ++ fourth

/-! ### Literals -/

/-- What the content of a compressed block has to keep to. -/
structure Limits where
  /-- How many literals a block of the frame may have. -/
  block : Nat
  /-- For how much content there is room. -/
  room : Nat
  /-- Whether the frame is decoded in one pass. -/
  onePass : Bool

/-- The room for the content of a block, given how many literals are set aside. In one pass they are
put thirty-two bytes behind the largest content of a block if there is room, and the content has to
end in front of them. -/
def Limits.roomBeside (limits : Limits) (literals : Nat) : Nat :=
  if limits.onePass ∧ limits.block + literals + 64 < limits.room then limits.block + 32
  else limits.room

/-- The literals of a block. -/
structure Literals where
  bytes : Bytes
  /-- The room that they leave for the content of the block. -/
  room : Nat
  /-- The code for literals that a later block may take over. -/
  code : Option LiteralCode
  /-- The bytes of the block behind the literals. -/
  rest : Bytes

/-- The size of literals that are not coded, which has five, twelve or twenty bits, and the size of
its header. -/
def plainSize (s : Bytes) : Nat × Nat :=
  let n := Bytes.littleEndian (s.take 3)
  match n / 4 % 4 with
  | 1 => (n % 2 ^ 16 / 16, 2)
  | 3 => (n / 16, 3)
  | _ => (n % 2 ^ 8 / 8, 1)

/-- Literals as they are. They are set aside only near the end of a block. -/
def rawLiterals (limits : Limits) (code : Option LiteralCode) (s : Bytes) :
    Except Fault Literals :=
  let (size, header) := plainSize s
  if s.length < header then .error .corrupted
  else if limits.block < size then .error (if Release.strict then .corrupted else .noRoom)
  else if limits.room < size then .error .noRoom
  else
    match Bytes.split? size (s.drop header) with
    | none => .error .corrupted
    | some (bytes, rest) =>
      let room := if 32 ≤ rest.length then limits.room else limits.roomBeside size
      .ok ⟨bytes, room, code, rest⟩

/-- Literals that are one byte. -/
def repeatedLiterals (limits : Limits) (code : Option LiteralCode) (s : Bytes) :
    Except Fault Literals :=
  let (size, header) := plainSize s
  match s.drop header with
  | [] => .error .corrupted
  | byte :: rest =>
    if limits.block < size then .error .corrupted
    else if limits.room < size then .error .noRoom
    else .ok ⟨List.replicate size byte, limits.roomBeside size, code, rest⟩

/-- The sizes of coded literals before and after coding, and the size of their header. -/
def codedSizes (s : Bytes) : Nat × Nat × Nat :=
  let n := Bytes.littleEndian (s.take 5)
  match n / 4 % 4 with
  | 2 => (n / 2 ^ 4 % 2 ^ 14, n / 2 ^ 18 % 2 ^ 14, 4)
  | 3 => (n / 2 ^ 4 % 2 ^ 18, n / 2 ^ 22 % 2 ^ 18, 5)
  | _ => (n / 2 ^ 4 % 2 ^ 10, n / 2 ^ 14 % 2 ^ 10, 3)

/-- The code that is described in front of literals, and what is behind the description. -/
def describedCode? (single : Bool) (size : Nat) (payload : Bytes) : Option (LiteralCode × Bytes) :=
  (readCode? payload).map fun (words, log, s) ↦
    (⟨words, max log usualWidth, !single && prefersPairs size payload.length⟩, s)

/-- Coded literals, with the given code or else with one that is described in front of them. -/
def codedLiterals (limits : Limits) (code : Option LiteralCode) (s : Bytes) :
    Except Fault Literals :=
  let (size, coded, header) := codedSizes s
  let single := Bytes.littleEndian (s.take 1) / 4 % 4 = 0
  if s.length < 5 ∨ limits.block < size then .error .corrupted
  else if ¬ single ∧ size < 6 then .error .tooFewLiterals
  else
    match Bytes.split? coded (s.drop header) with
    | none => .error .corrupted
    | some (payload, rest) =>
      if limits.room < size then .error .noRoom
      else
        match code.map (·, payload) <|> describedCode? single size payload with
        | none => .error .corrupted
        | some (code, payload) =>
          match if single then code.oneStream size payload else fourStreams code size payload with
          | none => .error .corrupted
          | some bytes => .ok ⟨bytes, limits.roomBeside size, some code, rest⟩

/-- The literals that a block begins with, where `code` is the one of an earlier block. -/
def readLiterals (limits : Limits) (code : Option LiteralCode) (s : Bytes) :
    Except Fault Literals :=
  if s.length < 2 then .error .corrupted
  else
    match Bytes.littleEndian (s.take 1) % 4, code with
    | 0, code => rawLiterals limits code s
    | 1, code => repeatedLiterals limits code s
    | 2, _ => codedLiterals limits none s
    | _, some code => codedLiterals limits (some code) s
    | _, none => .error .noEarlierCode

end Intake.Zstd
