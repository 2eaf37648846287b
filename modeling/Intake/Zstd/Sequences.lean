import Intake.Backreference
import Intake.Zstd.Literals

/-!
# Sequences of a Zstandard block

Behind its literals a block has sequences. A sequence copies some literals, then some earlier
output. Its three numbers are codes with extra bits, each code the symbol of a state machine, and
the distance of the copy may be one of the last three. Sequences are carried out as they are read,
so a fault is the first one met on the way.
-/

set_option autoImplicit false
set_option relaxedAutoImplicit false

namespace Intake.Zstd

variable [Release]

/-- The base and the number of extra bits of each literal length code. -/
def literalLengthBases : Array (Nat × Nat) := #[
  (0, 0), (1, 0), (2, 0), (3, 0), (4, 0), (5, 0), (6, 0), (7, 0), (8, 0), (9, 0), (10, 0), (11, 0),
  (12, 0), (13, 0), (14, 0), (15, 0), (16, 1), (18, 1), (20, 1), (22, 1), (24, 2), (28, 2), (32, 3),
  (40, 3), (48, 4), (64, 6), (128, 7), (256, 8), (512, 9), (1024, 10), (2048, 11), (4096, 12),
  (8192, 13), (16384, 14), (32768, 15), (65536, 16)]

/-- The base and the number of extra bits of each match length code. -/
def matchLengthBases : Array (Nat × Nat) := #[
  (3, 0), (4, 0), (5, 0), (6, 0), (7, 0), (8, 0), (9, 0), (10, 0), (11, 0), (12, 0), (13, 0),
  (14, 0), (15, 0), (16, 0), (17, 0), (18, 0), (19, 0), (20, 0), (21, 0), (22, 0), (23, 0), (24, 0),
  (25, 0), (26, 0), (27, 0), (28, 0), (29, 0), (30, 0), (31, 0), (32, 0), (33, 0), (34, 0), (35, 1),
  (37, 1), (39, 1), (41, 1), (43, 2), (47, 2), (51, 3), (59, 3), (67, 4), (83, 4), (99, 5),
  (131, 7), (259, 8), (515, 9), (1027, 10), (2051, 11), (4099, 12), (8195, 13), (16387, 14),
  (32771, 15), (65539, 16)]

def literalLengthDefault : Distribution where
  log := 6
  shares := [4, 3, 2, 2, 2, 2, 2, 2, 2, 2, 2, 2, 2, 1, 1, 1, 2, 2, 2, 2, 2, 2, 2, 2, 2, 3, 2, 1, 1,
    1, 1, 1, -1, -1, -1, -1]

def matchLengthDefault : Distribution where
  log := 6
  shares := [1, 4, 3, 2, 2, 2, 2, 2, 2, 1, 1, 1, 1, 1, 1, 1, 1, 1, 1, 1, 1, 1, 1, 1, 1, 1, 1, 1, 1,
    1, 1, 1, 1, 1, 1, 1, 1, 1, 1, 1, 1, 1, 1, 1, 1, 1, -1, -1, -1, -1, -1, -1, -1]

def offsetDefault : Distribution where
  log := 5
  shares := [1, 1, 1, 1, 1, 1, 2, 2, 2, 1, 1, 1, 1, 1, 1, 1, 1, 1, 1, 1, 1, 1, 1, 1, -1, -1, -1, -1,
    -1]

/-- What can be said of one of the three kinds of codes in advance. -/
structure CodeKind where
  /-- How many codes there are. -/
  symbols : Nat
  /-- The largest table has two to this many states. -/
  longest : Nat
  initial : Distribution

def literalLengthKind : CodeKind := ⟨36, 9, literalLengthDefault⟩
def offsetKind : CodeKind := ⟨32, 8, offsetDefault⟩
def matchLengthKind : CodeKind := ⟨53, 9, matchLengthDefault⟩

/-- The tables of the three kinds of codes. -/
structure Tables where
  literalLengths : Table
  offsets : Table
  matchLengths : Table
  deriving DecidableEq

/-- The table that a block uses for a kind of codes: the usual one, that of a single code, one that
it describes, or the one of an earlier block. -/
def readTable (kind : CodeKind) (mode : Nat) (earlier : Option Table) (s : Bytes) :
    Except Fault (Table × Bytes) :=
  match mode with
  | 0 => .ok (.ofDistribution kind.initial, s)
  | 1 =>
    match s with
    | [] => .error .corrupted
    | symbol :: s => if symbol.toNat < kind.symbols then .ok (.single symbol.toNat, s)
      else .error .corrupted
  | 2 =>
    match readDistribution kind.symbols s with
    | none => .error .corrupted
    | some (d, s) =>
      if kind.longest < d.log then .error .corrupted else .ok (.ofDistribution d, s)
  | _ =>
    match earlier with
    | some table => .ok (table, s)
    | none => .error .corrupted

/-- The number of sequences, or nothing where the block ends with its literals. In the earlier
releases only a number in one byte ends the block, and behind a zero in two bytes there are
tables. -/
def readCount (s : Bytes) : Except Fault (Option Nat × Bytes) :=
  match s with
  | [] => .error .wrongSize
  | first :: s =>
    if first = 0 then .ok (none, s)
    else if first < 128 then .ok (some first.toNat, s)
    else if first < 255 then
      match s with
      | [] => .error .wrongSize
      | second :: s =>
        let n := (first.toNat - 128) * 256 + second.toNat
        .ok (if n = 0 ∧ Release.strict then none else some n, s)
    else
      match Bytes.split? 2 s with
      | none => .error .wrongSize
      | some (n, s) => .ok (some (Bytes.littleEndian n + 0x7F00), s)

/-- The tables of a block that has sequences. -/
def readTables (earlier : Option Tables) (s : Bytes) : Except Fault (Tables × Bytes) :=
  match s with
  | [] => .error .wrongSize
  | modes :: s => do
    let modes := modes.toNat
    if Release.strict ∧ modes % 4 ≠ 0 then .error .corrupted
    else
      let (literalLengths, s) ←
        readTable literalLengthKind (modes / 64) (earlier.map (·.literalLengths)) s
      let (offsets, s) ← readTable offsetKind (modes / 16 % 4) (earlier.map (·.offsets)) s
      let (matchLengths, s) ←
        readTable matchLengthKind (modes / 4 % 4) (earlier.map (·.matchLengths)) s
      return (⟨literalLengths, offsets, matchLengths⟩, s)

/-- The last three distances, the latest one first. -/
structure Recent where
  first : Nat
  second : Nat
  third : Nat
  deriving DecidableEq

def Recent.initial : Recent := ⟨1, 4, 8⟩

/-- The distance that an offset value names, and the last three afterwards. The values up to three
name recent distances, counted from the second one if no literals come before the copy, and then
the last of them is one less than the latest distance. The later releases refuse a copy of distance
zero, and the earlier ones make it one of distance one. -/
def Recent.resolve (recent : Recent) (value : Nat) (noLiterals : Bool) : Nat × Recent :=
  if 3 < value then (value - 3, ⟨value - 3, recent.first, recent.second⟩)
  else
    match if noLiterals then value + 1 else value with
    | 1 => (recent.first, recent)
    | 2 => (recent.second, ⟨recent.second, recent.first, recent.third⟩)
    | 3 => (recent.third, ⟨recent.third, recent.first, recent.second⟩)
    | _ =>
      let distance := max (recent.first - 1) (if Release.strict then 0 else 1)
      (distance, ⟨distance, recent.first, recent.second⟩)

/-- The states of the three machines. -/
structure States where
  literalLength : Nat
  offset : Nat
  matchLength : Nat
  deriving DecidableEq

def States.start (t : Tables) (bits : BlockBits) : States × BlockBits :=
  let (literalLength, bits) := bits.state t.literalLengths.log
  let (offset, bits) := bits.state t.offsets.log
  let (matchLength, bits) := bits.state t.matchLengths.log
  (⟨literalLength, offset, matchLength⟩, bits)

/-- The state of a machine after the one of this cell. -/
def Cell.next (cell : Cell) (bits : BlockBits) : Nat × BlockBits :=
  let (n, bits) := bits.state cell.bits
  (cell.base + n, bits)

def States.next (t : Tables) (states : States) (bits : BlockBits) : States × BlockBits :=
  let (literalLength, bits) := (t.literalLengths.cell states.literalLength).next bits
  let (matchLength, bits) := (t.matchLengths.cell states.matchLength).next bits
  let (offset, bits) := (t.offsets.cell states.offset).next bits
  (⟨literalLength, offset, matchLength⟩, bits)

/-- A copy of literals, then a copy of earlier output. -/
structure Sequence where
  literals : Nat
  length : Nat
  distance : Nat
  deriving DecidableEq

/-- The sequence that the machines stand at. -/
def readSequence (t : Tables) (states : States) (recent : Recent) (bits : BlockBits) :
    Sequence × Recent × BlockBits :=
  let offset := (t.offsets.cell states.offset).symbol
  let (lengthBase, lengthBits) :=
    matchLengthBases.getD (t.matchLengths.cell states.matchLength).symbol (0, 0)
  let (literalBase, literalBits) :=
    literalLengthBases.getD (t.literalLengths.cell states.literalLength).symbol (0, 0)
  let (n, bits) := bits.extra offset
  let (length, bits) := bits.extra lengthBits
  let (literals, bits) := bits.extra literalBits
  let (distance, recent) := recent.resolve (2 ^ offset + n) (literalBase = 0)
  (⟨literalBase + literals, lengthBase + length, distance⟩, recent, bits)

/-- A block that is being written: the content of the frame so far, where the block begins in it, up
to where the decoder may have written, what copies may reach, and the literals that are left. -/
structure Writing where
  output : Array UInt8
  start : Nat
  written : Nat
  history : History
  literals : Bytes

namespace Writing

/-- A block that is being written from its beginning on. The decoder may write 64 bytes further than
the block may be. -/
def initial (limits : Limits) (history : History) (output : Array UInt8) (literals : Bytes) :
    Writing :=
  ⟨output, output.size, output.size + limits.block + 64, history, literals⟩

/-- The first `n` literals put behind the output, if there are as many. -/
def literals? : Nat → Writing → Option Writing
  | 0, w => some w
  | n + 1, w =>
    match w.literals with
    | [] => none
    | b :: literals => literals? n { w with output := w.output.push b, literals }

/-- How many of `length` bytes from `source` on may have been written over. -/
def overwritten (w : Writing) (source length : Nat) : Nat :=
  min (min length (w.history.turn - source))
    (w.written - w.history.turn - (source - w.history.earliest))

/-- The output behind a copy. In place of bytes that may have been written over there are those that
are found there. -/
def copied (w : Writing) (distance length : Nat) : Array UInt8 :=
  let source := w.output.size - distance
  let n := w.overwritten source length
  let instead := (List.range' source n).map (Release.found w.history w.output)
  copyBack distance (length - n) (w.output ++ instead)

/-- The block after one sequence, where `room` is how much it may have. -/
def run (room : Nat) (w : Writing) (sequence : Sequence) : Except Fault Writing :=
  if room < w.output.size - w.start + (sequence.literals + sequence.length) then .error .noRoom
  else
    match w.literals? sequence.literals with
    | none => .error .corrupted
    | some w =>
      if sequence.distance = 0 ∨ w.output.size - w.history.earliest < sequence.distance then
        .error .corrupted
      else .ok { w with output := w.copied sequence.distance sequence.length }

/-- The block after its remaining literals. -/
def finish (room : Nat) (w : Writing) : Except Fault (Array UInt8) :=
  if room < w.output.size - w.start + w.literals.length then .error .noRoom
  else .ok (w.output ++ w.literals)

end Writing

/-- Whether the bits end as they have to, given those behind the last sequence, and those behind
them when the machines have gone on. In the later releases they have to end with the sequence, and
in the earlier ones no bit may be left when the machines have gone on. -/
def endsRight (bits behind : BlockBits) : Bool :=
  if Release.strict then bits.isAtEnd else behind.isUsedUp

/-- Carries out `count` sequences and one more. Behind each of them the machines go on. -/
def runSequences (t : Tables) (room : Nat) :
    (count : Nat) → States → Recent → BlockBits → Writing → Except Fault (Writing × Recent)
  | count, states, recent, bits, w =>
    let (sequence, recent, bits) := readSequence t states recent bits
    match w.run room sequence with
    | .error e => .error e
    | .ok w =>
      let (states, behind) := states.next t bits
      match count with
      | 0 => if endsRight bits behind then .ok (w, recent) else .error .corrupted
      | count + 1 => runSequences t room count states recent behind w

/-- What a frame carries from block to block. -/
structure Memory where
  code : Option LiteralCode
  tables : Option Tables
  recent : Recent

def Memory.initial : Memory := ⟨none, none, .initial⟩

/-- What a frame carries on behind a block without sequences, where there are tables nevertheless.
They replace earlier ones. -/
def Memory.withTables (memory : Memory) (tables : Tables) : Memory :=
  { memory with tables := memory.tables.map fun _ ↦ tables }

/-- The content of a frame after a compressed block. -/
def runCompressed (limits : Limits) (history : History) (memory : Memory) (output : Array UInt8)
    (s : Bytes) : Except Fault (Array UInt8 × Memory) := do
  let literals ← readLiterals limits memory.code s
  let w := Writing.initial limits history output literals.bytes
  let memory := { memory with code := literals.code }
  let (count, s) ← readCount literals.rest
  match count with
  | none =>
    if s.isEmpty then
      let output ← w.finish literals.room
      return (output, memory)
    else .error (if Release.strict then .corrupted else .wrongSize)
  | some 0 =>
    let (tables, _) ← readTables memory.tables s
    let output ← w.finish literals.room
    return (output, memory.withTables tables)
  | some (count + 1) =>
    let (tables, s) ← readTables memory.tables s
    if limits.room = 0 then .error .noRoom
    else
      match BlockBits.ofBytes? s with
      | none => .error .corrupted
      | some bits =>
        let (states, bits) := States.start tables bits
        let (w, recent) ← runSequences tables literals.room count states memory.recent bits w
        let output ← w.finish literals.room
        return (output, ⟨literals.code, some tables, recent⟩)

end Intake.Zstd
