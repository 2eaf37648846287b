import Intake.Bytes

/-!
# XXH64

The 64-bit hash that Zstandard frames carry, with seed zero. The message is cut into stripes of
thirty-two bytes, each of which advances four accumulators by one word. What is left after the last
stripe is taken in words of eight bytes, then at most one of four, then single bytes.
-/

set_option autoImplicit false
set_option relaxedAutoImplicit false

namespace Intake.XxHash64

def prime1 : UInt64 := 0x9E3779B185EBCA87
def prime2 : UInt64 := 0xC2B2AE3D27D4EB4F
def prime3 : UInt64 := 0x165667B19E3779F9
def prime4 : UInt64 := 0x85EBCA77C2B2AE63
def prime5 : UInt64 := 0x27D4EB2F165667C5

def rotateLeft (x : UInt64) (n : UInt64) : UInt64 :=
  x <<< n ||| x >>> (64 - n)

/-- An accumulator after one word. -/
def round (accumulator word : UInt64) : UInt64 :=
  rotateLeft (accumulator + word * prime2) 31 * prime1

/-- The four accumulators. -/
structure Lanes where
  first : UInt64
  second : UInt64
  third : UInt64
  fourth : UInt64

def Lanes.initial : Lanes :=
  ⟨prime1 + prime2, prime2, 0, 0 - prime1⟩

def wordAt (s : Bytes) (n : Nat) : UInt64 :=
  (Bytes.littleEndian ((s.drop n).take 8)).toUInt64

/-- The accumulators after one stripe. -/
def Lanes.stripe (lanes : Lanes) (s : Bytes) : Lanes where
  first := round lanes.first (wordAt s 0)
  second := round lanes.second (wordAt s 8)
  third := round lanes.third (wordAt s 16)
  fourth := round lanes.fourth (wordAt s 24)

/-- The accumulators after all whole stripes, and the bytes behind them. -/
def Lanes.absorb (lanes : Lanes) (s : Bytes) : Lanes × Bytes :=
  match _h : Bytes.split? 32 s with
  | some (stripe, rest) => (lanes.stripe stripe).absorb rest
  | none => (lanes, s)
termination_by s.length
decreasing_by
  have := Bytes.length_of_split? ‹_›
  omega

def mergeLane (hash lane : UInt64) : UInt64 :=
  (hash ^^^ round 0 lane) * prime1 + prime4

/-- The hash that the accumulators of at least one stripe give. -/
def Lanes.merged (lanes : Lanes) : UInt64 :=
  let hash := rotateLeft lanes.first 1 + rotateLeft lanes.second 7 + rotateLeft lanes.third 12 +
    rotateLeft lanes.fourth 18
  [lanes.first, lanes.second, lanes.third, lanes.fourth].foldl mergeLane hash

def mixByte (hash : UInt64) (byte : UInt8) : UInt64 :=
  rotateLeft (hash ^^^ byte.toUInt64 * prime5) 11 * prime1

/-- The hash after the at most thirty-one bytes behind the last stripe. -/
def mixTail (hash : UInt64) (s : Bytes) : UInt64 :=
  match _h : Bytes.split? 8 s with
  | some (word, rest) =>
    let word := round 0 (Bytes.littleEndian word).toUInt64
    mixTail (rotateLeft (hash ^^^ word) 27 * prime1 + prime4) rest
  | none =>
    match Bytes.split? 4 s with
    | some (word, rest) =>
      let word := (Bytes.littleEndian word).toUInt64
      rest.foldl mixByte (rotateLeft (hash ^^^ word * prime1) 23 * prime2 + prime3)
    | none => s.foldl mixByte hash
termination_by s.length
decreasing_by
  have := Bytes.length_of_split? ‹_›
  omega

def avalanche (hash : UInt64) : UInt64 :=
  let hash := (hash ^^^ hash >>> 33) * prime2
  let hash := (hash ^^^ hash >>> 29) * prime3
  hash ^^^ hash >>> 32

/-- The hash of a byte string. -/
def hash (s : Bytes) : UInt64 :=
  let (lanes, rest) := Lanes.initial.absorb s
  let start := if s.length < 32 then prime5 else lanes.merged
  avalanche (mixTail (start + s.length.toUInt64) rest)

end Intake.XxHash64
