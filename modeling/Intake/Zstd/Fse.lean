import Intake.Bits

/-!
# Finite state entropy

A distribution gives each symbol a share of 2ⁿ states; a share of −1 stands for a single state that
is kept apart, at the end of the table. `Table.ofDistribution` spreads the symbols over the states
and gives every state the bits and the base from which the next state is read. `readDistribution`
reads the compressed form of a distribution off the front of a byte string.
-/

set_option autoImplicit false
set_option relaxedAutoImplicit false

namespace Intake.Zstd

/-- The shares of the symbols from zero on, of `2 ^ log` states. -/
structure Distribution where
  log : Nat
  shares : List Int

/-- A state: its symbol, and how the state after it is read. -/
structure Cell where
  symbol : Nat
  bits : Nat
  base : Nat
  deriving DecidableEq, Inhabited

structure Table where
  log : Nat
  cells : Array Cell
  deriving DecidableEq

namespace Table

/-- The symbols with a share of −1. -/
def rareSymbols (shares : List Int) : List Nat :=
  (shares.zipIdx.filter (·.1 = -1)).map (·.2)

/-- Every symbol as often as its share says. -/
def commonSymbols (shares : List Int) : List Nat :=
  shares.zipIdx.flatMap fun (share, symbol) ↦ List.replicate share.toNat symbol

/-- The states of the common symbols in the order in which they are given out. -/
def spreadOrder (log rare : Nat) : List Nat :=
  let size := 2 ^ log
  let step := size / 2 + size / 8 + 3
  ((List.range size).map fun n ↦ n * step % size).filter (· < size - rare)

/-- The symbol of every state. -/
def spread (d : Distribution) : Array Nat :=
  let rare := rareSymbols d.shares
  let places := spreadOrder d.log rare.length ++
    (List.range rare.length).map fun n ↦ 2 ^ d.log - 1 - n
  (places.zip (commonSymbols d.shares ++ rare)).foldl
    (fun table (place, symbol) ↦ table.setIfInBounds place symbol) (Array.replicate (2 ^ d.log) 0)

/-- The cells of the states with the given symbols. Of the states of one symbol the next one to be
met has the number that `counters` holds for the symbol. -/
def cellsOnto (log : Nat) (cells : Array Cell) (counters : Array Nat) : List Nat → Array Cell
  | [] => cells
  | symbol :: symbols =>
    let n := counters.getD symbol 1
    let bits := log - Nat.log2 n
    cellsOnto log (cells.push ⟨symbol, bits, n * 2 ^ bits - 2 ^ log⟩)
      (counters.setIfInBounds symbol (n + 1)) symbols

def ofDistribution (d : Distribution) : Table where
  log := d.log
  cells := cellsOnto d.log #[] (d.shares.map Int.natAbs).toArray (spread d).toList

/-- The table whose only state has this symbol. -/
def single (symbol : Nat) : Table where
  log := 0
  cells := #[⟨symbol, 0, 0⟩]

def cell (t : Table) (state : Nat) : Cell :=
  t.cells.getD state default

/-- The first state. -/
def start? (t : Table) (bits : BackwardBits) : Option (Nat × BackwardBits) :=
  bits.number? t.log

/-- The state after `state`. -/
def next? (t : Table) (state : Nat) (bits : BackwardBits) : Option (Nat × BackwardBits) :=
  let cell := t.cell state
  (bits.number? cell.bits).map fun (n, bits) ↦ (cell.base + n, bits)

end Table

/-- A run of zero shares: two bits at a time, where three means that the run goes on. -/
def readZeros (s : BitStream) : Option (Nat × BitStream) :=
  match _h : s.number? 2 with
  | none => none
  | some (n, rest) =>
    if n = 3 then (readZeros rest).map fun (more, rest) ↦ (3 + more, rest) else some (n, rest)
termination_by s.size
decreasing_by
  have := BitStream.size_number? ‹_›
  omega

/-- A share, where `remaining` states and one more are still to be given out. The smaller values
take one bit less. -/
def readShare (remaining : Nat) (s : BitStream) : Option (Int × BitStream) := do
  let bits := Nat.log2 remaining
  let short := 2 * 2 ^ bits - 1 - remaining
  let (low, s) ← s.number? bits
  if low < short then return ((low : Int) - 1, s)
  else
    let (high, s) ← s.number? 1
    let n := low + high * 2 ^ bits
    return ((if 2 ^ bits ≤ n then n - short else n : Nat) - 1, s)

/-- Shares until all states are given out, for at most `room` symbols. -/
def readShares (room remaining : Nat) (s : BitStream) : Option (List Int × BitStream) :=
  if remaining ≤ 1 then some ([], s)
  else
    match room with
    | 0 => none
    | room + 1 =>
      match readShare remaining s with
      | none => none
      | some (share, s) =>
        if share = 0 then
          match readZeros s with
          | none => none
          | some (zeros, s) =>
            (readShares (room - zeros) remaining s).map fun (shares, s) ↦
              (0 :: (List.replicate zeros 0 ++ shares), s)
        else
          (readShares room (remaining - share.natAbs) s).map fun (shares, s) ↦ (share :: shares, s)
termination_by room

/-- A distribution for at most `symbols` symbols, and the bytes behind it. -/
def readDistribution (symbols : Nat) (s : Bytes) : Option (Distribution × Bytes) := do
  let (log, s) ← (BitStream.ofBytes s).number? 4
  let log := log + 5
  if 15 < log then none
  else
    let (shares, s) ← readShares symbols (2 ^ log + 1) s
    return (⟨log, shares⟩, s.aligned)

end Intake.Zstd
