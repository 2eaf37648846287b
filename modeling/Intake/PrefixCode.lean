import Intake.Bits

/-!
# Prefix codes

A code is a pair of binary trees, one for each value of the first bit of a word, whose leaves are
the symbols. `leftmost` builds the tree in which the symbols stand from left to right in a given
order at given depths. In the canonical code of a list of lengths shorter words come before longer
ones, and words of one length stand in the order of their symbols; its lengths fit a complete tree
exactly when their weights add up to one (`kraftSum`).
-/

set_option autoImplicit false
set_option relaxedAutoImplicit false

namespace Intake

/-- A tree of code words. No word leads through a vacant place. -/
inductive CodeTree (α : Type)
  | vacant
  | leaf (symbol : α)
  | fork (zero one : CodeTree α)

/-- A code. A word has at least one bit. -/
structure PrefixCode (α : Type) where
  zero : CodeTree α
  one : CodeTree α

/-- Why no symbol could be read. -/
inductive NoSymbol
  /-- The stream ended inside a word. -/
  | ended
  /-- The bits begin no word. -/
  | unassigned
  deriving DecidableEq, Repr

namespace CodeTree

variable {α : Type}

/-- The symbol at the end of the path that the stream takes through the tree. -/
def read : CodeTree α → BitStream → Except NoSymbol (α × BitStream)
  | leaf symbol, s => .ok (symbol, s)
  | vacant, _ => .error .unassigned
  | fork zero one, s =>
    match s.next? with
    | none => .error .ended
    | some (false, s) => zero.read s
    | some (true, s) => one.read s

/-- The symbol at the end of the path that a backward stream takes. -/
def readBackward : CodeTree α → BackwardBits → Except NoSymbol (α × BackwardBits)
  | leaf symbol, bits => .ok (symbol, bits)
  | vacant, _ => .error .unassigned
  | fork _ _, [] => .error .ended
  | fork zero _, false :: bits => zero.readBackward bits
  | fork _ one, true :: bits => one.readBackward bits

theorem size_read {t : CodeTree α} {s rest : BitStream} {symbol : α}
    (h : t.read s = .ok (symbol, rest)) : rest.size ≤ s.size := by
  induction t generalizing s with
  | vacant => simp [read] at h
  | leaf =>
    simp only [read, Except.ok.injEq, Prod.mk.injEq] at h
    obtain ⟨_, rfl⟩ := h
    exact Nat.le_refl _
  | fork zero one ihZero ihOne =>
    unfold read at h
    split at h
    · simp at h
    · have := BitStream.size_next? ‹_›
      have := ihZero h
      omega
    · have := BitStream.size_next? ‹_›
      have := ihOne h
      omega

/-- The subtree at `depth` that holds the first of the given symbols at their depths, and the
symbols for which there is no place in it. It reaches at most `height` further down. -/
def leftmost : (height depth : Nat) → List (Nat × α) → CodeTree α × List (Nat × α)
  | _, _, [] => (vacant, [])
  | 0, depth, (length, symbol) :: more =>
    if length = depth then (leaf symbol, more) else (vacant, (length, symbol) :: more)
  | height + 1, depth, (length, symbol) :: more =>
    if length = depth then (leaf symbol, more)
    else
      let (zero, more) := leftmost height (depth + 1) ((length, symbol) :: more)
      let (one, more) := leftmost height (depth + 1) more
      (fork zero one, more)

end CodeTree

namespace PrefixCode

variable {α : Type}

/-- The symbol that the stream begins with. -/
def read (code : PrefixCode α) (s : BitStream) : Except NoSymbol (α × BitStream) :=
  (CodeTree.fork code.zero code.one).read s

/-- The symbol that a backward stream begins with. -/
def readBackward (code : PrefixCode α) (bits : BackwardBits) :
    Except NoSymbol (α × BackwardBits) :=
  (CodeTree.fork code.zero code.one).readBackward bits

theorem size_read_lt {code : PrefixCode α} {s rest : BitStream} {symbol : α}
    (h : code.read s = .ok (symbol, rest)) : rest.size < s.size := by
  unfold read CodeTree.read at h
  split at h
  · simp at h
  · have := BitStream.size_next? ‹_›
    have := CodeTree.size_read h
    omega
  · have := BitStream.size_next? ‹_›
    have := CodeTree.size_read h
    omega

/-- The code whose words, from left to right in the tree, have the given lengths, none of them
above `longest`. -/
def ofWords (longest : Nat) (words : List (Nat × α)) : PrefixCode α :=
  let (zero, words) := CodeTree.leftmost (longest - 1) 1 words
  let (one, _) := CodeTree.leftmost (longest - 1) 1 words
  ⟨zero, one⟩

end PrefixCode

/-- The symbols that have a word, in the order of a canonical code: by length, then by symbol. The
length of the word of symbol `n` stands at place `n` of the list, and is zero if it has none. -/
def canonicalWords (longest : Nat) (lengths : List Nat) : List (Nat × Nat) :=
  (List.range' 1 longest).flatMap fun length ↦ lengths.zipIdx.filter (·.1 = length)

/-- The weights of the words with the given lengths, in units of the weight of a longest one. -/
def kraftSum (longest : Nat) (lengths : List Nat) : Nat :=
  (lengths.map fun length ↦ if length = 0 then 0 else 2 ^ (longest - length)).sum

/-- The canonical code of a list of lengths. -/
def PrefixCode.canonical (longest : Nat) (lengths : List Nat) : PrefixCode Nat :=
  .ofWords longest (canonicalWords longest lengths)

end Intake
