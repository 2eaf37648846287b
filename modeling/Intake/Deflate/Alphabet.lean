import Intake.PrefixCode

/-!
# Alphabets of the DEFLATE format

Symbols below 256 are literal bytes, 256 ends a block, and the symbols from 257 to 285 are lengths.
Lengths and distances have a base and a number of extra bits. The lengths of the words of a block's
two codes are written in a third code, whose own word lengths come in a fixed order.
-/

set_option autoImplicit false
set_option relaxedAutoImplicit false

namespace Intake.Deflate

/-- The symbol that ends a block. -/
def endOfBlock : Nat := 256

/-- The base length and the number of extra bits of the symbols from 257 on. -/
def lengthBases : Array (Nat × Nat) := #[
  (3, 0), (4, 0), (5, 0), (6, 0), (7, 0), (8, 0), (9, 0), (10, 0), (11, 1), (13, 1), (15, 1),
  (17, 1), (19, 2), (23, 2), (27, 2), (31, 2), (35, 3), (43, 3), (51, 3), (59, 3), (67, 4),
  (83, 4), (99, 4), (115, 4), (131, 5), (163, 5), (195, 5), (227, 5), (258, 0)]

/-- The base distance and the number of extra bits of each distance symbol. -/
def distanceBases : Array (Nat × Nat) := #[
  (1, 0), (2, 0), (3, 0), (4, 0), (5, 1), (7, 1), (9, 2), (13, 2), (17, 3), (25, 3), (33, 4),
  (49, 4), (65, 5), (97, 5), (129, 6), (193, 6), (257, 7), (385, 7), (513, 8), (769, 8),
  (1025, 9), (1537, 9), (2049, 10), (3073, 10), (4097, 11), (6145, 11), (8193, 12), (12289, 12),
  (16385, 13), (24577, 13)]

/-- The symbols of the third code in the order in which their word lengths are written. -/
def lengthOrder : List Nat :=
  [16, 17, 18, 0, 8, 7, 9, 6, 10, 5, 11, 4, 12, 3, 13, 2, 14, 1, 15]

/-- The longest word of the codes for lengths and distances. -/
def longestWord : Nat := 15

/-- The codes that the tokens of a block are written in. -/
structure Codes where
  literals : PrefixCode Nat
  distances : PrefixCode Nat

/-- The word lengths of the fixed code for literals and lengths. -/
def fixedLiteralLengths : List Nat :=
  List.replicate 144 8 ++ List.replicate 112 9 ++ List.replicate 24 7 ++ List.replicate 8 8

/-- The codes of a block that brings none of its own. -/
def Codes.fixed : Codes where
  literals := .canonical longestWord fixedLiteralLengths
  distances := .canonical longestWord (List.replicate 32 5)

/-- The tree below `depth` bits of a word of zeros that has `length` bits more. A bit that leaves
the word leads nowhere, except that past the tenth bit it leads to symbol zero. -/
def loneTree (symbol : Nat) : (length depth : Nat) → CodeTree Nat
  | 0, _ => .leaf symbol
  | length + 1, depth =>
    .fork (loneTree symbol length (depth + 1)) (if 10 ≤ depth then .leaf 0 else .vacant)

/-- The code with at most one word. -/
def loneCode (words : List (Nat × Nat)) : PrefixCode Nat :=
  match words with
  | (length, symbol) :: _ => ⟨loneTree symbol (length - 1) 1, .vacant⟩
  | [] => ⟨.vacant, .vacant⟩

/-- The code with the given word lengths. They have to fill a tree unless there is at most one. -/
def codeOfLengths? (lengths : List Nat) : Option (PrefixCode Nat) :=
  if kraftSum longestWord lengths = 2 ^ longestWord then some (.canonical longestWord lengths)
  else if 1 < (lengths.filter (· ≠ 0)).length then none
  else some (loneCode (canonicalWords longestWord lengths))

end Intake.Deflate
