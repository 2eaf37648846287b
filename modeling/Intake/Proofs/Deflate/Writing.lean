import Intake.Deflate.Block
import Intake.Proofs.Bytes
import Intake.Proofs.PrefixCode
import Mathlib.Tactic.MkIffOfInductiveProp

/-!
# Writing the DEFLATE format

What an encoder may write. A stream is a list of plans, one for each block: bytes to be stored, or
tokens in the fixed codes or in codes of the block's own, with a choice of how to describe these. A
plan says which bits the block has at its place in the stream (`Plan.text`) and what it stands for
(`Plan.output`), without a look at how either is read.
-/

set_option autoImplicit false
set_option relaxedAutoImplicit false

namespace Intake.Deflate

/-! ### Tokens -/

namespace Token

/-- The bytes that a token adds to the output. A copy takes the last `distance` bytes over and over.
-/
def bytes (output : Bytes) : Token → Bytes
  | literal byte => [byte]
  | copy length distance =>
    (List.range length).map fun i ↦ output.getD (output.length - distance + i % distance) 0

/-- The output behind a list of tokens. -/
def output (before : Bytes) (tokens : List Token) : Bytes :=
  tokens.foldl (fun output token ↦ output ++ token.bytes output) before

/-- A copy may be of 3 to 258 bytes. It begins at most 32768 bytes back, and not before the first
byte of the output. -/
def IsLegal (produced : Nat) : Token → Prop
  | literal _ => True
  | copy length distance =>
    3 ≤ length ∧ length ≤ 258 ∧ 1 ≤ distance ∧ distance ≤ 32768 ∧ distance ≤ produced

/-- Each token is legal behind those in front of it. -/
def AreLegal : (produced : Nat) → List Token → Prop
  | _, [] => True
  | produced, token :: tokens => token.IsLegal produced ∧ AreLegal (produced + token.size) tokens

instance (produced : Nat) : (token : Token) → Decidable (token.IsLegal produced)
  | literal _ => inferInstanceAs (Decidable True)
  | copy .. => inferInstanceAs (Decidable (_ ∧ _))

instance decidableAreLegal : (produced : Nat) → (tokens : List Token) →
    Decidable (AreLegal produced tokens)
  | _, [] => inferInstanceAs (Decidable True)
  | produced, token :: tokens =>
    have := decidableAreLegal (produced + token.size) tokens
    inferInstanceAs (Decidable (_ ∧ _))

end Token

/-- How many of the low bits of a number are written behind its symbol. The highest bit of the
number and `fine` bits below it are told by the symbol. -/
def extraBits (fine n : Nat) : Nat :=
  n.log2 - fine

/-- The place of a number among the symbols, which tells all of it but the extra bits. -/
def place (fine n : Nat) : Nat :=
  2 ^ fine * extraBits fine n + n / 2 ^ extraBits fine n

/-- The extra bits of a number. -/
def extraText (fine n : Nat) : List Bool :=
  lowBits (extraBits fine n) (n % 2 ^ extraBits fine n)

/-- The symbol of a length. The longest one has a symbol of its own. -/
def lengthSymbol (length : Nat) : Nat :=
  if length = 258 then 285 else 257 + place 2 (length - 3)

/-- The bits behind the symbol of a length. -/
def lengthText (length : Nat) : List Bool :=
  if length = 258 then [] else extraText 2 (length - 3)

namespace Token

/-- The symbols of a token have words. -/
def HasWords (literals distances : List Nat) : Token → Prop
  | literal byte => literals.getD byte.toNat 0 ≠ 0
  | copy length distance =>
    literals.getD (lengthSymbol length) 0 ≠ 0 ∧ distances.getD (place 1 (distance - 1)) 0 ≠ 0

instance (literals distances : List Nat) : (token : Token) →
    Decidable (token.HasWords literals distances)
  | literal _ => inferInstanceAs (Decidable (_ ≠ _))
  | copy .. => inferInstanceAs (Decidable (_ ∧ _))

/-- A token in the codes that have words of the given lengths. -/
def text (literals distances : List Nat) : Token → List Bool
  | literal byte => wordOf literals byte.toNat
  | copy length distance =>
    wordOf literals (lengthSymbol length) ++ lengthText length ++
      wordOf distances (place 1 (distance - 1)) ++ extraText 1 (distance - 1)

end Token

/-- Tokens and the end of their block. -/
def tokensText (literals distances : List Nat) (tokens : List Token) : List Bool :=
  tokens.flatMap (Token.text literals distances) ++ wordOf literals 256

/-! ### Word lengths -/

/-- A symbol of the third code and its extra bits. -/
inductive Run
  /-- One word length. -/
  | single (length : Nat)
  /-- The length before, 3 to 6 times. -/
  | again (count : Nat)
  /-- No word, 3 to 10 times. -/
  | zeros (count : Nat)
  /-- No word, 11 to 138 times. -/
  | manyZeros (count : Nat)

namespace Run

def symbol : Run → Nat
  | single length => length
  | again _ => 16
  | zeros _ => 17
  | manyZeros _ => 18

def extra : Run → List Bool
  | single _ => []
  | again count => lowBits 2 (count - 3)
  | zeros count => lowBits 3 (count - 3)
  | manyZeros count => lowBits 7 (count - 11)

/-- A run behind the given lengths is in its bounds, and what it repeats is there. -/
def IsLegal (before : List Nat) : Run → Prop
  | single length => length ≤ 15
  | again count => 3 ≤ count ∧ count ≤ 6 ∧ before ≠ []
  | zeros count => 3 ≤ count ∧ count ≤ 10
  | manyZeros count => 11 ≤ count ∧ count ≤ 138

/-- The lengths that a run adds. -/
def lengths (before : List Nat) : Run → List Nat
  | single length => [length]
  | again count => List.replicate count (before.getLastD 0)
  | zeros count => List.replicate count 0
  | manyZeros count => List.replicate count 0

/-- Each run is legal behind the lengths of those in front of it. -/
def AreLegal : (before : List Nat) → List Run → Prop
  | _, [] => True
  | before, run :: runs => run.IsLegal before ∧ AreLegal (before ++ run.lengths before) runs

instance (before : List Nat) : (run : Run) → Decidable (run.IsLegal before)
  | single _ => inferInstanceAs (Decidable (_ ≤ _))
  | again _ => inferInstanceAs (Decidable (_ ∧ _))
  | zeros _ => inferInstanceAs (Decidable (_ ∧ _))
  | manyZeros _ => inferInstanceAs (Decidable (_ ∧ _))

instance decidableAreLegal : (before : List Nat) → (runs : List Run) →
    Decidable (AreLegal before runs)
  | _, [] => inferInstanceAs (Decidable True)
  | before, run :: runs =>
    have := decidableAreLegal (before ++ run.lengths before) runs
    inferInstanceAs (Decidable (_ ∧ _))

/-- The lengths that runs add. -/
def spelled : (before : List Nat) → List Run → List Nat
  | _, [] => []
  | before, run :: runs => run.lengths before ++ spelled (before ++ run.lengths before) runs

end Run

/-- The codes of a block and how it describes them. -/
structure Description where
  /-- The lengths of the words for literals, the end of the block and lengths. -/
  literals : List Nat
  /-- The lengths of the words for distances. -/
  distances : List Nat
  /-- The lengths of the words of the third code. -/
  shorts : List Nat
  /-- How many lengths of the third code are written. -/
  written : Nat
  runs : List Run

namespace Description

/-- The codes are complete and within the sizes of the format, and the runs spell them in the third
code, both as one list. -/
@[mk_iff]
structure IsLegal (d : Description) : Prop where
  literals_length : 257 ≤ d.literals.length ∧ d.literals.length ≤ 286
  distances_length : 1 ≤ d.distances.length ∧ d.distances.length ≤ 32
  literals_complete : IsComplete 15 d.literals
  distances_complete : IsComplete 15 d.distances
  end_word : d.literals.getD 256 0 ≠ 0
  shorts_length : d.shorts.length = 19
  shorts_complete : IsComplete 7 d.shorts
  written_bounds : 4 ≤ d.written ∧ d.written ≤ 19
  unwritten : ∀ symbol ∈ lengthOrder.drop d.written, d.shorts.getD symbol 0 = 0
  runs_legal : Run.AreLegal [] d.runs
  spelled : Run.spelled [] d.runs = d.literals ++ d.distances
  run_word : ∀ run ∈ d.runs, d.shorts.getD run.symbol 0 ≠ 0

instance (d : Description) : Decidable d.IsLegal :=
  decidable_of_iff' _ (isLegal_iff d)

def text (d : Description) : List Bool :=
  lowBits 5 (d.literals.length - 257) ++ lowBits 5 (d.distances.length - 1) ++
    lowBits 4 (d.written - 4) ++
    (lengthOrder.take d.written).flatMap (fun symbol ↦ lowBits 3 (d.shorts.getD symbol 0)) ++
    d.runs.flatMap fun run ↦ wordOf d.shorts run.symbol ++ run.extra

end Description

/-! ### Blocks -/

/-- The length of a word of the fixed code for literals, the end of the block and lengths. -/
def fixedLength (symbol : Nat) : Nat :=
  if symbol < 144 then 8 else if symbol < 256 then 9 else if symbol < 280 then 7 else 8

/-- What to write as a block. -/
inductive Plan
  /-- Bytes as they are. The bits in front of the first whole byte are those of `filling`. -/
  | stored (filling : Nat) (bytes : Bytes)
  /-- Tokens in the fixed codes. -/
  | fixed (tokens : List Token)
  /-- Tokens in codes that are described in front of them. -/
  | described (codes : Description) (tokens : List Token)

/-- Bits up to the next byte. -/
def paddingText (position filling : Nat) : List Bool :=
  lowBits ((8 - position % 8) % 8) filling

namespace Plan

/-- The output behind a block. -/
def output (before : Bytes) : Plan → Bytes
  | stored _ bytes => before ++ bytes
  | fixed tokens => Token.output before tokens
  | described _ tokens => Token.output before tokens

/-- What may be written where so many bytes have been produced. -/
def IsLegal (produced : Nat) : Plan → Prop
  | stored _ bytes => bytes.length ≤ 65535
  | fixed tokens => Token.AreLegal produced tokens
  | described codes tokens =>
    codes.IsLegal ∧ Token.AreLegal produced tokens ∧
      ∀ token ∈ tokens, token.HasWords codes.literals codes.distances

instance (produced : Nat) : (plan : Plan) → Decidable (plan.IsLegal produced)
  | stored .. => inferInstanceAs (Decidable (_ ≤ _))
  | fixed tokens => inferInstanceAs (Decidable (Token.AreLegal produced tokens))
  | described .. => inferInstanceAs (Decidable (_ ∧ _ ∧ _))

/-- A block lists no more lengths for distances than there are distances. Two more can be listed,
for words that no token has a use for. -/
def FewDistances : Plan → Prop
  | stored .. => True
  | fixed _ => True
  | described codes _ => codes.distances.length ≤ 30

instance : (plan : Plan) → Decidable plan.FewDistances
  | stored .. => inferInstanceAs (Decidable True)
  | fixed _ => inferInstanceAs (Decidable True)
  | described .. => inferInstanceAs (Decidable (_ ≤ _))

/-- The kind of a block. -/
def kind : Plan → Nat
  | stored .. => 0
  | fixed _ => 1
  | described .. => 2

/-- The bits behind the mark and the kind of a block. -/
def body (position : Nat) : Plan → List Bool
  | stored filling bytes =>
    paddingText position filling ++ Bytes.bits (Bytes.ofNumber 2 bytes.length ++
      Bytes.ofNumber 2 (65535 - bytes.length) ++ bytes)
  | fixed tokens =>
    tokensText ((List.range 288).map fixedLength) (List.replicate 32 5) tokens
  | described codes tokens => codes.text ++ tokensText codes.literals codes.distances tokens

/-- The bits of a block that begins at a position of the stream. -/
def text (position : Nat) (last : Bool) (plan : Plan) : List Bool :=
  last :: lowBits 2 plan.kind ++ plan.body (position + 3)

end Plan

/-! ### Streams -/

/-- Each block is legal behind the output of those in front of it. -/
def AreLegal : (before : Bytes) → List Plan → Prop
  | _, [] => True
  | before, plan :: plans => plan.IsLegal before.length ∧ AreLegal (plan.output before) plans

instance decidableAreLegal :
    (before : Bytes) → (plans : List Plan) → Decidable (AreLegal before plans)
  | _, [] => inferInstanceAs (Decidable True)
  | before, plan :: plans =>
    have := decidableAreLegal (plan.output before) plans
    inferInstanceAs (Decidable (_ ∧ _))

/-- What blocks stand for. -/
def output (plans : List Plan) : Bytes :=
  plans.foldl Plan.output []

/-- The bits of blocks from a position on. The last block is marked. -/
def text : (position : Nat) → List Plan → List Bool
  | _, [] => []
  | position, plan :: plans =>
    plan.text position plans.isEmpty ++
      text (position + (plan.text position plans.isEmpty).length) plans

/-- The bytes of a stream. The bits behind its last block are those of `filling`. -/
def bytes (plans : List Plan) (filling : Nat) : Bytes :=
  .ofBits (text 0 plans ++ paddingText (text 0 plans).length filling)

end Intake.Deflate
