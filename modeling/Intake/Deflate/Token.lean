import Intake.Backreference

/-!
# Tokens of the DEFLATE format

A token is a byte or a copy of earlier output. `Token.expand` carries tokens out one after the
other, and its result is as much longer as the tokens stand for (`size_expand`).
-/

set_option autoImplicit false
set_option relaxedAutoImplicit false

namespace Intake.Deflate

inductive Token
  | literal (byte : UInt8)
  | copy (length distance : Nat)
  deriving DecidableEq, Repr

namespace Token

/-- The output after one token. -/
def run (output : Array UInt8) : Token → Array UInt8
  | literal byte => output.push byte
  | copy length distance => copyBack distance length output

/-- The output after all tokens. -/
def expand (output : Array UInt8) (tokens : List Token) : Array UInt8 :=
  tokens.foldl run output

/-- How many bytes a token stands for. -/
def size : Token → Nat
  | literal _ => 1
  | copy length _ => length

end Token

theorem Token.size_run (output : Array UInt8) (t : Token) :
    (t.run output).size = output.size + t.size := by
  cases t with
  | literal => simp [run, size]
  | copy length distance => simp [run, size, size_copyBack]

theorem Token.size_expand (output : Array UInt8) (tokens : List Token) :
    (expand output tokens).size = output.size + (tokens.map size).sum := by
  induction tokens generalizing output with
  | nil => simp [expand]
  | cons t tokens ih =>
    have h := ih (t.run output)
    rw [expand] at h ⊢
    rw [List.foldl_cons, h, size_run]
    simp only [List.map_cons, List.sum_cons]
    omega

end Intake.Deflate
