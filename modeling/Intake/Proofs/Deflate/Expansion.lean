import Intake.Proofs.Deflate.Writing
import Mathlib.Data.List.GetD

/-!
# What tokens stand for

A copy that is carried out one byte at a time adds the last `distance` bytes over and over
(`toList_copyBack`), whether or not it reaches into itself. So the output of the blocks that are
read is the output of what has been written (`content_blocks`).
-/

set_option autoImplicit false
set_option relaxedAutoImplicit false

namespace Intake.Deflate

/-! ### Copies -/

/-- The bytes that a copy adds to the output. -/
theorem Token.bytes_copy_succ {output : Bytes} {length distance : Nat} (hpos : 0 < distance)
    (hfits : distance ≤ output.length) :
    (copy (length + 1) distance).bytes output =
      output.getD (output.length - distance) 0 ::
        (copy length distance).bytes (output ++ [output.getD (output.length - distance) 0]) := by
  simp only [bytes, List.range_succ_eq_map, List.map_cons, List.map_map, Nat.zero_mod, Nat.add_zero,
    List.length_append, List.length_singleton]
  congr 1
  refine List.map_congr_left fun i _ ↦ ?_
  have hlt := Nat.mod_lt i hpos
  rw [Function.comp_apply]
  by_cases hlast : i % distance + 1 = distance
  · -- The byte that has just been added is the last one that the copy takes before it starts again.
    have hsucc : (i + 1) % distance = 0 := by
      rw [← Nat.mod_add_mod, hlast, Nat.mod_self]
    rw [Nat.succ_eq_add_one, hsucc, List.getD_append_right _ _ _ _ (by omega),
      show output.length + 1 - distance + i % distance - output.length = 0 by omega]
    rfl
  · have hsucc : (i + 1) % distance = i % distance + 1 := by
      rw [← Nat.mod_add_mod]
      exact Nat.mod_eq_of_lt (by omega)
    rw [Nat.succ_eq_add_one, hsucc, List.getD_append _ _ _ _ (by omega)]
    congr 1
    omega

theorem toList_copyBack {distance length : Nat} {output : Array UInt8} (hpos : 0 < distance)
    (hfits : distance ≤ output.size) :
    (copyBack distance length output).toList =
      output.toList ++ (Token.copy length distance).bytes output.toList := by
  induction length generalizing output with
  | zero => simp [copyBack, Token.bytes]
  | succ length ih =>
    have hback : byteBack output distance =
        output.toList.getD (output.toList.length - distance) 0 := by
      rw [byteBack, if_pos hfits, Array.length_toList, List.getD, Array.getElem?_toList,
        Array.getD_eq_getD_getElem?]
    rw [copyBack, ih (by rw [Array.size_push]; omega), Array.toList_push, hback,
      Token.bytes_copy_succ hpos hfits, List.append_assoc]
    rfl

/-! ### Tokens -/

theorem Token.toList_run {token : Token} {output : Array UInt8} (h : token.IsLegal output.size) :
    (token.run output).toList = output.toList ++ token.bytes output.toList := by
  cases token with
  | literal byte => exact Array.toList_push
  | copy length distance =>
    obtain ⟨-, -, hnearest, -, hproduced⟩ := h
    exact toList_copyBack hnearest hproduced

theorem Token.toList_expand {tokens : List Token} {output : Array UInt8}
    (h : AreLegal output.size tokens) :
    (expand output tokens).toList = Token.output output.toList tokens := by
  induction tokens generalizing output with
  | nil => rfl
  | cons token tokens ih =>
    obtain ⟨htoken, htokens⟩ := h
    rw [← size_run] at htokens
    have hmore := ih htokens
    rw [toList_run htoken] at hmore
    exact hmore

/-! ### Blocks -/

/-- The block that is read where a plan has been carried out. -/
def Plan.block : Plan → Block
  | stored _ bytes => .stored bytes
  | fixed tokens => .coded tokens
  | described _ tokens => .coded tokens

theorem Plan.toList_run {plan : Plan} {output : Array UInt8} (h : plan.IsLegal output.size) :
    (plan.block.run output).toList = plan.output output.toList := by
  cases plan with
  | stored filling bytes => exact Array.toList_appendList
  | fixed tokens => exact Token.toList_expand h
  | described codes tokens => exact Token.toList_expand h.2.1

theorem toList_foldl_run {plans : List Plan} {output : Array UInt8}
    (h : AreLegal output.toList plans) :
    ((plans.map Plan.block).foldl Block.run output).toList =
      plans.foldl Plan.output output.toList := by
  induction plans generalizing output with
  | nil => rfl
  | cons plan plans ih =>
    obtain ⟨hplan, hplans⟩ := h
    rw [List.map_cons, List.foldl_cons, List.foldl_cons, ← Plan.toList_run hplan]
    rw [← Plan.toList_run hplan] at hplans
    exact ih hplans

/-- Blocks that have been written stand for what their plans say. -/
theorem content_blocks {plans : List Plan} (h : AreLegal [] plans) :
    content (plans.map Plan.block) = output plans :=
  @toList_foldl_run plans #[] h

end Intake.Deflate
