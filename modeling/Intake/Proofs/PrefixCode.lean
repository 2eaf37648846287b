import Intake.PrefixCode
import Intake.Proofs.Bits
import Mathlib.Algebra.Order.Field.Rat
import Mathlib.Tactic.FieldSimp
import Mathlib.Tactic.Ring

/-!
# Words of a canonical code

A canonical code is given by the lengths of its words. Its words of one length are consecutive
numbers, and the first of them follows the last shorter word, with zeros put behind it
(`firstWord`). A tree that is filled from the left with symbols at increasing depths leads from each
of these words to its symbol (`exists_leftmost`), so a code whose words fill a tree reads each word
as its symbol (`reads_canonical`).
-/

set_option autoImplicit false
set_option relaxedAutoImplicit false

namespace Intake

open BitStream

/-! ### Paths in a tree -/

namespace CodeTree

variable {α : Type}

/-- The symbol at the end of a path. -/
def at? : CodeTree α → List Bool → Option α
  | leaf symbol, [] => some symbol
  | fork zero _, false :: path => zero.at? path
  | fork _ one, true :: path => one.at? path
  | _, _ => none

theorem reads_of_at? {t : CodeTree α} {path : List Bool} {symbol : α}
    (h : t.at? path = some symbol) : Reads t.read path symbol := by
  intro s bits hs
  induction t generalizing s path with
  | vacant => cases path <;> simp [at?] at h
  | leaf =>
    cases path with
    | nil =>
      obtain rfl := Option.some.inj h
      exact ⟨s, rfl, hs⟩
    | cons => simp [at?] at h
  | fork zero one ihZero ihOne =>
    cases path with
    | nil => simp [at?] at h
    | cons b path =>
      obtain ⟨s₁, hnext, h₁⟩ := hs.next?
      cases b with
      | false =>
        obtain ⟨rest, hread, hrest⟩ := ihZero h h₁
        exact ⟨rest, by rw [read, hnext]; exact hread, hrest⟩
      | true =>
        obtain ⟨rest, hread, hrest⟩ := ihOne h h₁
        exact ⟨rest, by rw [read, hnext]; exact hread, hrest⟩

end CodeTree

/-! ### Filling a tree from the left -/

section Leftmost

variable {α : Type}

/-- How many words of length `longest` the given words take the place of. -/
def weight (longest : Nat) (words : List (Nat × α)) : Nat :=
  (words.map fun word ↦ 2 ^ (longest - word.1)).sum

@[simp] theorem weight_nil (longest : Nat) : weight longest ([] : List (Nat × α)) = 0 :=
  rfl

@[simp] theorem weight_cons (longest : Nat) (word : Nat × α) (words : List (Nat × α)) :
    weight longest (word :: words) = 2 ^ (longest - word.1) + weight longest words :=
  rfl

@[simp] theorem weight_append (longest : Nat) (words more : List (Nat × α)) :
    weight longest (words ++ more) = weight longest words + weight longest more := by
  simp [weight]

theorem eq_nil_of_weight_eq_zero (longest : Nat) {words : List (Nat × α)}
    (h : weight longest words = 0) : words = [] := by
  cases words with
  | nil => rfl
  | cons word words =>
    have := Nat.two_pow_pos (longest - word.1)
    rw [weight_cons] at h
    omega

/-- The words of `front` are in a tree at `depth`, and `back` is handed on only when the tree is
full. A word with `d` bits below the tree, which is `e` bits shorter than a longest one, stands
where the words in front of it end. -/
structure Fills (tree : CodeTree α) (longest depth : Nat) (front back : List (Nat × α)) : Prop where
  le : weight longest front ≤ 2 ^ (longest - depth)
  full : back ≠ [] → weight longest front = 2 ^ (longest - depth)
  place : ∀ {before after symbol d e v}, front = before ++ (depth + d, symbol) :: after →
    longest = depth + d + e → weight longest before = v * 2 ^ e →
    tree.at? (highBits d v) = some symbol

theorem fills_vacant (longest depth : Nat) : Fills (.vacant : CodeTree α) longest depth [] [] where
  le := Nat.zero_le _
  full := fun h ↦ absurd rfl h
  place := fun h ↦ by simp at h

theorem fills_leaf (longest depth : Nat) (symbol : α) (back : List (Nat × α)) :
    Fills (.leaf symbol) longest depth [(depth, symbol)] back where
  le := Nat.le_refl _
  full := fun _ ↦ rfl
  place := by
    intro before after found d e v hfront _ _
    cases before with
    | cons word before =>
      have hlength := congrArg List.length hfront
      simp at hlength
    | nil =>
      obtain ⟨⟨rfl, rfl⟩, -⟩ : (d = 0 ∧ symbol = found) ∧ [] = after := by
        simpa using hfront
      rfl

/-- A number of words is less than the number of places for them if there is room for one more. -/
theorem lt_pow_of_fits {d e v : Nat} (h : v * 2 ^ e + 2 ^ e ≤ 2 ^ (d + e)) : v < 2 ^ d := by
  rw [Nat.pow_add, ← Nat.succ_mul] at h
  exact Nat.lt_of_succ_le (Nat.le_of_mul_le_mul_right h (Nat.two_pow_pos e))

/-- A word in the first branch of a fork. -/
theorem Fills.at?_zero {zero one : CodeTree α} {longest depth d e v : Nat} {symbol : α}
    {first back before after : List (Nat × α)} (hzero : Fills zero longest (depth + 1) first back)
    (hfirst : first = before ++ (depth + 1 + d, symbol) :: after)
    (hlongest : longest = depth + 1 + d + e) (hv : weight longest before = v * 2 ^ e) :
    (CodeTree.fork zero one).at? (highBits (d + 1) v) = some symbol := by
  have hlt : v < 2 ^ d := by
    have hle := hzero.le
    rw [hfirst, weight_append, weight_cons, hv, show longest - (depth + 1) = d + e by omega,
      show longest - (depth + 1 + d) = e by omega] at hle
    exact lt_pow_of_fits (e := e) (by omega)
  rw [highBits_succ_of_lt hlt]
  exact hzero.place hfirst hlongest hv

/-- A word in the second branch of a fork, the first one being full. -/
theorem Fills.at?_one {zero one : CodeTree α} {longest depth d e v : Nat} {symbol : α}
    {second back before after : List (Nat × α)} (hone : Fills one longest (depth + 1) second back)
    (hsecond : second = before ++ (depth + 1 + d, symbol) :: after)
    (hlongest : longest = depth + 1 + d + e)
    (hv : 2 ^ (d + e) + weight longest before = v * 2 ^ e) :
    (CodeTree.fork zero one).at? (highBits (d + 1) v) = some symbol := by
  obtain ⟨u, rfl⟩ : ∃ u, v = u + 2 ^ d := by
    apply Nat.exists_eq_add_of_le'
    apply Nat.le_of_mul_le_mul_right _ (Nat.two_pow_pos e)
    rw [← Nat.pow_add]
    omega
  have hu : weight longest before = u * 2 ^ e := by
    rw [Nat.add_mul, ← Nat.pow_add] at hv
    omega
  have hlt : u < 2 ^ d := by
    have hle := hone.le
    rw [hsecond, weight_append, weight_cons, hu, show longest - (depth + 1) = d + e by omega,
      show longest - (depth + 1 + d) = e by omega] at hle
    exact lt_pow_of_fits (e := e) (by omega)
  rw [highBits_succ_add hlt]
  exact hone.place hsecond hlongest hu

/-- A fork is filled by the words of its first branch and then those of its second one. -/
theorem Fills.fork {zero one : CodeTree α} {longest depth : Nat}
    {first second back : List (Nat × α)}
    (hdepth : depth < longest) (hlonger : ∀ word ∈ first ++ second, depth < word.1)
    (hzero : Fills zero longest (depth + 1) first (second ++ back))
    (hone : Fills one longest (depth + 1) second back) :
    Fills (.fork zero one) longest depth (first ++ second) back := by
  have hdouble : 2 ^ (longest - depth) =
      2 ^ (longest - (depth + 1)) + 2 ^ (longest - (depth + 1)) := by
    rw [← Nat.mul_two, ← Nat.pow_succ]
    congr 1
    omega
  refine ⟨?_, fun hback ↦ ?_, ?_⟩
  · rw [weight_append, hdouble]
    exact Nat.add_le_add hzero.le hone.le
  · rw [weight_append, hdouble, hzero.full (by simp [hback]), hone.full hback]
  · intro before after symbol d e v hfront hlongest hv
    have hlow : depth < depth + d := hlonger (depth + d, symbol) (by rw [hfront]; simp)
    obtain ⟨d, rfl⟩ : ∃ below, d = below + 1 := ⟨d - 1, by omega⟩
    rw [show depth + (d + 1) = depth + 1 + d by omega] at hfront hlongest
    -- Behind the words of the first branch there is a word only if that branch is full.
    have hbehind : ∀ more, before = first ++ more →
        second = more ++ (depth + 1 + d, symbol) :: after →
        (CodeTree.fork zero one).at? (highBits (d + 1) v) = some symbol := by
      rintro more rfl hsecond
      have hfull := hzero.full (by rw [hsecond]; simp)
      rw [weight_append, hfull, show longest - (depth + 1) = d + e by omega] at hv
      exact hone.at?_one hsecond hlongest hv
    rcases List.append_eq_append_iff.mp hfront with ⟨more, hbefore, hsecond⟩ | ⟨more, hfirst, hword⟩
    · exact hbehind more hbefore hsecond
    · cases more with
      | nil => exact hbehind [] (by simpa using hfirst.symm) hword.symm
      | cons word more =>
        obtain ⟨rfl, -⟩ := List.cons.inj hword
        exact hzero.at?_zero hfirst hlongest hv

/-- Filling a tree takes words off the front of the list until there are none left or the tree is
full. -/
theorem exists_leftmost (height depth : Nat) {words : List (Nat × α)}
    (hsorted : words.Pairwise (·.1 ≤ ·.1))
    (hbounds : ∀ word ∈ words, depth ≤ word.1 ∧ word.1 ≤ depth + height) :
    ∃ front, words = front ++ (CodeTree.leftmost height depth words).2 ∧
      Fills (CodeTree.leftmost height depth words).1 (depth + height) depth front
        (CodeTree.leftmost height depth words).2 := by
  induction height generalizing depth words with
  | zero =>
    cases words with
    | nil => exact ⟨[], rfl, fills_vacant _ _⟩
    | cons word more =>
      obtain ⟨length, symbol⟩ := word
      obtain rfl : length = depth := by
        have := hbounds _ List.mem_cons_self
        dsimp only at this
        omega
      rw [CodeTree.leftmost, if_pos rfl]
      exact ⟨[(length, symbol)], rfl, fills_leaf _ _ symbol more⟩
  | succ height ih =>
    cases words with
    | nil => exact ⟨[], rfl, fills_vacant _ _⟩
    | cons word more =>
      obtain ⟨length, symbol⟩ := word
      by_cases hlength : length = depth
      · subst hlength
        rw [CodeTree.leftmost, if_pos rfl]
        exact ⟨[(length, symbol)], rfl, fills_leaf _ _ symbol more⟩
      · have hlonger : ∀ word ∈ (length, symbol) :: more, depth < word.1 := by
          have hfirst : depth < length := by
            have := hbounds _ List.mem_cons_self
            dsimp only at this
            omega
          refine List.forall_mem_cons.mpr ⟨hfirst, fun word hword ↦ ?_⟩
          exact Nat.lt_of_lt_of_le hfirst ((List.pairwise_cons.mp hsorted).1 word hword)
        rw [CodeTree.leftmost, if_neg hlength]
        dsimp only
        have hlevel : depth + (height + 1) = depth + 1 + height := by omega
        rw [hlevel] at hbounds ⊢
        obtain ⟨first, hwords, hzero⟩ := @ih (depth + 1) _ hsorted fun word hword ↦
          ⟨hlonger word hword, (hbounds word hword).2⟩
        generalize CodeTree.leftmost height (depth + 1) ((length, symbol) :: more) = filled at *
        obtain ⟨zero, rest⟩ := filled
        dsimp only at hwords hzero ⊢
        have hsub : ∀ word ∈ rest, word ∈ (length, symbol) :: more := fun word hword ↦ by
          rw [hwords]
          exact List.mem_append_right _ hword
        obtain ⟨second, hrest, hone⟩ := @ih (depth + 1) rest
          (by rw [hwords] at hsorted; exact (List.pairwise_append.mp hsorted).2.1) fun word hword ↦
          ⟨hlonger word (hsub word hword), (hbounds word (hsub word hword)).2⟩
        generalize CodeTree.leftmost height (depth + 1) rest = filled at *
        obtain ⟨one, back⟩ := filled
        dsimp only at hrest hone ⊢
        subst hrest
        refine ⟨first ++ second, by rw [hwords, List.append_assoc], ?_⟩
        refine .fork (by omega) (fun word hword ↦ hlonger word ?_) hzero hone
        rw [hwords, ← List.append_assoc]
        exact List.mem_append_left _ hword

end Leftmost

/-! ### Words of a canonical code -/

/-- The number that the first word of a length is, or would be. -/
def firstWord (lengths : List Nat) : (length : Nat) → Nat
  | 0 => 0
  | n + 1 => 2 * (firstWord lengths n + if n = 0 then 0 else lengths.count n)

theorem firstWord_succ (lengths : List Nat) (n : Nat) :
    firstWord lengths (n + 2) = 2 * (firstWord lengths (n + 1) + lengths.count (n + 1)) :=
  rfl

/-- The word of a symbol, of which the most significant bit comes first. Symbols that have words of
one length are counted in their order. -/
def wordOf (lengths : List Nat) (symbol : Nat) : List Bool :=
  let length := lengths.getD symbol 0
  highBits length (firstWord lengths length + (lengths.take symbol).count length)

/-- A code is complete if its words take up all that can be read. -/
def IsComplete (longest : Nat) (lengths : List Nat) : Prop :=
  (∀ length ∈ lengths, length ≤ longest) ∧
    ((lengths.filter (· ≠ 0)).map fun length ↦ (1 / 2 : ℚ) ^ length).sum = 1

instance (longest : Nat) (lengths : List Nat) : Decidable (IsComplete longest lengths) :=
  inferInstanceAs (Decidable (_ ∧ _))

variable {longest : Nat} {lengths : List Nat}

/-- The words of at most `n` bits. -/
def shortWords (lengths : List Nat) (n : Nat) : List (Nat × Nat) :=
  (List.range' 1 n).flatMap fun length ↦ lengths.zipIdx.filter (·.1 = length)

theorem shortWords_succ (lengths : List Nat) (n : Nat) :
    shortWords lengths (n + 1) = shortWords lengths n ++ lengths.zipIdx.filter (·.1 = n + 1) := by
  rw [shortWords, List.range'_concat, List.flatMap_append]
  simp [shortWords, Nat.add_comm]

theorem weight_filter (longest n : Nat) (words : List (Nat × Nat)) :
    weight longest (words.filter (·.1 = n)) =
      (words.map Prod.fst).count n * 2 ^ (longest - n) := by
  induction words with
  | nil => simp
  | cons word words ih =>
    by_cases h : word.1 = n
    · rw [List.filter_cons_of_pos (by simpa using h), weight_cons, ih, List.map_cons, h,
        List.count_cons_self, Nat.add_one_mul, Nat.add_comm]
    · rw [List.filter_cons_of_neg (by simpa using h), ih, List.map_cons,
        List.count_cons_of_ne h]

/-- The words of at most `n` bits end where the first longer one begins. -/
theorem two_mul_weight_shortWords {n : Nat} (h : n ≤ longest) (lengths : List Nat) :
    2 * weight longest (shortWords lengths n) = firstWord lengths (n + 1) * 2 ^ (longest - n) := by
  induction n with
  | zero => simp [shortWords, firstWord]
  | succ n ih =>
    have hunit : 2 ^ (longest - n) = 2 * 2 ^ (longest - (n + 1)) := by
      rw [← Nat.pow_succ']
      congr 1
      omega
    rw [shortWords_succ, weight_append, weight_filter, List.zipIdx_map_fst, Nat.mul_add,
      ih (Nat.le_of_succ_le h), hunit, firstWord_succ]
    ring

/-- How many words of length `longest` a word of at most `n` bits takes the place of. -/
def share (longest n length : Nat) : Nat :=
  if length = 0 ∨ n < length then 0 else 2 ^ (longest - length)

theorem share_succ (longest n length : Nat) :
    share longest (n + 1) length =
      share longest n length + if length = n + 1 then 2 ^ (longest - (n + 1)) else 0 := by
  rw [share, share]
  rcases Nat.lt_trichotomy length (n + 1) with hlt | rfl | hgt
  · have hnot : ¬ n + 1 < length := Nat.lt_asymm hlt
    have hle : ¬ n < length := Nat.not_lt.mpr (Nat.le_of_lt_succ hlt)
    simp only [hnot, hle, Nat.ne_of_lt hlt, if_false, Nat.add_zero]
  · simp
  · have hlong : n < length := Nat.lt_of_succ_lt hgt
    rw [if_pos (.inr hgt), if_pos (.inr hlong), if_neg (Nat.ne_of_gt hgt)]

theorem weight_shortWords (longest : Nat) (lengths : List Nat) (n : Nat) :
    weight longest (shortWords lengths n) = (lengths.map (share longest n)).sum := by
  induction n with
  | zero =>
    have hnone : ∀ length ∈ lengths, share longest 0 length = 0 :=
      fun length _ ↦ if_pos (Nat.eq_zero_or_pos length)
    rw [List.map_congr_left hnone, List.map_const', List.sum_replicate_nat, Nat.mul_zero]
    rfl
  | succ n ih =>
    have hstep : (lengths.map (share longest (n + 1))).sum =
        (lengths.map (share longest n)).sum + lengths.count (n + 1) * 2 ^ (longest - (n + 1)) := by
      clear ih
      induction lengths with
      | nil => simp
      | cons length lengths ih =>
        rw [List.map_cons, List.map_cons, List.sum_cons, List.sum_cons, ih, share_succ,
          List.count_cons, Nat.add_mul]
        by_cases h : length = n + 1
        · simp only [h, if_true, beq_self_eq_true]
          ring
        · simp only [h, if_false, beq_iff_eq]
          ring
    rw [shortWords_succ, weight_append, weight_filter, List.zipIdx_map_fst, ih, hstep]

theorem cast_kraftSum (h : ∀ length ∈ lengths, length ≤ longest) :
    (kraftSum longest lengths : ℚ) =
      2 ^ longest * ((lengths.filter (· ≠ 0)).map fun length ↦ (1 / 2 : ℚ) ^ length).sum := by
  induction lengths with
  | nil => simp [kraftSum]
  | cons length lengths ih =>
    obtain ⟨hlength, hlengths⟩ := List.forall_mem_cons.mp h
    have hcons : kraftSum longest (length :: lengths) =
        (if length = 0 then 0 else 2 ^ (longest - length)) + kraftSum longest lengths := rfl
    rw [hcons, Nat.cast_add, ih hlengths]
    by_cases hzero : length = 0
    · simp only [hzero, if_true, Nat.cast_zero, zero_add]
      rw [List.filter_cons_of_neg (by simp)]
    · have hpow : ((2 ^ (longest - length) : Nat) : ℚ) = 2 ^ longest * (1 / 2) ^ length := by
        obtain ⟨more, rfl⟩ := Nat.exists_eq_add_of_le hlength
        rw [Nat.add_sub_cancel_left, pow_add, one_div, inv_pow]
        push_cast
        field_simp
      simp only [hzero, if_false]
      rw [List.filter_cons_of_pos (by simpa using hzero), List.map_cons, List.sum_cons, mul_add,
        hpow]

/-- The words of a complete code fill a tree. -/
theorem IsComplete.kraftSum (h : IsComplete longest lengths) :
    kraftSum longest lengths = 2 ^ longest := by
  have hcast := cast_kraftSum h.1
  rw [h.2, mul_one] at hcast
  exact_mod_cast hcast

theorem weight_canonicalWords (h : ∀ length ∈ lengths, length ≤ longest) :
    weight longest (canonicalWords longest lengths) = kraftSum longest lengths := by
  have hshare : ∀ length ∈ lengths,
      share longest longest length = if length = 0 then 0 else 2 ^ (longest - length) :=
    fun length hlength ↦ by
      have hnot : ¬ longest < length := Nat.not_lt.mpr (h length hlength)
      simp only [share, hnot, or_false]
  rw [kraftSum, ← List.map_congr_left hshare]
  exact weight_shortWords longest lengths longest

theorem bounds_of_mem_canonicalWords {word : Nat × Nat}
    (h : word ∈ canonicalWords longest lengths) : 1 ≤ word.1 ∧ word.1 ≤ longest := by
  obtain ⟨length, hlength, hword⟩ := List.mem_flatMap.mp h
  obtain ⟨-, heq⟩ := List.mem_filter.mp hword
  obtain rfl : word.1 = length := by simpa using heq
  rw [List.mem_range'_1] at hlength
  omega

theorem pairwise_canonicalWords (longest : Nat) (lengths : List Nat) :
    (canonicalWords longest lengths).Pairwise (·.1 ≤ ·.1) := by
  have hlength : ∀ {length : Nat} {word : Nat × Nat},
      word ∈ lengths.zipIdx.filter (·.1 = length) → word.1 = length :=
    fun hword ↦ by simpa using (List.mem_filter.mp hword).2
  refine List.pairwise_flatMap.mpr ⟨fun length _ ↦ ?_, ?_⟩
  · refine List.Pairwise.imp_of_mem ?_ (List.pairwise_of_forall (fun _ _ ↦ trivial))
    intro word other hword hother _
    rw [hlength hword, hlength hother]
  · refine List.Pairwise.imp ?_ (List.pairwise_lt_range' (s := 1) (n := longest))
    intro length longer hlt word hword other hother
    rw [hlength hword, hlength hother]
    exact hlt.le

theorem exists_shortWords_append {n : Nat} (h : n ≤ longest) (lengths : List Nat) :
    ∃ longer, canonicalWords longest lengths = shortWords lengths n ++ longer := by
  obtain ⟨more, rfl⟩ := Nat.exists_eq_add_of_le h
  refine ⟨(List.range' (1 + n) more).flatMap fun length ↦ lengths.zipIdx.filter (·.1 = length), ?_⟩
  rw [canonicalWords, shortWords, ← List.flatMap_append, List.range'_append_1]

/-- A symbol that has a word stands behind all shorter words, and behind the words of its own length
that are of smaller symbols. -/
theorem exists_canonicalWords {symbol n : Nat} (hsymbol : lengths[symbol]? = some (n + 1))
    (hn : n + 1 ≤ longest) :
    ∃ before after, canonicalWords longest lengths = before ++ (n + 1, symbol) :: after ∧
      weight longest before =
        (firstWord lengths (n + 1) + (lengths.take symbol).count (n + 1)) *
          2 ^ (longest - (n + 1)) := by
  obtain ⟨hlt, hget⟩ := List.getElem?_eq_some_iff.mp hsymbol
  obtain ⟨longer, hwords⟩ := exists_shortWords_append hn lengths
  have hsplit : lengths.zipIdx =
      lengths.zipIdx.take symbol ++ (n + 1, symbol) :: lengths.zipIdx.drop (symbol + 1) := by
    conv_lhs => rw [← List.take_append_drop symbol lengths.zipIdx]
    rw [List.drop_eq_getElem_cons (by simpa using hlt)]
    simp [hget]
  have hlevel : lengths.zipIdx.filter (·.1 = n + 1) =
      (lengths.zipIdx.take symbol).filter (·.1 = n + 1) ++ (n + 1, symbol) ::
        (lengths.zipIdx.drop (symbol + 1)).filter (·.1 = n + 1) := by
    conv_lhs => rw [hsplit]
    rw [List.filter_append, List.filter_cons_of_pos (by simp)]
  refine ⟨shortWords lengths n ++ (lengths.zipIdx.take symbol).filter (·.1 = n + 1),
    (lengths.zipIdx.drop (symbol + 1)).filter (·.1 = n + 1) ++ longer, ?_, ?_⟩
  · rw [hwords, shortWords_succ, hlevel]
    simp only [List.append_assoc, List.cons_append]
  · have hunit : 2 ^ (longest - n) = 2 * 2 ^ (longest - (n + 1)) := by
      rw [← Nat.pow_succ']
      congr 1
      omega
    have hshort : weight longest (shortWords lengths n) =
        firstWord lengths (n + 1) * 2 ^ (longest - (n + 1)) := by
      have htwice := two_mul_weight_shortWords (Nat.le_of_succ_le hn) lengths
      rw [hunit] at htwice
      apply Nat.eq_of_mul_eq_mul_left Nat.two_pos
      rw [htwice]
      ring
    rw [weight_append, hshort, weight_filter, List.map_take, List.zipIdx_map_fst, Nat.add_mul]

/-! ### Reading -/

/-- The two trees of a code are the branches of the one that all words are put in. -/
theorem fork_ofWords {height : Nat} {words : List (Nat × Nat)} (hne : words ≠ [])
    (hpos : ∀ word ∈ words, 1 ≤ word.1) :
    CodeTree.fork (PrefixCode.ofWords (height + 1) words).zero
        (PrefixCode.ofWords (height + 1) words).one =
      (CodeTree.leftmost (height + 1) 0 words).1 := by
  cases words with
  | nil => exact absurd rfl hne
  | cons word words =>
    obtain ⟨length, symbol⟩ := word
    have hlength : length ≠ 0 := Nat.ne_of_gt (hpos _ List.mem_cons_self)
    rw [CodeTree.leftmost, if_neg hlength]
    rfl

/-- A code whose words fill a tree reads the word of a symbol as the symbol. -/
theorem reads_canonical {symbol length : Nat} (hpos : 0 < longest)
    (hbound : ∀ length ∈ lengths, length ≤ longest)
    (hfull : kraftSum longest lengths = 2 ^ longest) (hsymbol : lengths[symbol]? = some length)
    (hlength : length ≠ 0) :
    Reads (PrefixCode.canonical longest lengths).read (wordOf lengths symbol) symbol := by
  obtain ⟨height, rfl⟩ := Nat.exists_eq_add_of_le' hpos
  obtain ⟨n, rfl⟩ := Nat.exists_eq_succ_of_ne_zero hlength
  have hn : n + 1 ≤ height + 1 := hbound _ (List.mem_of_getElem? hsymbol)
  obtain ⟨before, after, hwords, hbefore⟩ := exists_canonicalWords hsymbol hn
  obtain ⟨front, hfront, hfills⟩ := exists_leftmost (height + 1) 0
    (pairwise_canonicalWords (height + 1) lengths) fun word hword ↦
      ⟨Nat.zero_le _, by simpa using (bounds_of_mem_canonicalWords hword).2⟩
  rw [Nat.zero_add] at hfills
  have htotal := weight_canonicalWords hbound
  -- The words fill the tree, so there is no word for which it has no place.
  have hback : (CodeTree.leftmost (height + 1) 0 (canonicalWords (height + 1) lengths)).2 = [] := by
    by_contra hback
    refine hback (eq_nil_of_weight_eq_zero (height + 1) ?_)
    have hweight := hfills.full hback
    rw [hfront, weight_append, hweight, hfull] at htotal
    simpa using htotal
  rw [hback, List.append_nil] at hfront
  have hplaced : front = before ++ (0 + (n + 1), symbol) :: after := by
    rw [← hfront, hwords, Nat.zero_add]
  have hat := hfills.place (e := height + 1 - (n + 1)) hplaced (by omega) hbefore
  rw [← fork_ofWords (by rw [hwords]; simp)
    fun word hword ↦ (bounds_of_mem_canonicalWords hword).1] at hat
  have hword : wordOf lengths symbol =
      highBits (n + 1) (firstWord lengths (n + 1) + (lengths.take symbol).count (n + 1)) := by
    simp only [wordOf, List.getD, hsymbol, Option.getD_some]
  rw [hword]
  exact CodeTree.reads_of_at? hat

end Intake
