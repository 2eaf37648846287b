import Intake.Proofs.Net.Written

/-!
# Addresses are read back

What an address is printed as is a text of the grammar that stands for it (`isAddress_text`). The
zero groups that are left out come from the run that is found to be the longest; where that run
begins does not matter here, only that it is one (`eq_longestZeroRun`). A mapped address has its
last two groups in dotted form, which are the octets they are made of (`octets_group`).
-/

set_option autoImplicit false
set_option relaxedAutoImplicit false

namespace Intake.Net

/-! ### Numbers -/

section

variable {radix : Nat}

theorem isDigit_digitChar (hradix : radix ≤ 16) {d : Nat} (hd : d < radix) :
    IsDigit radix (Nat.digitChar d) d := by
  have htable : ∀ d : Fin 16, IsDigit 16 (Nat.digitChar d.val) d.val := by decide
  exact ⟨hd, (htable ⟨d, hd.trans_le hradix⟩).2⟩

theorem isNumber_single {c : Char} {d : Nat} (hc : IsDigit radix c d) : IsNumber radix [c] d :=
  ⟨by simp, [d], .cons hc .nil, by simp⟩

/-- One more digit makes room for its value. -/
theorem IsNumber.snoc {text : List Char} {c : Char} {n d : Nat} (h : IsNumber radix text n)
    (hc : IsDigit radix c d) : IsNumber radix (text ++ [c]) (radix * n + d) := by
  obtain ⟨-, ds, htext, hn⟩ := h
  refine ⟨by simp, ds ++ [d], List.rel_append htext (.cons hc .nil), ?_⟩
  rw [List.reverse_append, List.reverse_singleton, List.singleton_append, Nat.ofDigits_cons, hn,
    Nat.add_comm]

theorem isNumber_toDigits (hone : 1 < radix) (hradix : radix ≤ 16) (n : Nat) :
    IsNumber radix (Nat.toDigits radix n) n := by
  induction n using Nat.strong_induction_on with
  | h n ih =>
    rw [Nat.toDigits_eq_if hone]
    split_ifs with hn
    · exact isNumber_single (isDigit_digitChar hradix hn)
    · have hlt : n / radix < n := Nat.div_lt_self (by omega) hone
      have h := (ih (n / radix) hlt).snoc
        (isDigit_digitChar hradix (Nat.mod_lt n (by omega : 0 < radix)))
      rwa [Nat.div_add_mod] at h

/-- The decimal digits of a number begin with a zero only if it is zero. -/
theorem eq_zero_of_head?_toDigits {n : Nat} (h : (Nat.toDigits 10 n).head? = some '0') : n = 0 := by
  induction n using Nat.strong_induction_on with
  | h n ih =>
    rw [Nat.toDigits_eq_if (by decide)] at h
    split_ifs at h with hn
    · have hc : IsDigit 10 (Nat.digitChar n) n := isDigit_digitChar (by decide) hn
      exact (Reader.eq_zero_iff_of_isDigit hc).mp (Option.some_inj.mp h)
    · rw [List.head?_append_of_ne_nil _ Nat.toDigits_ne_nil] at h
      have hzero := ih (n / 10) (by omega) h
      omega

theorem toList_toString (n : Nat) : (toString n).toList = Nat.toDigits 10 n := by
  rw [Nat.toString_eq_ofList_toDigits, String.toList_ofList]

theorem isNumber_toString (n : Nat) : IsNumber 10 (toString n).toList n := by
  rw [toList_toString]
  exact isNumber_toDigits (by decide) (by decide) n

end

theorem isOctet_toString (octet : UInt8) : IsOctet (toString octet).toList octet where
  number := isNumber_toString octet.toNat
  length_le := by
    show (toString octet.toNat).toList.length ≤ 3
    rw [toList_toString, Nat.length_toDigits_le_iff (by decide) (by decide)]
    exact octet.toNat_lt.trans (by decide)
  no_leading_zero := by
    show (toString octet.toNat).toList.head? = some '0' → (toString octet.toNat).toList = ['0']
    rw [toList_toString]
    intro h
    rw [eq_zero_of_head?_toDigits h]
    rfl

theorem isGroup_toDigits (group : UInt16) : IsGroup (Nat.toDigits 16 group.toNat) group where
  number := isNumber_toDigits (by decide) le_rfl group.toNat
  length_le := (Nat.length_toDigits_le_iff (by decide) (by decide)).mpr group.toNat_lt

/-! ### IPv4 addresses -/

theorem isDotted_text (ip : Ipv4) : IsDotted ip.text.toList ip := by
  have htext : ip.text.toList = (toString ip.first).toList ++ '.' :: ((toString ip.second).toList ++
      '.' :: ((toString ip.third).toList ++ '.' :: (toString ip.fourth).toList)) := by
    simp [Ipv4.text]
  rw [htext]
  exact .octets (isOctet_toString _) (isOctet_toString _) (isOctet_toString _) (isOctet_toString _)

/-- A group is made of its two octets. -/
theorem octets_group (group : UInt16) :
    (group >>> 8).toUInt8.toUInt16 <<< 8 ||| group.toUInt8.toUInt16 = group := by
  rw [← UInt16.toNat_inj]
  simp only [UInt16.toNat_or, UInt16.toNat_shiftLeft, UInt8.toNat_toUInt16, UInt16.toNat_toUInt8,
    UInt16.toNat_shiftRight]
  have hbits : (8 : UInt16).toNat % 16 = 8 := by decide
  have hgroup : group.toNat < 2 ^ 16 := group.toNat_lt
  rw [hbits, Nat.shiftRight_eq_div_pow]
  have hlow : group.toNat % 2 ^ 8 < 2 ^ 8 := Nat.mod_lt _ (by decide)
  have hhigh : group.toNat / 2 ^ 8 < 2 ^ 8 := by omega
  rw [Nat.mod_eq_of_lt hhigh]
  have hfit : (group.toNat / 2 ^ 8) <<< 8 < 2 ^ 16 := by
    rw [Nat.shiftLeft_eq]
    omega
  rw [Nat.mod_eq_of_lt hfit, ← Nat.shiftLeft_add_eq_or_of_lt hlow, Nat.shiftLeft_eq]
  omega

theorem groups_ofGroups (high low : UInt16) : (Ipv4.ofGroups high low).groups = [high, low] := by
  simp only [Ipv4.groups, Ipv4.ofGroups, octets_group]

/-! ### IPv6 addresses -/

/-- Groups as they are written behind others. -/
theorem areGroups_behind (groups : List UInt16) :
    AreGroups false false (groups.flatMap fun group ↦ ':' :: Nat.toDigits 16 group.toNat)
      groups := by
  induction groups with
  | nil => exact .none
  | cons group groups ih => exact .cons (isGroup_toDigits group) ih

theorem toList_groupsText_cons (group : UInt16) (groups : List UInt16) :
    (groupsText (group :: groups)).toList = Nat.toDigits 16 group.toNat ++
      groups.flatMap fun group ↦ ':' :: Nat.toDigits 16 group.toNat := by
  induction groups generalizing group with
  | nil => simp [groupsText]
  | cons other groups ih =>
    have hother := ih other
    rw [groupsText, String.toList_intercalate] at hother ⊢
    simp only [List.map_cons, List.intercalate_cons_cons, String.toList_ofList] at hother ⊢
    rw [hother]
    simp

theorem areGroups_groupsText (groups : List UInt16) :
    AreGroups true false (groupsText groups).toList groups := by
  cases groups with
  | nil => exact .none
  | cons group groups =>
    rw [toList_groupsText_cons]
    exact .cons (isGroup_toDigits group) (areGroups_behind groups)

theorem eq_leadingZeros (groups : List UInt16) :
    groups = List.replicate (leadingZeros groups) 0 ++ groups.drop (leadingZeros groups) := by
  induction groups with
  | nil => rfl
  | cons group groups ih =>
    by_cases hgroup : group = 0
    · have hzeros : leadingZeros (group :: groups) = leadingZeros groups + 1 := by
        simp [leadingZeros, hgroup]
      rw [hzeros, List.replicate_succ, List.cons_append, List.drop_succ_cons, ← ih, hgroup]
    · have hzeros : leadingZeros (group :: groups) = 0 := by
        simp [leadingZeros, hgroup]
      rw [hzeros]
      rfl

/-- Where the longest run of zeros is said to be, there are as many zeros. -/
theorem eq_longestZeroRun (groups : List UInt16) :
    groups = groups.take (longestZeroRun groups).1 ++
      List.replicate (longestZeroRun groups).2 0 ++
        groups.drop ((longestZeroRun groups).1 + (longestZeroRun groups).2) := by
  induction groups with
  | nil => rfl
  | cons group groups ih =>
    rw [longestZeroRun]
    dsimp only
    split_ifs with h
    · rw [List.take_zero, List.nil_append, Nat.zero_add]
      exact eq_leadingZeros (group :: groups)
    · rw [List.take_succ_cons, Nat.add_right_comm, List.drop_succ_cons, List.cons_append,
        List.cons_append, ← ih]

theorem isIpv6_mapped {ip : Ipv6} {inner : Ipv4} (h : ip.mapped? = some inner) :
    IsIpv6 ("::ffff:" ++ inner.text).toList ip := by
  unfold Ipv6.mapped? at h
  split at h
  · rename_i high low hgroups
    obtain rfl := Option.some_inj.mp h
    have hfront : AreGroups true false [] [] := .none
    have hback : AreGroups true true
        ("ffff".toList ++ (':' :: (Ipv4.ofGroups high low).text.toList))
        (0xffff :: (Ipv4.ofGroups high low).groups) :=
      .cons (isGroup_toDigits 0xffff) (.dotted (isDotted_text _))
    have htext : ("::ffff:" ++ (Ipv4.ofGroups high low).text).toList = [] ++ ':' :: ':' ::
        ("ffff".toList ++ (':' :: (Ipv4.ofGroups high low).text.toList)) := by
      simp
    rw [htext]
    rw [groups_ofGroups] at hback
    exact .elided hfront hback (show 0 + 3 ≤ 7 by decide) hgroups
  · simp at h

theorem isIpv6_text (ip : Ipv6) : IsIpv6 ip.text.toList ip := by
  rw [Ipv6.text]
  split
  · rename_i inner h
    exact isIpv6_mapped h
  · dsimp only
    split_ifs with hlength
    · have hgroups := eq_longestZeroRun ip.groups
      generalize ip.groups.take (longestZeroRun ip.groups).1 = front at hgroups ⊢
      generalize ip.groups.drop _ = back at hgroups ⊢
      generalize (longestZeroRun ip.groups).2 = zeros at hgroups hlength
      have hsum : front.length + zeros + back.length = 8 := by
        rw [← ip.eight, hgroups, List.length_append, List.length_append, List.length_replicate]
      have htext : (groupsText front ++ "::" ++ groupsText back).toList =
          (groupsText front).toList ++ ':' :: ':' :: (groupsText back).toList := by
        simp
      rw [htext]
      refine .elided (areGroups_groupsText front) (areGroups_groupsText back) (by omega) ?_
      rw [show 8 - (front.length + back.length) = zeros by omega, hgroups]
    · exact .full (areGroups_groupsText ip.groups)

theorem isZone_text (scope : UInt32) :
    IsZone (if scope = 0 then "" else "%" ++ toString scope).toList scope := by
  split_ifs with h
  · rw [h]
    exact .none
  · rw [String.toList_append]
    exact .scope (isNumber_toString scope.toNat)

theorem isAddress_text (address : Address) : IsAddress address.text.toList address := by
  cases address with
  | v4 ip port =>
    have htext : (Address.v4 ip port).text.toList =
        ip.text.toList ++ ':' :: (toString port).toList := by
      simp [Address.text]
    rw [htext]
    exact .v4 (isDotted_text ip) (isNumber_toString port.toNat)
  | v6 ip scope port =>
    have htext : (Address.v6 ip scope port).text.toList = '[' :: (ip.text.toList ++
        (if scope = 0 then "" else "%" ++ toString scope).toList ++
          ']' :: ':' :: (toString port).toList) := by
      simp [Address.text]
    rw [htext]
    exact .v6 (isIpv6_text ip) (isZone_text scope) (isNumber_toString port.toNat)

/-- The text of an address is read as that address. -/
theorem ofText?_text (address : Address) : Address.ofText? address.text = some address :=
  ofText?_eq_some_iff.mpr (isAddress_text address)

theorem text_injective : Function.Injective Address.text := by
  intro first second h
  have hread := ofText?_text first
  rw [h, ofText?_text second] at hread
  exact (Option.some_inj.mp hread).symm

end Intake.Net
