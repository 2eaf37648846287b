import Intake.Proofs.Net.Numbers

/-!
# Addresses as they are written

The grammar of addresses says which texts there are, and what they stand for, without a word on the
order in which they are read (`IsAddress`). The reader goes through the groups of an IPv6 address
from the left and takes as many as it can, a dotted end before a group. It can do so because what
follows groups is never read as part of one (`EndsGroups`), and because a dotted end never begins
where a group stands that has a colon behind it. So it reads all texts of the grammar and no others
(`ofText?_eq_some_iff`).
-/

set_option autoImplicit false
set_option relaxedAutoImplicit false

namespace Intake.Net

/-! ### The grammar -/

/-- Four octets with dots between them. -/
inductive IsDotted : List Char → Ipv4 → Prop
  | octets {a b c d : List Char} {ip : Ipv4} (hfirst : IsOctet a ip.first)
    (hsecond : IsOctet b ip.second) (hthird : IsOctet c ip.third) (hfourth : IsOctet d ip.fourth) :
    IsDotted (a ++ '.' :: (b ++ '.' :: (c ++ '.' :: d))) ip

/-- What stands in front of a part: a colon, unless it is the first. -/
def separator (first : Bool) : List Char :=
  if first then [] else [':']

/-- Groups with colons between them, none at all included. At the end, and only there, two of them
may be written as an IPv4 address. -/
inductive AreGroups : (first endsDotted : Bool) → List Char → List UInt16 → Prop
  | none {first : Bool} : AreGroups first false [] []
  | dotted {first : Bool} {text : List Char} {ip : Ipv4} (hip : IsDotted text ip) :
    AreGroups first true (separator first ++ text) ip.groups
  | cons {first endsDotted : Bool} {text more : List Char} {group : UInt16} {groups : List UInt16}
    (hgroup : IsGroup text group) (hmore : AreGroups false endsDotted more groups) :
    AreGroups first endsDotted (separator first ++ text ++ more) (group :: groups)

/-- Eight groups, or at most seven with `::` for zero groups at one place. -/
inductive IsIpv6 : List Char → Ipv6 → Prop
  | full {endsDotted : Bool} {text : List Char} {ip : Ipv6}
    (hgroups : AreGroups true endsDotted text ip.groups) : IsIpv6 text ip
  | elided {endsDotted : Bool} {head tail : List Char} {front back : List UInt16} {ip : Ipv6}
    (hfront : AreGroups true false head front) (hback : AreGroups true endsDotted tail back)
    (hlength : front.length + back.length ≤ 7)
    (hip : ip.groups = front ++ List.replicate (8 - (front.length + back.length)) 0 ++ back) :
    IsIpv6 (head ++ ':' :: ':' :: tail) ip

/-- Nothing for scope zero, or a percent sign and a scope. -/
inductive IsZone : List Char → UInt32 → Prop
  | none : IsZone [] 0
  | scope {text : List Char} {scope : UInt32} (hscope : IsNumber 10 text scope.toNat) :
    IsZone ('%' :: text) scope

/-- The text of an address with its port. Ports and scopes may begin with any number of zeros. -/
inductive IsAddress : List Char → Address → Prop
  | v4 {text digits : List Char} {ip : Ipv4} {port : UInt16} (hip : IsDotted text ip)
    (hport : IsNumber 10 digits port.toNat) : IsAddress (text ++ ':' :: digits) (.v4 ip port)
  | v6 {text zone digits : List Char} {ip : Ipv6} {scope : UInt32} {port : UInt16}
    (hip : IsIpv6 text ip) (hzone : IsZone zone scope) (hport : IsNumber 10 digits port.toNat) :
    IsAddress ('[' :: (text ++ zone ++ ']' :: ':' :: digits)) (.v6 ip scope port)

namespace Reader

variable {c : Char} {s text rest : List Char}

/-! ### Reading dotted addresses -/

theorem literal_eq_some_iff : literal c s = some rest ↔ s = c :: rest := by
  cases s with
  | nil => simp [literal]
  | cons d s => simp [literal]

theorem dotted_eq_some_iff {ip : Ipv4} :
    dotted s = some (ip, rest) ↔
      ∃ text, s = text ++ rest ∧ IsDotted text ip ∧ EndsDigits 10 rest := by
  have hdot : ∀ more, EndsDigits 10 ('.' :: more) := fun more ↦ endsDigits_cons.mpr (by decide)
  simp only [dotted, Option.bind_eq_bind, Option.bind_eq_some_iff, Option.pure_def, Prod.exists,
    Option.some_inj, Prod.mk.injEq, octet_eq_some_iff, literal_eq_some_iff]
  constructor
  · rintro ⟨a, _, ⟨ta, rfl, ha, -⟩, _, rfl, b, _, ⟨tb, rfl, hb, -⟩, _, rfl, c, _, ⟨tc, rfl, hc, -⟩,
      _, rfl, d, _, ⟨td, rfl, hd, hrest⟩, rfl, rfl⟩
    exact ⟨_, by simp, .octets ha hb hc hd, hrest⟩
  · rintro ⟨_, rfl, ⟨ha, hb, hc, hd⟩, hrest⟩
    simp only [List.append_assoc, List.cons_append]
    exact ⟨_, _, ⟨_, rfl, ha, hdot _⟩, _, rfl, _, _, ⟨_, rfl, hb, hdot _⟩, _, rfl,
      _, _, ⟨_, rfl, hc, hdot _⟩, _, rfl, _, _, ⟨_, rfl, hd, hrest⟩, rfl, rfl⟩

theorem separated_eq_some_iff {α : Type} {first : Bool} {part : List Char → Option (α × List Char)}
    {x : α × List Char} :
    separated first part s = some x ↔ ∃ more, s = separator first ++ more ∧ part more = some x := by
  cases first with
  | true => simp [separated, separator]
  | false => simp [separated, separator, Option.bind_eq_some_iff, literal_eq_some_iff]

theorem separated_separator {α : Type} (first : Bool) (part : List Char → Option (α × List Char))
    (s : List Char) : separated first part (separator first ++ s) = part s := by
  cases first with
  | true => rfl
  | false => rfl

/-! ### Reading groups -/

/-- No group follows: neither a hexadecimal digit nor a dot, and no digit behind a colon. -/
structure EndsGroups (rest : List Char) : Prop where
  digits : EndsDigits 16 rest
  dot : ∀ c ∈ rest.head?, c ≠ '.'
  behind_colon : ∀ more, rest = ':' :: more → EndsDigits 16 more

theorem isDigit_of_decimal {d : Nat} (h : IsDigit 10 c d) : IsDigit 16 c d :=
  ⟨h.1.trans (by decide), h.2⟩

theorem EndsDigits.decimal (h : EndsDigits 16 rest) : EndsDigits 10 rest := by
  intro c hc
  rw [digit?_eq_filter (by decide), h c hc]
  rfl

/-- What was read as a group is not the front of a dotted address. -/
theorem dotted_eq_none_of_isGroup {g : UInt16} (hgroup : IsGroup text g)
    (hrest : EndsDigits 16 rest) (hdot : ∀ c ∈ rest.head?, c ≠ '.') :
    dotted (text ++ rest) = none := by
  rw [Option.eq_none_iff_forall_ne_some]
  rintro ⟨ip, behind⟩ h
  obtain ⟨_, heq, ⟨ha, -, -, -⟩, -⟩ := dotted_eq_some_iff.mp h
  rw [List.append_assoc, List.cons_append] at heq
  obtain ⟨-, ds, htext, -⟩ := hgroup.number
  obtain ⟨-, es, hoctet, -⟩ := ha.number
  -- both the group and the octet are all the digits in front
  have hgroups := (digits_eq_iff le_rfl).mpr ⟨text, rfl, htext, hrest⟩
  have hoctets := (digits_eq_iff le_rfl).mpr
    ⟨_, heq, hoctet.imp fun _ _ ↦ isDigit_of_decimal, endsDigits_cons.mpr (by decide)⟩
  have hsame := (Prod.mk.inj (hgroups.symm.trans hoctets)).2
  exact hdot '.' (by rw [hsame]; rfl) rfl

theorem IsNumber.not_endsDigits {radix n : Nat} (hradix : radix ≤ 16) (h : IsNumber radix text n) :
    ¬ EndsDigits radix (text ++ rest) := by
  obtain ⟨hne, ds, htext, -⟩ := h
  cases htext with
  | nil => exact absurd rfl hne
  | cons hc htext =>
    intro hends
    rw [List.cons_append, endsDigits_cons, (digit?_eq_some_iff hradix).mpr hc] at hends
    exact absurd hends (by simp)

theorem dotted_eq_none (hrest : EndsDigits 16 rest) : dotted rest = none := by
  rw [Option.eq_none_iff_forall_ne_some]
  rintro ⟨ip, behind⟩ h
  obtain ⟨_, rfl, ⟨ha, -, -, -⟩, -⟩ := dotted_eq_some_iff.mp h
  rw [List.append_assoc] at hrest
  exact IsNumber.not_endsDigits (by decide) ha.number hrest.decimal

theorem group_eq_none (hrest : EndsDigits 16 rest) : group rest = none := by
  rw [Option.eq_none_iff_forall_ne_some]
  rintro ⟨g, behind⟩ h
  obtain ⟨_, rfl, hgroup, -⟩ := group_eq_some_iff.mp h
  exact IsNumber.not_endsDigits le_rfl hgroup.number hrest

/-- No part is read where no group follows. -/
theorem separated_eq_none {α : Type} {part : List Char → Option (α × List Char)}
    (hpart : ∀ more, EndsDigits 16 more → part more = none) (first : Bool)
    (hrest : EndsGroups rest) : separated first part rest = none := by
  rw [Option.eq_none_iff_forall_ne_some]
  intro x h
  obtain ⟨more, heq, hmore⟩ := separated_eq_some_iff.mp h
  have hends : EndsDigits 16 more := by
    cases first with
    | true =>
      rw [← show rest = more from heq]
      exact hrest.digits
    | false => exact hrest.behind_colon more heq
  rw [hpart more hends] at hmore
  exact absurd hmore (by simp)

theorem areGroups_groupsUpTo (room : Nat) (first : Bool) (s : List Char) :
    ∃ text, s = text ++ (groupsUpTo room first s).rest ∧
      AreGroups first (groupsUpTo room first s).endsDotted text (groupsUpTo room first s).groups ∧
      (groupsUpTo room first s).groups.length ≤ room := by
  fun_induction groupsUpTo room first s with
  | case1 first s => exact ⟨[], rfl, .none, le_rfl⟩
  | case2 room first s ip rest h =>
    split_ifs at h with hroom
    obtain ⟨more, rfl, hdotted⟩ := separated_eq_some_iff.mp h
    obtain ⟨text, rfl, hip, -⟩ := dotted_eq_some_iff.mp hdotted
    refine ⟨_, (List.append_assoc _ _ _).symm, .dotted hip, ?_⟩
    show 2 ≤ room + 1
    omega
  | case3 room first s h g rest hseparated more ih =>
    obtain ⟨behind, rfl, hgroup⟩ := separated_eq_some_iff.mp hseparated
    obtain ⟨text, rfl, hg, -⟩ := group_eq_some_iff.mp hgroup
    obtain ⟨texts, hrest, hmore, hlength⟩ := ih
    refine ⟨separator first ++ text ++ texts, ?_, .cons hg hmore, Nat.succ_le_succ hlength⟩
    simp only [List.append_assoc]
    rw [← hrest]
  | case4 room first s h hseparated => exact ⟨[], rfl, .none, Nat.zero_le _⟩

/-- Behind a group there is a colon or what is behind all groups. -/
theorem AreGroups.ends {endsDotted : Bool} {groups : List UInt16}
    (h : AreGroups false endsDotted text groups) (hrest : EndsGroups rest) :
    EndsDigits 16 (text ++ rest) ∧ ∀ c ∈ (text ++ rest).head?, c ≠ '.' := by
  have hcolon : ∀ more, EndsDigits 16 (':' :: more) ∧ ∀ c ∈ (':' :: more).head?, c ≠ '.' :=
    fun more ↦ ⟨endsDigits_cons.mpr (by decide), by simp⟩
  cases h with
  | none => exact ⟨hrest.digits, hrest.dot⟩
  | dotted hip => exact hcolon _
  | cons hgroup hmore => exact hcolon _

/-- Groups are read as they are where none follows, if there is room for them. -/
theorem groupsUpTo_eq {first endsDotted : Bool} {groups : List UInt16}
    (hgroups : AreGroups first endsDotted text groups) {room : Nat} (hroom : groups.length ≤ room)
    (hrest : EndsGroups rest) :
    groupsUpTo room first (text ++ rest) = ⟨groups, endsDotted, rest⟩ := by
  induction hgroups generalizing room with
  | @none first =>
    cases room with
    | zero => rfl
    | succ room =>
      have hdotted : separated first dotted rest = none :=
        separated_eq_none (fun _ ↦ dotted_eq_none) first hrest
      have hgroup : separated first group rest = none :=
        separated_eq_none (fun _ ↦ group_eq_none) first hrest
      simp only [groupsUpTo, List.nil_append, hdotted, hgroup, ite_self]
  | @dotted first text ip hip =>
    obtain ⟨room, rfl⟩ : ∃ more, room = more + 2 := Nat.exists_eq_add_of_le' hroom
    have hread : dotted (text ++ rest) = some (ip, rest) :=
      dotted_eq_some_iff.mpr ⟨text, rfl, hip, hrest.digits.decimal⟩
    rw [List.append_assoc, groupsUpTo, if_neg (Nat.succ_ne_zero room), separated_separator, hread]
  | @cons first endsDotted text more g groups hgroup hmore ih =>
    obtain ⟨room, rfl⟩ : ∃ more, room = more + 1 :=
      Nat.exists_eq_add_of_le' (Nat.succ_le_of_lt ((Nat.succ_pos _).trans_le hroom))
    obtain ⟨hdigits, hdot⟩ := AreGroups.ends hmore hrest
    have hdotted : dotted (text ++ (more ++ rest)) = none :=
      dotted_eq_none_of_isGroup hgroup hdigits hdot
    have hread : group (text ++ (more ++ rest)) = some (g, more ++ rest) :=
      group_eq_some_iff.mpr ⟨text, rfl, hgroup, hdigits⟩
    simp only [List.append_assoc, groupsUpTo, separated_separator, hdotted, hread, ite_self,
      ih (Nat.le_of_succ_le_succ hroom)]

/-! ### Reading addresses -/

theorem ofGroups?_eq_some_iff {groups : List UInt16} {ip : Ipv6} :
    Ipv6.ofGroups? groups = some ip ↔ ip.groups = groups := by
  unfold Ipv6.ofGroups?
  constructor
  · intro h
    split_ifs at h with height
    rw [← Option.some_inj.mp h]
  · rintro rfl
    rw [dif_pos ip.eight]

theorem exists_of_ipv6 {ip : Ipv6} (h : ipv6 s = some (ip, rest)) :
    ∃ text, s = text ++ rest ∧ IsIpv6 text ip := by
  obtain ⟨head, hs, hfront, hlength⟩ := areGroups_groupsUpTo 8 true s
  rw [ipv6] at h
  dsimp only at h
  split_ifs at h with hfull hdotted
  · simp only [Option.bind_eq_bind, Option.bind_eq_some_iff, Option.pure_def, Option.some_inj,
      Prod.mk.injEq, ofGroups?_eq_some_iff] at h
    obtain ⟨ip, hip, rfl, rfl⟩ := h
    exact ⟨head, hs, .full (hip ▸ hfront)⟩
  · simp only [Option.bind_eq_bind, Option.bind_eq_some_iff, Option.pure_def, Option.some_inj,
      Prod.mk.injEq, ofGroups?_eq_some_iff, literal_eq_some_iff] at h
    obtain ⟨_, hcolon, behind, rfl, ip, hip, rfl, rfl⟩ := h
    obtain ⟨tail, hbehind, hback, hlengths⟩ := areGroups_groupsUpTo
      (7 - (groupsUpTo 8 true s).groups.length) true behind
    rw [Bool.not_eq_true] at hdotted
    rw [hdotted] at hfront
    refine ⟨head ++ ':' :: ':' :: tail, ?_, .elided hfront hback (by omega) ?_⟩
    · rw [List.append_assoc, List.cons_append, List.cons_append, ← hbehind, ← hcolon, ← hs]
    · rw [hip, Nat.sub_sub]

/-- What stands behind an address in brackets. -/
def EndsIpv6 (rest : List Char) : Prop :=
  rest.head? = some '%' ∨ rest.head? = some ']'

theorem EndsIpv6.endsGroups (h : EndsIpv6 rest) : EndsGroups rest := by
  cases rest with
  | nil => exact absurd h (by simp [EndsIpv6])
  | cons c rest =>
    have hc : c = '%' ∨ c = ']' := by simpa [EndsIpv6] using h
    obtain rfl | rfl := hc
    · exact ⟨endsDigits_cons.mpr (by decide), by simp, by simp⟩
    · exact ⟨endsDigits_cons.mpr (by decide), by simp, by simp⟩

theorem endsGroups_elision (more : List Char) : EndsGroups (':' :: ':' :: more) where
  digits := endsDigits_cons.mpr (by decide)
  dot := by simp
  behind_colon := by
    rintro _ ⟨⟩
    exact endsDigits_cons.mpr (by decide)

theorem ipv6_eq {ip : Ipv6} (h : IsIpv6 text ip) (hrest : EndsIpv6 rest) :
    ipv6 (text ++ rest) = some (ip, rest) := by
  cases h with
  | full hgroups =>
    have hread := groupsUpTo_eq hgroups ip.eight.le hrest.endsGroups
    simp only [ipv6, hread, ip.eight, if_true, ofGroups?_eq_some_iff.mpr rfl]
    rfl
  | @elided endsDotted head tail front back ip hfront hback hlength hip =>
    have hroom : front.length ≤ 8 := by omega
    have hrooms : back.length ≤ 7 - front.length := by omega
    have hhead := groupsUpTo_eq hfront hroom (endsGroups_elision (tail ++ rest))
    have htail := groupsUpTo_eq hback hrooms hrest.endsGroups
    have hnot : front.length ≠ 8 := by omega
    rw [← Nat.sub_sub, List.append_assoc] at hip
    simp only [ipv6, List.append_assoc, List.cons_append, hhead, hnot, if_false, Bool.false_eq_true,
      literal, if_true, htail, Option.bind_eq_bind, Option.bind_some,
      ofGroups?_eq_some_iff.mpr hip]
    rfl

theorem port_eq_some_iff {p : UInt16} :
    port s = some (p, rest) ↔
      ∃ text, s = ':' :: (text ++ rest) ∧ IsNumber 10 text p.toNat ∧ EndsDigits 10 rest := by
  simp only [port, Option.bind_eq_bind, Option.bind_eq_some_iff, Option.pure_def, Prod.exists,
    Option.some_inj, Prod.mk.injEq, decimalBelow_eq_some_iff, literal_eq_some_iff]
  constructor
  · rintro ⟨_, rfl, n, _, ⟨text, rfl, ⟨hn, hlt⟩, hrest⟩, rfl, rfl⟩
    refine ⟨text, rfl, ?_, hrest⟩
    rwa [show n.toUInt16.toNat = n from Nat.mod_eq_of_lt hlt]
  · rintro ⟨text, rfl, hn, hrest⟩
    exact ⟨_, rfl, _, _, ⟨text, rfl, ⟨hn, p.toNat_lt⟩, hrest⟩, UInt16.ofNat_toNat, rfl⟩

theorem isZone_scope (s : List Char) :
    ∃ text, s = text ++ (scope s).2 ∧ IsZone text (scope s).1 := by
  unfold scope
  split
  · rename_i inner hinner
    obtain rfl := literal_eq_some_iff.mp hinner
    split
    · rename_i n rest hread
      obtain ⟨text, rfl, ⟨hn, hlt⟩, -⟩ := decimalBelow_eq_some_iff.mp hread
      refine ⟨'%' :: text, rfl, .scope ?_⟩
      rwa [show n.toUInt32.toNat = n from Nat.mod_eq_of_lt hlt]
    · exact ⟨[], rfl, .none⟩
  · exact ⟨[], rfl, .none⟩

theorem scope_eq {z : UInt32} (h : IsZone text z) (more : List Char) :
    scope (text ++ ']' :: more) = (z, ']' :: more) := by
  cases h with
  | none => rfl
  | @scope text z hscope =>
    have hread : decimalBelow (2 ^ 32) (text ++ ']' :: more) = some (z.toNat, ']' :: more) :=
      decimalBelow_eq_some_iff.mpr ⟨text, rfl, ⟨hscope, z.toNat_lt⟩,
        endsDigits_cons.mpr (by decide)⟩
    simp only [scope, List.cons_append, literal, if_true, hread]
    exact Prod.ext UInt32.ofNat_toNat rfl

theorem socketV4_eq_some_iff {address : Address} :
    socketV4 s = some (address, rest) ↔ ∃ text ip digits p, s = text ++ ':' :: (digits ++ rest) ∧
      IsDotted text ip ∧ IsNumber 10 digits p.toNat ∧ EndsDigits 10 rest ∧ address = .v4 ip p := by
  simp only [socketV4, Option.bind_eq_bind, Option.bind_eq_some_iff, Option.pure_def, Prod.exists,
    Option.some_inj, Prod.mk.injEq, dotted_eq_some_iff, port_eq_some_iff]
  constructor
  · rintro ⟨ip, _, ⟨text, rfl, hip, -⟩, p, _, ⟨digits, rfl, hp, hrest⟩, rfl, rfl⟩
    exact ⟨text, ip, digits, p, rfl, hip, hp, hrest, rfl⟩
  · rintro ⟨text, ip, digits, p, rfl, hip, hp, hrest, rfl⟩
    exact ⟨ip, _, ⟨text, rfl, hip, endsDigits_cons.mpr (by decide)⟩, p, _,
      ⟨digits, rfl, hp, hrest⟩, rfl, rfl⟩

theorem socketV6_eq_some_iff {address : Address} :
    socketV6 s = some (address, rest) ↔ ∃ text zone digits ip z p,
      s = '[' :: (text ++ (zone ++ ']' :: ':' :: (digits ++ rest))) ∧ IsIpv6 text ip ∧
        IsZone zone z ∧ IsNumber 10 digits p.toNat ∧ EndsDigits 10 rest ∧
          address = .v6 ip z p := by
  constructor
  · intro h
    simp only [socketV6, Option.bind_eq_bind, Option.bind_eq_some_iff, Option.pure_def,
      Prod.exists, Option.some_inj, Prod.mk.injEq, literal_eq_some_iff, port_eq_some_iff] at h
    obtain ⟨_, rfl, ip, behind, hip, _, hbracket, p, _, ⟨digits, rfl, hp, hrest⟩, rfl, rfl⟩ := h
    obtain ⟨text, rfl, htext⟩ := exists_of_ipv6 hip
    obtain ⟨zone, hzone, hscope⟩ := isZone_scope behind
    rw [hbracket] at hzone
    exact ⟨text, zone, digits, ip, _, p, by rw [hzone], htext, hscope, hp, hrest, rfl⟩
  · rintro ⟨text, zone, digits, ip, z, p, rfl, hip, hzone, hp, hrest, rfl⟩
    have hends : EndsIpv6 (zone ++ ']' :: ':' :: (digits ++ rest)) := by
      cases hzone with
      | none => exact Or.inr rfl
      | scope hscope => exact Or.inl rfl
    have hport : port (':' :: (digits ++ rest)) = some (p, rest) :=
      port_eq_some_iff.mpr ⟨digits, rfl, hp, hrest⟩
    simp only [socketV6, literal, if_true, Option.bind_eq_bind, Option.bind_some, ipv6_eq hip hends,
      scope_eq hzone, hport]
    rfl

/-- No text begins both as a dotted address and with a bracket. -/
theorem socketV4_bracket (s : List Char) : socketV4 ('[' :: s) = none := by
  rw [socketV4, dotted_eq_none (endsDigits_cons.mpr (by decide))]
  rfl

end Reader

open Reader in
/-- The texts of addresses are those that are read, and they are read as what they say. -/
theorem ofText?_eq_some_iff {text : String} {address : Address} :
    Address.ofText? text = some address ↔ IsAddress text.toList address := by
  have hends : ∀ radix, EndsDigits radix [] := fun _ ↦ nofun
  have hread : Address.ofText? text = some address ↔
      (socketV4 text.toList <|> socketV6 text.toList) = some (address, []) := by
    rw [Address.ofText?]
    split
    · rename_i found h
      simp [h]
    · rename_i h
      simpa using h address
  rw [hread]
  constructor
  · intro h
    cases h4 : socketV4 text.toList with
    | some found =>
      obtain rfl : found = (address, []) := by simpa [h4] using h
      obtain ⟨front, ip, digits, p, htext, hip, hp, -, rfl⟩ := socketV4_eq_some_iff.mp h4
      rw [htext, List.append_nil]
      exact .v4 hip hp
    | none =>
      obtain ⟨front, zone, digits, ip, z, p, htext, hip, hzone, hp, -, rfl⟩ :=
        socketV6_eq_some_iff.mp (by simpa [h4] using h)
      rw [htext, List.append_nil, ← List.append_assoc]
      exact .v6 hip hzone hp
  · intro h
    generalize text.toList = s at h
    cases h with
    | v4 hip hp =>
      rw [socketV4_eq_some_iff.mpr ⟨_, _, _, _, by rw [List.append_nil], hip, hp, hends 10, rfl⟩]
      rfl
    | v6 hip hzone hp =>
      rw [socketV4_bracket, socketV6_eq_some_iff.mpr ⟨_, _, _, _, _, _,
        by rw [List.append_nil, List.append_assoc], hip, hzone, hp, hends 10, rfl⟩]
      rfl

end Intake.Net
