import Intake.Net.Address

/-!
# Reading a socket address

The text is read from the left, each part taking as much as it can. An IPv6 address is eight groups,
or some groups, `::` and at most seven groups altogether; the last two groups may be written as a
dotted IPv4 address, but not in front of `::`. Octets are decimal without leading zeros; ports and
scopes may have any number of digits as long as the value fits.
-/

set_option autoImplicit false
set_option relaxedAutoImplicit false

namespace Intake.Net

/-- The address with these groups, if they are eight. -/
def Ipv6.ofGroups? (groups : List UInt16) : Option Ipv6 :=
  if eight : groups.length = 8 then some ⟨groups, eight⟩ else none

namespace Reader

/-- The value of a digit, where letters count from ten. -/
def digit? (radix : Nat) (c : Char) : Option Nat :=
  let value :=
    if '0' ≤ c ∧ c ≤ '9' then c.toNat - 48
    else if 'a' ≤ c ∧ c ≤ 'f' then c.toNat - 87
    else if 'A' ≤ c ∧ c ≤ 'F' then c.toNat - 55
    else radix
  if value < radix then some value else none

/-- The digits at the front, and what follows them. -/
def digits (radix : Nat) : List Char → List Nat × List Char
  | [] => ([], [])
  | c :: s =>
    match digit? radix c with
    | some d =>
      let (ds, rest) := digits radix s
      (d :: ds, rest)
    | none => ([], c :: s)

/-- The number that digits stand for, the most significant one first. -/
def ofDigits (radix : Nat) (ds : List Nat) : Nat :=
  ds.foldl (fun n d ↦ n * radix + d) 0

/-- What follows the given character. -/
def literal (c : Char) : List Char → Option (List Char)
  | [] => none
  | d :: s => if d = c then some s else none

/-- A decimal number below `bound`, of any number of digits. -/
def decimalBelow (bound : Nat) (s : List Char) : Option (Nat × List Char) :=
  match digits 10 s with
  | ([], _) => none
  | (ds, rest) => if ofDigits 10 ds < bound then some (ofDigits 10 ds, rest) else none

/-- A decimal number of up to three digits that is an octet and has no leading zero. -/
def octet (s : List Char) : Option (UInt8 × List Char) :=
  match digits 10 s with
  | ([], _) => none
  | (ds, rest) =>
    if 3 < ds.length ∨ (ds.head? = some 0 ∧ 1 < ds.length) ∨ 255 < ofDigits 10 ds then none
    else some ((ofDigits 10 ds).toUInt8, rest)

/-- A hexadecimal number of up to four digits. -/
def group (s : List Char) : Option (UInt16 × List Char) :=
  match digits 16 s with
  | ([], _) => none
  | (ds, rest) => if 4 < ds.length then none else some ((ofDigits 16 ds).toUInt16, rest)

/-- Four octets with dots between them. -/
def dotted (s : List Char) : Option (Ipv4 × List Char) := do
  let (first, s) ← octet s
  let s ← literal '.' s
  let (second, s) ← octet s
  let s ← literal '.' s
  let (third, s) ← octet s
  let s ← literal '.' s
  let (fourth, s) ← octet s
  return (⟨first, second, third, fourth⟩, s)

/-- A part that has a colon in front of it unless it is the first. -/
def separated {α : Type} (first : Bool) (part : List Char → Option (α × List Char))
    (s : List Char) : Option (α × List Char) := do
  if first then part s
  else
    let s ← literal ':' s
    part s

/-- Groups read off the front of a text. -/
structure Groups where
  groups : List UInt16
  /-- Whether the last two groups were written as an IPv4 address. -/
  endsDotted : Bool
  rest : List Char

/-- As many groups as there are, up to `room`. An IPv4 address needs room for two. -/
def groupsUpTo : (room : Nat) → (first : Bool) → List Char → Groups
  | 0, _, s => ⟨[], false, s⟩
  | room + 1, first, s =>
    match if room = 0 then none else separated first dotted s with
    | some (ip, rest) => ⟨ip.groups, true, rest⟩
    | none =>
      match separated first group s with
      | some (g, rest) =>
        let more := groupsUpTo room false rest
        { more with groups := g :: more.groups }
      | none => ⟨[], false, s⟩

/-- Eight groups, or two runs of groups with `::` for the zero groups between them. -/
def ipv6 (s : List Char) : Option (Ipv6 × List Char) := do
  let head := groupsUpTo 8 true s
  if head.groups.length = 8 then
    let ip ← Ipv6.ofGroups? head.groups
    return (ip, head.rest)
  else if head.endsDotted then none
  else
    let s ← literal ':' head.rest
    let s ← literal ':' s
    let tail := groupsUpTo (7 - head.groups.length) true s
    let zeros := List.replicate (8 - head.groups.length - tail.groups.length) 0
    let ip ← Ipv6.ofGroups? (head.groups ++ zeros ++ tail.groups)
    return (ip, tail.rest)

/-- A colon and a port. -/
def port (s : List Char) : Option (UInt16 × List Char) := do
  let s ← literal ':' s
  let (n, s) ← decimalBelow (2 ^ 16) s
  return (n.toUInt16, s)

/-- A percent sign and a scope, or nothing, which is scope zero. -/
def scope (s : List Char) : UInt32 × List Char :=
  match literal '%' s with
  | some inner =>
    match decimalBelow (2 ^ 32) inner with
    | some (n, rest) => (n.toUInt32, rest)
    | none => (0, s)
  | none => (0, s)

def socketV4 (s : List Char) : Option (Address × List Char) := do
  let (ip, s) ← dotted s
  let (p, s) ← port s
  return (.v4 ip p, s)

def socketV6 (s : List Char) : Option (Address × List Char) := do
  let s ← literal '[' s
  let (ip, s) ← ipv6 s
  let (zone, s) := scope s
  let s ← literal ']' s
  let (p, s) ← port s
  return (.v6 ip zone p, s)

end Reader

/-- The address that the whole text is. -/
def Address.ofText? (text : String) : Option Address :=
  match Reader.socketV4 text.toList <|> Reader.socketV6 text.toList with
  | some (address, []) => some address
  | _ => none

end Intake.Net
