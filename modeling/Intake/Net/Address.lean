import Intake.Arithmetic

/-!
# Socket addresses and their text

An IPv4 address is four octets, an IPv6 address eight groups of sixteen bits. The text of an IPv6
address is the one of RFC 5952: groups in lower case without leading zeros, the first of the longest
runs of at least two zero groups written `::`, and an IPv4-mapped address with its last four octets
in dotted form.
-/

set_option autoImplicit false
set_option relaxedAutoImplicit false

namespace Intake.Net

/-- An IPv4 address, its most significant octet first. -/
structure Ipv4 where
  first : UInt8
  second : UInt8
  third : UInt8
  fourth : UInt8
  deriving DecidableEq, Repr

/-- An IPv6 address, its most significant group first. -/
structure Ipv6 where
  groups : List UInt16
  eight : groups.length = 8
  deriving DecidableEq, Repr

/-- An address a server listens on. The scope of an IPv6 address is zero where none is given. -/
inductive Address
  | v4 (ip : Ipv4) (port : UInt16)
  | v6 (ip : Ipv6) (scope : UInt32) (port : UInt16)
  deriving DecidableEq, Repr

/-- The two groups that hold the octets of an IPv4 address. -/
def Ipv4.groups (ip : Ipv4) : List UInt16 :=
  [ip.first.toUInt16 <<< 8 ||| ip.second.toUInt16, ip.third.toUInt16 <<< 8 ||| ip.fourth.toUInt16]

/-- The octets of two groups. -/
def Ipv4.ofGroups (high low : UInt16) : Ipv4 where
  first := (high >>> 8).toUInt8
  second := high.toUInt8
  third := (low >>> 8).toUInt8
  fourth := low.toUInt8

def Ipv4.text (ip : Ipv4) : String :=
  String.intercalate "."
    [toString ip.first, toString ip.second, toString ip.third, toString ip.fourth]

/-- How many groups at the front are zero. -/
def leadingZeros (groups : List UInt16) : Nat :=
  (groups.takeWhile (· == 0)).length

/-- Where the first of the longest runs of zero groups starts, and its length. -/
def longestZeroRun : List UInt16 → Nat × Nat
  | [] => (0, 0)
  | group :: groups =>
    let here := leadingZeros (group :: groups)
    let (start, length) := longestZeroRun groups
    if length ≤ here then (0, here) else (start + 1, length)

/-- Groups in hexadecimal, a colon between two of them. -/
def groupsText (groups : List UInt16) : String :=
  String.intercalate ":" (groups.map fun group ↦ String.ofList (Nat.toDigits 16 group.toNat))

/-- The IPv4 address that an IPv4-mapped address stands for. -/
def Ipv6.mapped? (ip : Ipv6) : Option Ipv4 :=
  match ip.groups with
  | [0, 0, 0, 0, 0, 0xffff, high, low] => some (.ofGroups high low)
  | _ => none

def Ipv6.text (ip : Ipv6) : String :=
  match ip.mapped? with
  | some inner => "::ffff:" ++ inner.text
  | none =>
    let (start, length) := longestZeroRun ip.groups
    if 2 ≤ length then
      groupsText (ip.groups.take start) ++ "::" ++ groupsText (ip.groups.drop (start + length))
    else groupsText ip.groups

namespace Address

def isV6 : Address → Bool
  | v4 .. => false
  | v6 .. => true

def port : Address → UInt16
  | v4 _ port => port
  | v6 _ _ port => port

/-- The address as it is written, with a scope only where it is not zero. -/
def text : Address → String
  | v4 ip port => ip.text ++ ":" ++ toString port
  | v6 ip scope port =>
    let zone := if scope = 0 then "" else "%" ++ toString scope
    "[" ++ ip.text ++ zone ++ "]:" ++ toString port

end Address

end Intake.Net
