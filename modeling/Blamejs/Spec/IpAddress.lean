import Blamejs.Js.ToNumber

/-!
# What an IP literal says

An address is a number of 32 or of 128 bits. A literal of IPv4 is four decimal bytes
without leading zeros; one of IPv6 is eight groups of hexadecimal digits, of which one run
may be left out for `::` and the last two may be written as an IPv4 literal; a zone may
follow it, which is not part of the address. Whoever reads literals with `net.isIP` reads
these.

An IPv6 address may carry an IPv4 address: as an IPv4-mapped address (`::ffff:0:0/96`), a
6to4 address (`2002::/16`) or a NAT64 address (`64:ff9b::/96`).
-/

namespace Blamejs.IpAddress

open Blamejs.Js

inductive Address where
  | v4 (n : Nat)
  | v6 (n : Nat)
  deriving DecidableEq, Repr

def colon : UInt16 := unit ':'

def dot : UInt16 := unit '.'

def percent : UInt16 := unit '%'

/-! ## Literals -/

/-- A decimal byte, without leading zeros. -/
def octet (p : JsString) : Option Nat :=
  if digitsValue p ≤ 255 ∧ natText (digitsValue p) = p then some (digitsValue p) else none

def readIpv4 (s : JsString) : Option Nat :=
  match s.splitOn dot with
  | [a, b, c, d] => do
      let a ← octet a
      let b ← octet b
      let c ← octet c
      let d ← octet d
      some (a * 2 ^ 24 + b * 2 ^ 16 + c * 2 ^ 8 + d)
  | _ => none

/-- The value of hexadecimal digits. -/
def hexNumber (p : JsString) : Nat := p.foldl (fun n u => 16 * n + digitValue u) 0

/-- One to four hexadecimal digits. -/
def hexGroup (p : JsString) : Option Nat :=
  if p ≠ [] ∧ p.length ≤ 4 ∧ p.all (fun u => digitValue u < 16) then some (hexNumber p) else none

def hexGroups : List JsString → Option (List Nat)
  | [] => some []
  | p :: ps => do
      let g ← hexGroup p
      let gs ← hexGroups ps
      some (g :: gs)

/-- Groups of which the last two may be an IPv4 literal. -/
def groups : List JsString → Option (List Nat)
  | [] => some []
  | [p] =>
      match readIpv4 p with
      | some n => some [n / 65536, n % 65536]
      | none => hexGroups [p]
  | p :: ps => do
      let g ← hexGroup p
      let gs ← groups ps
      some (g :: gs)

/-- The pieces between the colons of what is on one side of `::`. -/
def pieces (s : JsString) : List JsString := if s = [] then [] else s.splitOn colon

/-- What is before the first `::`, and what is behind it. -/
def cutDouble : JsString → Option (JsString × JsString)
  | u :: v :: s =>
      if u = colon ∧ v = colon then some ([], s)
      else (cutDouble (v :: s)).map fun (l, r) => (u :: l, r)
  | _ => none

/-- The eight groups of a literal without its zone. -/
def readBody (body : JsString) : Option (List Nat) :=
  match cutDouble body with
  | none => (groups (pieces body)).filter fun gs => gs.length = 8
  | some (l, r) => do
      let gl ← hexGroups (pieces l)
      let gr ← groups (pieces r)
      if gl.length + gr.length ≤ 7 then
        some (gl ++ List.replicate (8 - gl.length - gr.length) 0 ++ gr)
      else none

def zoneUnit (u : UInt16) : Bool :=
  digitValue u < 36 || u = unit '-' || u = unit '.' || u = unit ':'

def readIpv6 (s : JsString) : Option (List Nat) :=
  match s.dropWhile (· ≠ percent) with
  | [] => readBody s
  | _ :: zone =>
      if zone ≠ [] ∧ zone.all zoneUnit then readBody (s.takeWhile (· ≠ percent)) else none

def groupsValue (gs : List Nat) : Nat := gs.foldl (fun n g => 65536 * n + g) 0

/-- The address of a literal. -/
def read (s : JsString) : Option Address :=
  match readIpv4 s with
  | some n => some (.v4 n)
  | none => (readIpv6 s).map fun gs => .v6 (groupsValue gs)

/-- `net.isIP`. -/
def isIP (s : JsString) : Nat :=
  match read s with
  | none => 0
  | some (.v4 _) => 4
  | some (.v6 _) => 6

/-! ## Blocks -/

/-- The address begins with the first bits of another one of its family. -/
def InBlock : Address → Nat → Address → Prop
  | .v4 m, bits, .v4 n => n / 2 ^ (32 - bits) = m / 2 ^ (32 - bits)
  | .v6 m, bits, .v6 n => n / 2 ^ (128 - bits) = m / 2 ^ (128 - bits)
  | _, _, _ => False

/-- The IPv4 address in an IPv6 address. -/
def carried : Address → Option Address
  | .v4 _ => none
  | .v6 n =>
      if n / 2 ^ 32 = 0xFFFF then some (.v4 (n % 2 ^ 32))
      else if n / 2 ^ 112 = 0x2002 then some (.v4 (n / 2 ^ 80 % 2 ^ 32))
      else if n / 2 ^ 32 = 0x64FF9B * 2 ^ 64 then some (.v4 (n % 2 ^ 32))
      else none

/-- What an address counts as. -/
def Counts (x y : Address) : Prop := y = x ∨ carried x = some y

/-- `169.254.169.254`, `169.254.170.2` and `fd00:ec2::254`. -/
def metadata : List Address :=
  [.v4 0xA9FEA9FE, .v4 0xA9FEAA02, .v6 0xFD000EC2000000000000000000000254]

example : (read (units "::ffff:169.254.169.254")).bind carried = some (.v4 0xA9FEA9FE) := by decide

end Blamejs.IpAddress
