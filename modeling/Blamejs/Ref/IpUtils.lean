import Blamejs.Ref.SsrfGuard

/-!
# IPv6 as text (`lib/ip-utils.js`, `_formatIpv6` of `lib/safe-dns.js`)

A third reading of IPv6 literals and a second writing of them. The pattern for a dotted quad
takes what is behind the last colon, as a quad has none; its dot does not match the end of a
line.
-/

namespace Blamejs.IpUtils

open Blamejs.Js IpAddress SsrfGuard

/-- `25[0-5]|2[0-4]\d|1\d\d|[1-9]?\d`. -/
def octetShape (p : JsString) : Bool :=
  p ≠ [] && p.length ≤ 3 && p.all isDigitUnit && (p.length = 1 || p.head? ≠ some (unit '0')) &&
    digitsValue p ≤ 255

/-- `isIPv4`. -/
def isIPv4 (s : JsString) : Bool := (s.splitOn dot).length = 4 && (s.splitOn dot).all octetShape

/-- `\d{1,3}\.\d{1,3}\.\d{1,3}\.\d{1,3}`. -/
def quadShape (s : JsString) : Bool :=
  (s.splitOn dot).length = 4 &&
    (s.splitOn dot).all fun p => 1 ≤ p.length && p.length ≤ 3 && p.all isDigitUnit

def lineEnds : List UInt16 := [0x0A, 0x0D, 0x2028, 0x2029]

/-- The two groups of the text of an IPv4 address. -/
def quadGroups (quad : JsString) : JsString :=
  let v4 := (quad.splitOn dot).map digitsValue
  hexText (v4.getD 0 0 * 2 ^ 8 + v4.getD 1 0) ++ [colon] ++
    hexText (v4.getD 2 0 * 2 ^ 8 + v4.getD 3 0)

/-- The text with a dotted quad as two groups, `none` where the quad is no IPv4 address. -/
def foldDual (ip : JsString) : Option JsString :=
  let (front, quad) := cutLastColon ip
  if front ≠ [] && quadShape quad && front.all (· ∉ lineEnds) then
    if isIPv4 quad then some (front ++ quadGroups quad) else none
  else some ip

/-- The eight groups; `::` stands for one group at least, and may stand once. -/
def fillGroups (ip : JsString) : Option (List JsString) :=
  match cutDouble ip with
  | none => if (pieces ip).length = 8 then some (pieces ip) else none
  | some (left, rest) =>
      if (cutDouble rest).isSome then none
      else if 8 ≤ (pieces left).length + (pieces rest).length then none
      else some (pieces left ++
        List.replicate (8 - (pieces left).length - (pieces rest).length) (units "0") ++
        pieces rest)

/-- `0-9a-fA-F`. -/
def isHexUnit (u : UInt16) : Bool :=
  (0x30 ≤ u.toNat && u.toNat ≤ 0x39) || (0x61 ≤ u.toNat && u.toNat ≤ 0x66) ||
    (0x41 ≤ u.toNat && u.toNat ≤ 0x46)

def groupOk (g : JsString) : Bool := g ≠ [] && g.length ≤ 4 && g.all isHexUnit

/-- `g.toLowerCase().padStart(4, "0")` of hexadecimal digits. -/
def padGroup (g : JsString) : JsString :=
  List.replicate (4 - g.length) (unit '0') ++ g.map smallUnit

def expandIpv6Hex (ip : JsString) : Option JsString := do
  let ip ← foldDual ip
  let groups ← fillGroups ip
  if groups.all groupOk then some (groups.flatMap padGroup) else none

/-- The bytes that hexadecimal text stands for. -/
def hexBytes : JsString → List Nat
  | u :: v :: rest => (digitValue u * 16 + digitValue v) :: hexBytes rest
  | _ => []

/-! ## `_formatIpv6` -/

/-- One round of the loop. -/
def formatRun (r : Runs) (i group : Nat) : Runs :=
  if group = 0 then
    let cur := r.cur.getD i
    let curLen := r.curLen + 1
    if r.bestLen < curLen then ⟨some cur, curLen, some cur, curLen⟩
    else ⟨r.best, r.bestLen, some cur, curLen⟩
  else ⟨r.best, r.bestLen, none, 0⟩

def formatRuns (r : Runs) (i : Nat) : List Nat → Runs
  | [] => r
  | group :: rest => formatRuns (formatRun r i group) (i + 1) rest

def formatIpv6 (rdata : List Nat) : JsString :=
  let groups := groupsOf rdata
  if (groups.take 5).all (· = 0) && groups.getD 5 0 = 0xFFFF then
    units "::ffff:" ++ dottedAt rdata 12
  else
    let r := formatRuns ⟨none, 0, none, 0⟩ 0 groups
    let hex := groups.map hexText
    if r.bestLen < 2 then [colon].intercalate hex
    else
      [colon].intercalate (hex.take (r.best.getD 0)) ++ units "::" ++
        [colon].intercalate (hex.drop (r.best.getD 0 + r.bestLen))

end Blamejs.IpUtils
