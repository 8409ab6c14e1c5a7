import Blamejs.Js.LowerCase
import Blamejs.Spec.IpAddress

/-!
# The egress allowlist (`lib/ssrf-guard.js`)

Texts of addresses are those of `net.isIP`. The URL parser and the resolver are parameters,
and so are the case data of Unicode.
-/

namespace Blamejs.SsrfGuard

open Blamejs.Js IpAddress

inductive Err where
  | badEntry
  | emptyAllowlist
  | badUrl
  | notOnAllowlist
  | onDenylist
  | noHostname
  | lookupFailed
  | blockedCloudMetadata
  deriving DecidableEq, Repr

/-- What `new URL(url)` gives of a URL. -/
structure Url where
  hostname : JsString
  href : JsString

structure Platform where
  cases : CaseTable
  /-- `new URL(url)`, none where it throws. -/
  parse : JsString → Option Url
  /-- `safeUrl.parse(url).hostname`. -/
  safeParse : JsString → Option JsString
  /-- The addresses of a host name, none where the lookup rejects. -/
  lookup : JsString → Option (List JsString)

/-! ## Addresses -/

/-- `_ipv4ToInt`. -/
def ipv4ToInt (ip : JsString) : Option Nat :=
  match ip.splitOn dot with
  | [a, b, c, d] =>
      if [a, b, c, d].all fun s =>
          s ≠ [] && s.length ≤ 3 && s.all isDigitUnit && digitsValue s ≤ 255 then
        some (digitsValue a * 2 ^ 24 + digitsValue b * 2 ^ 16 + digitsValue c * 2 ^ 8 +
          digitsValue d)
      else none
  | _ => none

/-- `_ipv4ToBytes`. -/
def ipv4ToBytes (ip : JsString) : Option (List Nat) :=
  (ipv4ToInt ip).map fun n => [n / 2 ^ 24 % 256, n / 2 ^ 16 % 256, n / 2 ^ 8 % 256, n % 256]

/-- `n.toString(16)`. -/
def hexText (n : Nat) : JsString := (Nat.toDigits 16 n).map unit

/-- The text in front of the last colon, with the colon, and the text behind it. -/
def cutLastColon (s : JsString) : JsString × JsString :=
  let tail := (s.reverse.takeWhile (· ≠ colon)).reverse
  (s.take (s.length - tail.length), tail)

/-- An IPv4 tail as two groups. -/
def expandTail (lower : JsString) : JsString :=
  let (front, tail) := cutLastColon lower
  if front ≠ [] ∧ dot ∈ tail then
    let n := (ipv4ToInt tail).getD 0
    front ++ hexText (n / 2 ^ 16 % 2 ^ 16) ++ [colon] ++ hexText (n % 2 ^ 16)
  else lower

/-- `_expandIpv6`. -/
def expandIpv6 (T : CaseTable) (ip : JsString) : List JsString :=
  let lower := expandTail (toLowerCase T (ip.takeWhile (· ≠ percent)))
  let (left, right) := match cutDouble lower with
    | none => (pieces lower, [])
    | some (l, r) => (pieces l, pieces r)
  left ++ List.replicate (8 - left.length - right.length) (units "0") ++ right

/-- `parseInt(s, 16) || 0`. -/
def parseHex (s : JsString) : Nat := hexNumber (s.takeWhile fun u => digitValue u < 16)

/-- `_ipv6ToBytes`. -/
def ipv6ToBytes (T : CaseTable) (ip : JsString) : List Nat :=
  ((expandIpv6 T ip).take 8).flatMap fun group =>
    [parseHex group / 2 ^ 8 % 256, parseHex group % 256]

/-- The groups of sixteen bytes. -/
def groupsOf : List Nat → List Nat
  | a :: b :: rest => (a * 2 ^ 8 + b) % 2 ^ 16 :: groupsOf rest
  | _ => []

/-- The longest run of zeros so far, and the one that is being read. -/
structure Runs where
  best : Option Nat
  bestLen : Nat
  cur : Option Nat
  curLen : Nat

def Runs.read (r : Runs) (g : Nat) (group : Nat) : Runs :=
  if group = 0 then
    let (cur, curLen) := match r.cur with
      | none => (g, 1)
      | some c => (c, r.curLen + 1)
    if r.bestLen < curLen then ⟨some cur, curLen, some cur, curLen⟩
    else ⟨r.best, r.bestLen, some cur, curLen⟩
  else ⟨r.best, r.bestLen, none, 0⟩

def readRuns (r : Runs) (g : Nat) : List Nat → Runs
  | [] => r
  | group :: rest => readRuns (r.read g group) (g + 1) rest

/-- The run that is left out: `bestStart` and `bestLen`. -/
def bestRun (groups : List Nat) : Option Nat × Nat :=
  let r := readRuns ⟨none, 0, none, 0⟩ 0 groups
  if r.bestLen < 2 then (none, r.bestLen) else (r.best, r.bestLen)

/-- The parts from group `k` on; after the run `skip` of its groups are passed over. -/
def parts (best : Option Nat) (bestLen : Nat) (k skip : Nat) : List Nat → List JsString
  | [] => []
  | group :: rest =>
      if skip ≠ 0 then parts best bestLen (k + 1) (skip - 1) rest
      else if best = some k then
        [] :: ((if k + bestLen - 1 = 7 then [[]] else []) ++
          parts best bestLen (k + 1) (bestLen - 1) rest)
      else hexText group :: parts best bestLen (k + 1) 0 rest

/-- `_ipv6BytesToString`. -/
def ipv6BytesToString (bytes : List Nat) : JsString :=
  let groups := groupsOf bytes
  let (best, bestLen) := bestRun groups
  let out := [colon].intercalate (parts best bestLen 0 0 groups)
  if best = some 0 then colon :: out else out

def dotted (a b c d : Nat) : JsString :=
  natText a ++ [dot] ++ natText b ++ [dot] ++ natText c ++ [dot] ++ natText d

/-- Four bytes of an address as IPv4. -/
def dottedAt (bytes : List Nat) (i : Nat) : JsString :=
  dotted (bytes.getD i 0) (bytes.getD (i + 1) 0) (bytes.getD (i + 2) 0) (bytes.getD (i + 3) 0)

/-- The bits of `(0xff << (8 - bits)) & 0xff`. -/
def byteMask (bits : Nat) : Nat := 0xFF * 2 ^ (8 - bits) % 256

/-- `_ipv6PrefixMatch`; the buffers have sixteen bytes. -/
def ipv6PrefixMatch (prefixBytes : List Nat) (prefixLen : Nat) (ipBytes : List Nat) : Bool :=
  let full := prefixLen / 8
  let bits := prefixLen % 8
  ipBytes.take full == prefixBytes.take full &&
    (bits = 0 ||
      ipBytes.getD full 0 &&& byteMask bits == prefixBytes.getD full 0 &&& byteMask bits)

/-- The sixteen bytes of eight groups. -/
def bytesOf (groups : List Nat) : List Nat := groups.flatMap fun g => [g / 2 ^ 8, g % 2 ^ 8]

def ipv6V4MappedPrefix : List Nat := bytesOf [0, 0, 0, 0, 0, 0xFFFF, 0, 0]

def ipv6Nat64Prefix : List Nat := bytesOf [0x64, 0xFF9B, 0, 0, 0, 0, 0, 0]

def ipv66to4Prefix : List Nat := bytesOf [0x2002, 0, 0, 0, 0, 0, 0, 0]

/-- `host.replace(/^\[|\]$/g, "")`. -/
def stripBrackets (host : JsString) : JsString :=
  let tail := if host.head? = some (unit '[') then host.drop 1 else host
  if tail.getLast? = some (unit ']') then tail.dropLast else tail

/-- `canonicalizeHost`. -/
def canonicalizeHost (T : CaseTable) (host : JsString) : JsString :=
  let bare := stripBrackets host
  if host = [] then host
  else if isIP bare = 4 then
    match ipv4ToBytes bare with
    | some bytes => dottedAt bytes 0
    | none => toLowerCase T bare
  else if isIP bare = 6 then
    let bytes := ipv6ToBytes T bare
    if ipv6PrefixMatch ipv6V4MappedPrefix 96 bytes then dottedAt bytes 12
    else ipv6BytesToString bytes
  else ((toLowerCase T bare).reverse.dropWhile (· = unit '.')).reverse

/-! ## Blocks -/

/-- The network and the prefix of an entry. -/
def cutSlash (entry : JsString) : Option (JsString × JsString) :=
  match entry.dropWhile (· ≠ unit '/') with
  | [] => none
  | _ :: text => some (entry.takeWhile (· ≠ unit '/'), text)

/-- `(0xffffffff << (32 - prefix)) >>> 0`. -/
def wordMask (bits : Nat) : Nat := 0xFFFFFFFF * 2 ^ (32 - bits) % 2 ^ 32

/-- `_cidrIpv4Match`. -/
def cidrIpv4Match (network : JsString) (bits : Nat) (ip : JsString) : Bool :=
  if 32 < bits then false
  else if bits = 0 then true
  else (ipv4ToInt ip).getD 0 &&& wordMask bits == (ipv4ToInt network).getD 0 &&& wordMask bits

/-- `_cidrIpv6Match`. -/
def cidrIpv6Match (T : CaseTable) (network : JsString) (bits : Nat) (ip : JsString) : Bool :=
  if 128 < bits then false
  else ipv6PrefixMatch (ipv6ToBytes T network) bits (ipv6ToBytes T ip)

/-- `parseInt(text, 10)` of a text that begins with a digit. -/
def parseDecimal (text : JsString) : Option Nat :=
  let digits := text.takeWhile isDigitUnit
  if digits = [] then none else some (digitsValue digits)

/-- `cidrContains`. -/
def cidrContains (T : CaseTable) (cidr ip : JsString) : Bool :=
  match cutSlash cidr with
  | none => false
  | some (network, text) =>
      if isIP network = 0 ∨ isIP ip = 0 ∨ isIP network ≠ isIP ip then false
      else match parseDecimal text with
        | none => false
        | some bits =>
            if isIP network = 4 then cidrIpv4Match network bits ip
            else cidrIpv6Match T network bits ip

/-- `_wrappedIpv4`. -/
def wrappedIpv4 (bytes : List Nat) : Option JsString :=
  if ipv6PrefixMatch ipv66to4Prefix 16 bytes then some (dottedAt bytes 2)
  else if ipv6PrefixMatch ipv6Nat64Prefix 96 bytes then some (dottedAt bytes 12)
  else none

def cloudMetadataBytes : List (List Nat) :=
  [[169, 254, 169, 254], [169, 254, 170, 2], bytesOf [0xFD00, 0xEC2, 0, 0, 0, 0, 0, 0x254]]

/-- `_isCloudMetadataAddr`. -/
def isCloudMetadataAddr (T : CaseTable) (ip : JsString) : Bool :=
  if isIP ip = 0 then false
  else
    match (if isIP ip = 4 then ipv4ToBytes ip else some (ipv6ToBytes T ip)) with
    | none => false
    | some bytes => cloudMetadataBytes.any fun other => other == bytes

inductive Category where
  | cloudMetadata
  | loopback
  | linkLocal
  | «private»
  | reserved
  deriving DecidableEq, Repr

/-- The tables of `classify` for IPv4, in the order in which they are tried. -/
def ipv4Tables : List (Category × List (Nat × Nat)) :=
  [(.loopback, [(0x7F000000, 8)]),
    (.linkLocal, [(0xA9FE0000, 16)]),
    (.private, [(0x0A000000, 8), (0xAC100000, 12), (0xC0A80000, 16)]),
    (.reserved, [(0, 8), (0x64400000, 10), (0xC0000000, 24), (0xC0000200, 24), (0xC6120000, 15),
      (0xC6336400, 24), (0xCB007100, 24), (0xE0000000, 4), (0xF0000000, 4)])]

/-- `_ipv4PrefixMatch`. -/
def ipv4PrefixMatch (table : List (Nat × Nat)) (ip : Nat) : Bool :=
  table.any fun (net, bits) => ip &&& wordMask bits == net &&& wordMask bits

/-- `classify` of an IPv4 literal. -/
def classifyIpv4 (T : CaseTable) (ip : JsString) : Option Category :=
  if isIP ip = 0 then none
  else if isCloudMetadataAddr T ip then some .cloudMetadata
  else
    (ipv4Tables.find? fun (_, table) => ipv4PrefixMatch table ((ipv4ToInt ip).getD 0)).map Prod.fst

/-- The tables of `classify` for IPv6, in the order in which they are tried. -/
def ipv6Tables : List (Category × List Nat × Nat) :=
  [(.loopback, bytesOf [0, 0, 0, 0, 0, 0, 0, 1], 128),
    (.reserved, bytesOf [0, 0, 0, 0, 0, 0, 0, 0], 128),
    (.linkLocal, bytesOf [0xFE80, 0, 0, 0, 0, 0, 0, 0], 10),
    (.private, bytesOf [0xFC00, 0, 0, 0, 0, 0, 0, 0], 7),
    (.reserved, bytesOf [0x2001, 0xDB8, 0, 0, 0, 0, 0, 0], 32),
    (.reserved, bytesOf [0xFF00, 0, 0, 0, 0, 0, 0, 0], 8),
    (.reserved, bytesOf [0x100, 0, 0, 0, 0, 0, 0, 0], 64)]

/-- `classify`. -/
def classify (T : CaseTable) (ip : JsString) : Option Category :=
  if isIP ip = 0 then none
  else if isCloudMetadataAddr T ip then some .cloudMetadata
  else if isIP ip = 4 then classifyIpv4 T ip
  else
    let bytes := ipv6ToBytes T ip
    match ipv6Tables.find? fun (_, prefixBytes, bits) => ipv6PrefixMatch prefixBytes bits bytes with
    | some (category, _) => some category
    | none =>
        match wrappedIpv4 bytes with
        | some v4 => some ((classifyIpv4 T v4).getD .reserved)
        | none =>
            if ipv6PrefixMatch ipv6V4MappedPrefix 96 bytes then classifyIpv4 T (dottedAt bytes 12)
            else none

/-! ## The lists -/

/-- `_canonicalListEntry`. -/
def canonicalListEntry (T : CaseTable) (entry : JsString) : JsString :=
  match cutSlash entry with
  | none => canonicalizeHost T entry
  | some (network, text) =>
      let bits := digitsValue text
      if isIP network ≠ 6 ∨ natText bits ≠ text then entry
      else if bits < 96 ∨ 128 < bits then entry
      else if !ipv6PrefixMatch ipv6V4MappedPrefix 96 (ipv6ToBytes T network) then entry
      else dottedAt (ipv6ToBytes T network) 12 ++ [unit '/'] ++ natText (bits - 96)

/-- `_listEntryProblem` is null. -/
def listEntryFine (P : Platform) (entry : JsString) : Bool :=
  match cutSlash entry with
  | some (network, text) =>
      isIP network ≠ 0 && text ≠ [] && text.all isDigitUnit &&
        (text.length ≤ 1 || text.head? ≠ some (unit '0')) &&
        digitsValue text ≤ (if isIP network = 4 then 32 else 128)
  | none =>
      let bracketed := entry.head? = some (unit '[') ∧ entry.getLast? = some (unit ']')
      let bare := if bracketed then (entry.drop 1).dropLast else entry
      if entry = [] then false
      else if isIP bare ≠ 0 then !bracketed || isIP bare = 6
      else match P.parse (units "http://" ++ entry ++ units "/") with
        | none => false
        | some u => canonicalizeHost P.cases u.hostname = canonicalizeHost P.cases entry

/-- `_checkedList`. -/
def checkedList (P : Platform) (list : List JsString) : Except Err (List JsString) :=
  if list.all (listEntryFine P) then .ok (list.map (canonicalListEntry P.cases))
  else .error .badEntry

/-- `_hostSpellings`. -/
def hostSpellings (T : CaseTable) (canonHost : JsString) (everySpelling : Bool) :
    List JsString :=
  if !everySpelling then [canonHost]
  else if isIP canonHost = 6 then
    match wrappedIpv4 (ipv6ToBytes T canonHost) with
    | some v4 => [canonHost, v4, units "::ffff:" ++ v4]
    | none => [canonHost]
  else if isIP canonHost = 4 then [canonHost, units "::ffff:" ++ canonHost]
  else [canonHost]

/-- `_listMatches`. -/
def listMatches (T : CaseTable) (list : List JsString) (hostOrIp : JsString)
    (everySpelling : Bool) : Bool :=
  list.any fun entry =>
    (hostSpellings T (canonicalizeHost T hostOrIp) everySpelling).any fun form =>
      if (cutSlash entry).isSome then cidrContains T entry form else entry == form

/-! ## The allowlist -/

/-- `checkUrl(url, { allowInternal: true })`. -/
def checkUrl (P : Platform) (url : JsString) : Except Err (List JsString) :=
  match P.safeParse url with
  | none => .error .badUrl
  | some hostname =>
      let hostForCheck := stripBrackets hostname
      if hostname = [] then .error .noHostname
      else
        match (if isIP hostForCheck ≠ 0 then some [hostForCheck] else P.lookup hostForCheck) with
        | none => .error .lookupFailed
        | some ips =>
            if ips.any fun ip => classify P.cases ip = some .cloudMetadata then
              .error .blockedCloudMetadata
            else .ok ips

structure Allowlist where
  allowList : List JsString
  denyList : List JsString
  deriving DecidableEq

/-- `createAllowlist`. -/
def createAllowlist (P : Platform) (allow deny : List JsString) : Except Err Allowlist := do
  let allowList ← checkedList P allow
  let denyList ← checkedList P deny
  if allowList = [] then .error .emptyAllowlist else .ok ⟨allowList, denyList⟩

/-- `assertUrl`. -/
def Allowlist.assertUrl (l : Allowlist) (P : Platform) (url : JsString) :
    Except Err (List JsString) :=
  match P.parse url with
  | none => .error .badUrl
  | some parsed =>
      if !listMatches P.cases l.allowList parsed.hostname false then .error .notOnAllowlist
      else if listMatches P.cases l.denyList parsed.hostname true then .error .onDenylist
      else do
        let ips ← checkUrl P parsed.href
        if ips.any fun ip => listMatches P.cases l.denyList ip true then .error .onDenylist
        else .ok ips

end Blamejs.SsrfGuard
