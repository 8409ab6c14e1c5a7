import Blamejs.Js.Bytes
import Blamejs.Js.NumberText
import Blamejs.Lib.Checked
import Blamejs.Lib.LabelName

/-!
# The chain walk (`verifyChain` of `lib/network-dnssec.js`)

The cryptography is a parameter: the import of a public key, the verification of a
signature, and two hashes. Numbers of a record are whole and not negative, as they
are read off the wire; the validity instant is in milliseconds. What is optional in
a link is an `Option`, null when it is missing or of the wrong shape.
-/

namespace Blamejs.Dnssec

open Blamejs.Js Checked

abbrev Bytes := List UInt8

structure DnssecError where
  code : String
  message : JsString
  deriving DecidableEq, Repr

def refuse {α : Type} (code : String) (message : JsString) : Except DnssecError α :=
  .error ⟨code, message⟩

/-! ## Names (`lib/safe-dns.js`) -/

def maxLabelOctets : Nat := 63

def maxNameOctets : Nat := 255

/-- The loop of `_presentationNameLabels`: the labels so far, the one being read, and
the length of the name on the wire. -/
def presentationLoop : JsString → List Bytes → Bytes → Nat → Option (List Bytes)
  | [], labels, cur, wireLen =>
      if cur = [] then if wireLen > maxNameOctets then none else some labels
      else if wireLen + cur.length + 1 > maxNameOctets then none else some (labels ++ [cur])
  | ch :: rest, labels, cur, wireLen =>
      let push (value : Nat) (rest : Option (List Bytes)) : Option (List Bytes) :=
        if value > 0xFF then none else if cur.length + 1 > maxLabelOctets then none else rest
      if ch = unit '.' then
        if cur = [] then none
        else presentationLoop rest (labels ++ [cur]) [] (wireLen + cur.length + 1)
      else if ch = unit '\\' then
        match rest with
        | [] => none
        | d1 :: rest =>
            if isDigitUnit d1 then
              match rest with
              | d2 :: d3 :: rest =>
                  if isDigitUnit d2 && isDigitUnit d3 then
                    let v := (d1.toNat - 48) * 100 + (d2.toNat - 48) * 10 + (d3.toNat - 48)
                    push v (presentationLoop rest labels (cur ++ [UInt8.ofNat v]) wireLen)
                  else none
              | _ => none
            else
              push d1.toNat (presentationLoop rest labels (cur ++ [UInt8.ofNat d1.toNat]) wireLen)
      else push ch.toNat (presentationLoop rest labels (cur ++ [UInt8.ofNat ch.toNat]) wireLen)

def presentationNameLabels (name : JsString) : Option (List Bytes) :=
  if name = [] ∨ name = units "." then some [] else presentationLoop name [] [] 1

def asciiLowerLabel (label : Bytes) : Bytes :=
  label.map fun b => if 0x41 ≤ b.toNat ∧ b.toNat ≤ 0x5A then b + 0x20 else b

def nameLabels (name : JsString) : Except DnssecError (List Bytes) :=
  match presentationNameLabels name with
  | some labels => .ok labels
  | none => refuse "dnssec/bad-name" (units "dnssec: '" ++ name ++
      units "' is not a domain name in RFC 1035 presentation form " ++
      units "(an empty or over-long label, a malformed escape, or more than 255 octets)")

def canonicalName (name : JsString) : Except DnssecError Bytes :=
  (nameLabels name).map fun labels => LabelName.wire (labels.map asciiLowerLabel)

/-! ## Keys -/

inductive Hash where
  | sha256
  | sha384
  deriving DecidableEq, Repr

inductive Curve where
  | p256
  | p384
  deriving DecidableEq, Repr

def Curve.name : Curve → String
  | .p256 => "P-256"
  | .p384 => "P-384"

inductive Kind where
  | rsa
  | ec (crv : Curve) (coord : Nat)
  | okp
  deriving DecidableEq, Repr

def Kind.isEc : Kind → Bool
  | .ec _ _ => true
  | _ => false

structure Alg where
  name : String
  kind : Kind
  hash : Option Hash
  deriving DecidableEq, Repr

/-- `ALGS`. -/
def algs : Nat → Option Alg
  | 8 => some ⟨"RSASHA256", .rsa, some .sha256⟩
  | 13 => some ⟨"ECDSAP256SHA256", .ec .p256 32, some .sha256⟩
  | 14 => some ⟨"ECDSAP384SHA384", .ec .p384 48, some .sha384⟩
  | 15 => some ⟨"ED25519", .okp, none⟩
  | _ => none

/-- `DS_DIGESTS`. -/
def dsDigests : Nat → Option Hash
  | 2 => some .sha256
  | 4 => some .sha384
  | _ => none

inductive Jwk where
  | rsa (n e : Bytes)
  | ec (crv : Curve) (x y : Bytes)
  | okp (x : Bytes)
  deriving DecidableEq, Repr

/-- `node:crypto` and `importPublicJwk`. `verify` may throw; the flag asks for the
`ieee-p1363` form of a signature. -/
structure Crypto (Key : Type) where
  importPublicJwk : Jwk → Except DnssecError Key
  verify : Option Hash → Bytes → Key → Bool → Bytes → Except JsString Bool
  digest : Hash → Bytes → Bytes

variable {Key : Type}

def dnskeyToKey (c : Crypto Key) (algId : Nat) (pk : Bytes) : Except DnssecError Key :=
  match algs algId with
  | none => refuse "dnssec/unsupported-alg"
      (units "dnssec: unsupported DNSKEY algorithm " ++ natText algId)
  | some alg =>
      match alg.kind with
      | .rsa =>
          match pk with
          -- the missing length compares as NaN
          | [] => c.importPublicJwk (.rsa [] [])
          | short :: _ =>
              let explen := if short = 0 then beValue ((pk.drop 1).take 2) else short.toNat
              let off := if short = 0 then 3 else 1
              if explen = 0 ∨ off + explen ≥ pk.length then
                refuse "dnssec/bad-key" (units "dnssec: malformed RSA DNSKEY public key")
              else
                c.importPublicJwk (.rsa (pk.drop (off + explen)) ((pk.drop off).take explen))
      | .ec crv coord =>
          if pk.length ≠ coord * 2 then
            refuse "dnssec/bad-key" (units "dnssec: " ++ units crv.name ++ units " key must be " ++
              natText (coord * 2) ++ units " bytes (x||y)")
          else c.importPublicJwk (.ec crv (pk.take coord) (pk.drop coord))
      | .okp =>
          if pk.length ≠ 32 then
            refuse "dnssec/bad-key" (units "dnssec: Ed25519 key must be 32 bytes")
          else c.importPublicJwk (.okp pk)

/-- The sum of RFC 4034, Appendix B. -/
def tagSum : Bytes → Nat
  | [] => 0
  | [a] => a.toNat * 256
  | a :: b :: rest => a.toNat * 256 + b.toNat + tagSum rest

def keyTag (rd : Bytes) : Nat :=
  let acc := tagSum rd
  (acc + acc / 65536 % 65536) % 65536

structure DnskeyParts where
  flags : Nat
  algorithm : Nat
  publicKey : Bytes

def dnskeyParts : Bytes → Except DnssecError DnskeyParts
  | f1 :: f2 :: _ :: alg :: publicKey => .ok ⟨beValue [f1, f2], alg.toNat, publicKey⟩
  | _ => refuse "dnssec/bad-key" (units "dnssec: DNSKEY RDATA too short")

structure Ds where
  keyTag : Nat
  algorithm : Nat
  digestType : Nat
  digest : Bytes
  deriving DecidableEq, Repr

def parseDsRdata : Bytes → Except DnssecError Ds
  | t1 :: t2 :: alg :: digestType :: d :: digest =>
      .ok ⟨beValue [t1, t2], alg.toNat, digestType.toNat, d :: digest⟩
  | _ => refuse "dnssec/bad-ds" (units "dnssec: DS RDATA too short")

/-- `_assertDsKeyNotCompromised`. -/
def assertDsKeyNotCompromised (c : Crypto Key) (rd : Bytes) : Except DnssecError Unit :=
  match rd with
  | _ :: _ :: _ :: alg :: publicKey =>
      if (algs alg.toNat).isNone then .ok ()
      else
        match dnskeyToKey c alg.toNat publicKey with
        | .error e => if e.code = "dnssec/compromised-key" then .error e else .ok ()
        | .ok _ => .ok ()
  | _ => .ok ()

def verifyDs (c : Crypto Key) (ownerName : JsString) (rd : Bytes) (ds : Ds) :
    Except DnssecError Unit :=
  match dsDigests ds.digestType with
  | none => refuse "dnssec/unsupported-digest"
      (units "dnssec.verifyDs: unsupported DS digest type " ++ natText ds.digestType)
  | some hashName => do
      ensure (keyTag rd = ds.keyTag)
        ⟨"dnssec/keytag-mismatch", units "dnssec.verifyDs: DNSKEY key tag does not match the DS"⟩
      ensure ((rd[3]?).map UInt8.toNat = some ds.algorithm)
        ⟨"dnssec/ds-mismatch", units "dnssec.verifyDs: the DS algorithm " ++
          natText ds.algorithm ++ units " does not match the DNSKEY algorithm " ++
          match rd[3]? with
          | some alg => natText alg.toNat
          | none => units "(RDATA too short)"⟩
      let owner ← canonicalName ownerName
      ensure (c.digest hashName (owner ++ rd) = ds.digest)
        ⟨"dnssec/ds-mismatch", units "dnssec.verifyDs: DS digest does not match the DNSKEY"⟩
      assertDsKeyNotCompromised c rd

/-! ## Signatures -/

structure Rrsig where
  algorithm : Nat
  labels : Nat
  originalTtl : Nat
  expiration : Nat
  inception : Nat
  keyTag : Nat
  signerName : JsString
  signature : Bytes
  deriving DecidableEq, Repr

/-- `NAME_FREE_TYPE_NUMS`. -/
def nameFreeTypeNums : List Nat := [1, 28, 16, 48, 43, 257, 52, 44, 13, 59, 60, 61, 53, 47, 50]

def typeDnskey : Nat := 48

def typeDs : Nat := 43

/-- `(a - b) | 0` of two numbers taken `>>> 0`. -/
def serialDiff (a b : Int) : Int := (a - b).bmod (2 ^ 32)

/-- The records in canonical form and order, behind the RDATA of the RRSIG without
the signature. -/
def signedData (name : JsString) (typeNum klass : Nat) (rdatas : List Bytes) (rrsig : Rrsig) :
    Except DnssecError Bytes := do
  let ownerWire ← canonicalName name
  let signerWire ← canonicalName rrsig.signerName
  let sorted := rdatas.insertionSort bytesLE
  let rrParts := sorted.flatMap fun rd =>
    ownerWire ++ beBytes 2 typeNum ++ beBytes 2 klass ++ beBytes 4 rrsig.originalTtl ++
      beBytes 2 rd.length ++ rd
  .ok (beBytes 2 typeNum ++ beBytes 1 rrsig.algorithm ++ beBytes 1 rrsig.labels ++
    beBytes 4 rrsig.originalTtl ++ beBytes 4 rrsig.expiration ++ beBytes 4 rrsig.inception ++
    beBytes 2 rrsig.keyTag ++ signerWire ++ rrParts)

/-- What `verifyRrset` answers. -/
structure Verified where
  algorithm : String
  keyTag : Nat
  signerName : JsString
  deriving DecidableEq, Repr

def requireAlg (algorithm : Nat) : Except DnssecError Alg :=
  match algs algorithm with
  | some alg => .ok alg
  | none => refuse "dnssec/unsupported-alg"
      (units "dnssec.verifyRrset: unsupported algorithm " ++ natText algorithm)

/-- What is made of the answer of `nodeCrypto.verify`. -/
def checkSignature : Except JsString Bool → Except DnssecError Unit
  | .error text => refuse "dnssec/verify-threw"
      (units "dnssec.verifyRrset: signature verification threw: " ++ text)
  | .ok ok => ensure (ok = true) ⟨"dnssec/bad-signature",
      units "dnssec.verifyRrset: RRSIG signature did not verify"⟩

def verifyRrset (c : Crypto Key) (atMs : Int) (name : JsString) (typeNum klass : Nat)
    (rdatas : List Bytes) (rrsig : Rrsig) (algorithm : Nat) (publicKey : Bytes) :
    Except DnssecError Verified := do
  ensure (rdatas ≠ [])
    ⟨"dnssec/empty-rrset", units "dnssec.verifyRrset: opts.rdatas must be a non-empty array"⟩
  let alg ← requireAlg rrsig.algorithm
  ensure (algorithm = rrsig.algorithm) ⟨"dnssec/alg-mismatch",
    units "dnssec.verifyRrset: DNSKEY algorithm does not match the RRSIG"⟩
  ensure (typeNum ∈ nameFreeTypeNums) ⟨"dnssec/uncanonicalizable-type",
    units "dnssec.verifyRrset: RR type " ++ natText typeNum ++
    units " carries embedded names; RDATA-name canonicalisation is not supported " ++
    units "(refused, not mis-validated)"⟩
  let nowSec := atMs / 1000
  ensure (¬ serialDiff nowSec rrsig.inception < 0) ⟨"dnssec/not-yet-valid",
    units "dnssec.verifyRrset: RRSIG inception is in the future"⟩
  ensure (¬ serialDiff rrsig.expiration nowSec < 0)
    ⟨"dnssec/expired", units "dnssec.verifyRrset: RRSIG has expired"⟩
  let data ← signedData name typeNum klass rdatas rrsig
  let key ← dnskeyToKey c algorithm publicKey
  checkSignature (c.verify alg.hash data key alg.kind.isEc rrsig.signature)
  .ok ⟨alg.name, rrsig.keyTag, rrsig.signerName⟩

/-! ## The walk -/

def maxCollidingKeys : Nat := 4

def maxValidationsPerLink : Nat := 8

def maxChainLinks : Nat := 128

def maxDnskeysPerZone : Nat := 64

def maxDsRecords : Nat := 16

def keysByTag (dnskeys : List Bytes) (tag : Nat) : List Bytes :=
  dnskeys.filter fun rd => keyTag rd = tag

/-- An RRset of the class IN, as the walk verifies it. -/
structure Rrset where
  name : JsString
  typeNum : Nat
  rdatas : List Bytes

/-- The loop of `_verifyRrsetWithAnyKey`: the key that verifies, and what is left of
the budget. -/
def tryKeys (c : Crypto Key) (atMs : Int) (rrset : Rrset) (rrsig : Rrsig) :
    List Bytes → DnssecError → Nat → Except DnssecError (Bytes × Nat)
  | [], lastErr, _ => .error lastErr
  | rd :: rest, _, budget =>
      match dnskeyParts rd with
      | .error e => .error e
      | .ok kp =>
          if kp.algorithm ≠ rrsig.algorithm then
            tryKeys c atMs rrset rrsig rest ⟨"dnssec/alg-mismatch",
              units "dnssec.verifyChain: candidate key algorithm does not match the RRSIG"⟩ budget
          else if budget = 0 then
            refuse "dnssec/validation-budget-exceeded"
              (units "dnssec.verifyChain: per-response signature-validation budget " ++
                units "exhausted — refused as a KeyTrap (CVE-2023-50387) amplification vector")
          else
            match verifyRrset c atMs rrset.name rrset.typeNum 1 rrset.rdatas rrsig kp.algorithm
              kp.publicKey with
            | .ok _ => .ok (rd, budget - 1)
            | .error e =>
                if e.code = "dnssec/bad-signature" then
                  tryKeys c atMs rrset rrsig rest e (budget - 1)
                else .error e

def verifyRrsetWithAnyKey (c : Crypto Key) (atMs : Int) (rrset : Rrset) (rrsig : Rrsig)
    (candidates : List Bytes) (noKey : DnssecError) (budget : Nat) :
    Except DnssecError (Bytes × Nat) :=
  if candidates = [] then .error noKey
  else if candidates.length > maxCollidingKeys then
    refuse "dnssec/too-many-colliding-keys"
      (units "dnssec.verifyChain: " ++ natText candidates.length ++
        units " DNSKEYs share key tag " ++ natText rrsig.keyTag ++ units " (cap " ++
        natText maxCollidingKeys ++
        units ") — refused as a KeyTrap (CVE-2023-50387) amplification vector")
  else tryKeys c atMs rrset rrsig candidates noKey budget

structure Link where
  zone : JsString
  dnskeys : List Bytes
  dnskeyRrsig : Option Rrsig
  dsRdatas : Option (List Bytes)
  dsRrsig : Option Rrsig
  deriving DecidableEq, Repr

/-- A DS that vouches for the key; one that does not, or throws, is passed over. -/
def matchesDs (c : Crypto Key) (zone : JsString) (signer : Bytes) (ds : Ds) : Bool :=
  if ds.keyTag ≠ keyTag signer then false
  else
    match verifyDs c zone signer ds with
    | .ok _ => true
    | .error _ => false

/-- The loop over the DS records. -/
def matchDs (c : Crypto Key) (zone : JsString) (signer : Bytes) :
    List Bytes → Except DnssecError Bool
  | [] => .ok false
  | rd :: rest => do
      let ds ← parseDsRdata rd
      if matchesDs c zone signer ds then .ok true else matchDs c zone signer rest

def linkText (i : Nat) : JsString := units "dnssec.verifyChain: links[" ++ natText i ++ units "]"

/-- The checks of a link up to its signing key. -/
def checkKeys (c : Crypto Key) (atMs : Int) (i : Nat) (link : Link) (budget : Nat) :
    Except DnssecError (Bytes × Nat) := do
  ensure (link.zone ≠ []) ⟨"dnssec/bad-link", linkText i ++ units ".zone is required"⟩
  ensure (link.dnskeys ≠ [])
    ⟨"dnssec/bad-link", linkText i ++ units ".dnskeys must be a non-empty array"⟩
  ensure (link.dnskeys.length ≤ maxDnskeysPerZone) ⟨"dnssec/too-many-dnskeys",
    linkText i ++ units " has " ++ natText link.dnskeys.length ++ units " DNSKEYs (cap " ++
    natText maxDnskeysPerZone ++
    units ") — refused as a KeyTrap (CVE-2023-50387) amplification vector"⟩
  match link.dnskeyRrsig with
  | none => refuse "dnssec/bad-link" (linkText i ++ units ".dnskeyRrsig is required")
  | some rrsig =>
      verifyRrsetWithAnyKey c atMs ⟨link.zone, typeDnskey, link.dnskeys⟩ rrsig
        (keysByTag link.dnskeys rrsig.keyTag)
        ⟨"dnssec/chain-no-signing-key", units "dnssec.verifyChain: no DNSKEY in '" ++ link.zone ++
          units "' verifies the DNSKEY RRSIG"⟩ budget

/-- The checks of a later link against the keys of the one before. -/
def checkDelegation (c : Crypto Key) (atMs : Int) (i : Nat) (trustedKeys : List Bytes)
    (link : Link) (signer : Bytes) (budget : Nat) : Except DnssecError Nat :=
  match link.dsRdatas, link.dsRrsig with
  | some (rd :: rds), some rrsig => do
      let dsRdatas := rd :: rds
      ensure (dsRdatas.length ≤ maxDsRecords) ⟨"dnssec/too-many-ds",
        linkText i ++ units " has " ++ natText dsRdatas.length ++ units " DS records (cap " ++
        natText maxDsRecords ++ units ") — refused as an amplification vector"⟩
      let (_, budget) ← verifyRrsetWithAnyKey c atMs ⟨link.zone, typeDs, dsRdatas⟩ rrsig
        (keysByTag trustedKeys rrsig.keyTag)
        ⟨"dnssec/chain-no-parent-key",
          units "dnssec.verifyChain: no trusted parent key verifies the DS RRSIG for '" ++
          link.zone ++ units "'"⟩ budget
      let dsMatched ← matchDs c link.zone signer dsRdatas
      ensure (dsMatched = true) ⟨"dnssec/chain-ds-mismatch",
        units "dnssec.verifyChain: the signing KSK of '" ++ link.zone ++
        units "' matches no parent-signed DS"⟩
      .ok budget
  | _, _ => refuse "dnssec/bad-link"
      (linkText i ++ units " needs dsRdatas + dsRrsig (DS served by the parent)")

def checkAnchor (c : Crypto Key) (anchors : List Ds) (link : Link) (signer : Bytes) :
    Except DnssecError Unit :=
  ensure (anchors.any (matchesDs c link.zone signer) = true) ⟨"dnssec/chain-anchor-mismatch",
    units "dnssec.verifyChain: root DNSKEY does not match any pinned trust anchor"⟩

/-- The links after the first. -/
def walk (c : Crypto Key) (atMs : Int) : Nat → List Bytes → Nat → List Link →
    Except DnssecError (List Bytes)
  | _, trustedKeys, _, [] => .ok trustedKeys
  | i, trustedKeys, budget, link :: rest => do
      let (signer, budget) ← checkKeys c atMs i link budget
      let budget ← checkDelegation c atMs i trustedKeys link signer budget
      walk c atMs (i + 1) link.dnskeys budget rest

/-- What `verifyChain` answers. -/
structure Trusted where
  zone : JsString
  keys : List Bytes
  path : List JsString
  deriving DecidableEq, Repr

def verifyChain (c : Crypto Key) (anchors : List Ds) (atMs : Int) (links : List Link) :
    Except DnssecError Trusted :=
  match links with
  | [] => refuse "dnssec/bad-arg" (units "dnssec.verifyChain: opts.links must be a non-empty array")
  | first :: rest => do
      ensure (links.length ≤ maxChainLinks) ⟨"dnssec/too-many-links",
        units "dnssec.verifyChain: " ++ natText links.length ++ units " chain links (cap " ++
        natText maxChainLinks ++ units ") — refused as an amplification vector"⟩
      ensure (anchors ≠ []) ⟨"dnssec/bad-arg",
        units "dnssec.verifyChain: opts.trustAnchors must be a non-empty array"⟩
      let (signer, budget) ← checkKeys c atMs 0 first (links.length * maxValidationsPerLink)
      checkAnchor c anchors first signer
      let keys ← walk c atMs 1 first.dnskeys budget rest
      .ok ⟨(rest.getLastD first).zone, keys, links.map Link.zone⟩

end Blamejs.Dnssec
