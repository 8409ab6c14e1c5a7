import Blamejs.Ref.Dnssec
import Blamejs.Ref.SafeDns
import Blamejs.Js.LowerCase
import Mathlib.Data.Rat.Floor

/-!
# TSIG (`lib/network-tsig.js`)

`createHmac` and the clock are parameters. Secrets are the bytes that `_secretBuf` reads. What is
written into a field of some bytes must be in its range, or `Buffer` throws; a fraction loses
what is behind the point. Readers get the offset they begin at and return the one they end at;
their fuel is the length of the message, behind which every name is truncated.
-/

namespace Blamejs.Tsig

open Blamejs.Js LabelName
open Blamejs.Dnssec (presentationNameLabels asciiLowerLabel)
open Blamejs.SafeDns (Bytes slice uint16 uint32 presentationLabel joinDots)

inductive TsigError where
  | badMessage
  | badOpt
  | legacyAlgorithm
  | badAlgorithm
  | badName
  | truncated
  | noTsig
  | trailingBytes
  | notTsig
  | badRr
  | badRdata
  /-- What `Buffer` throws for a number that a field cannot hold. -/
  | outOfRange
  deriving DecidableEq, Repr

def ensure (p : Prop) [Decidable p] (e : TsigError) : Except TsigError Unit :=
  if p then .ok () else .error e

/-! ## Algorithms -/

def algorithms : List (JsString × String) :=
  [(units "hmac-sha256", "sha256"), (units "hmac-sha384", "sha384"),
    (units "hmac-sha512", "sha512"), (units "hmac-sha224", "sha224")]

def legacyAlgorithms : List (JsString × String) :=
  [(units "hmac-sha1", "sha1"), (units "hmac-md5.sig-alg.reg.int", "md5")]

structure Alg where
  name : JsString
  hash : String
  deriving DecidableEq, Repr

/-- `replace(/\.$/, "")`. -/
def dropDot (s : JsString) : JsString :=
  if s.getLast? = some (unit '.') then s.dropLast else s

/-- `_normAlg`; no letter from outside ASCII becomes one of these names. -/
def normAlg (name : Option JsString) (allowLegacy : Bool) : Except TsigError Alg :=
  let given := if name.getD [] = [] then units "hmac-sha256" else name.getD []
  let key := dropDot (given.map smallUnit)
  let key := if key = units "hmac-md5" then units "hmac-md5.sig-alg.reg.int" else key
  match algorithms.lookup key with
  | some hash => .ok ⟨key, hash⟩
  | none =>
      match legacyAlgorithms.lookup key with
      | some hash => if allowLegacy then .ok ⟨key, hash⟩ else .error .legacyAlgorithm
      | none => .error .badAlgorithm

/-! ## Names -/

def nameLabels (name : JsString) : Except TsigError (List Bytes) :=
  match presentationNameLabels name with
  | some labels => .ok labels
  | none => .error .badName

def encodeName (name : JsString) (lower : Bool) : Except TsigError Bytes := do
  let labels ← nameLabels name
  .ok (wire (if lower then labels.map asciiLowerLabel else labels))

def canonicalKey (name : JsString) : Option Bytes :=
  (presentationNameLabels name).map fun labels => wire (labels.map asciiLowerLabel)

/-- The labels of a name and the offset behind it. -/
def readLabels (buf : Bytes) (follow : Nat → Except TsigError (List JsString)) :
    Nat → Nat → Except TsigError (List JsString × Nat)
  | 0, _ => .error .truncated
  | fuel + 1, i =>
      match buf[i]? with
      | none => .error .truncated
      | some len =>
          if len = 0 then .ok ([], i + 1)
          else if len.toNat / 64 = 3 then
            match buf[i + 1]? with
            | none => .error .truncated
            | some low => do
                let labels ← follow (len.toNat % 64 * 256 + low.toNat)
                .ok (labels, i + 2)
          else if len.toNat / 64 ≠ 0 then .error .badName
          else if buf.length < i + 1 + len.toNat then .error .truncated
          else do
            let (labels, next) ← readLabels buf follow fuel (i + 1 + len.toNat)
            .ok (presentationLabel (slice buf (i + 1) len.toNat) :: labels, next)

/-- With the jumps that are left. -/
def readJumps (buf : Bytes) : Nat → Nat → Except TsigError (List JsString × Nat)
  | 0, i => readLabels buf (fun _ => .error .badName) (buf.length + 1) i
  | left + 1, i => readLabels buf (fun ptr => (readJumps buf left ptr).map Prod.fst)
      (buf.length + 1) i

/-- `_readName`. -/
def readName (buf : Bytes) (off : Nat) : Except TsigError (JsString × Nat) := do
  let (labels, next) ← readJumps buf 128 off
  .ok (if labels = [] then units "." else joinDots labels ++ units ".", next)

def skipLoop (buf : Bytes) : Nat → Nat → Except TsigError Nat
  | 0, _ => .error .truncated
  | fuel + 1, i =>
      match buf[i]? with
      | none => .error .truncated
      | some len =>
          if len = 0 then .ok (i + 1)
          else if len.toNat / 64 = 3 then .ok (i + 2)
          else if len.toNat / 64 ≠ 0 then .error .badName
          else skipLoop buf fuel (i + 1 + len.toNat)

/-- `_skipName`. -/
def skipName (buf : Bytes) (off : Nat) : Except TsigError Nat := skipLoop buf (buf.length + 1) off

/-! ## The last record -/

def skipQuestions (buf : Bytes) : Nat → Nat → Except TsigError Nat
  | 0, off => .ok off
  | n + 1, off => do
      let off ← skipName buf off
      skipQuestions buf n (off + 4)

/-- Where the last record begins, and where it ends. -/
def skipRecords (buf : Bytes) : Nat → Nat → Nat → Except TsigError (Nat × Nat)
  | 0, rrStart, off => .ok (rrStart, off)
  | n + 1, _, rrStart => do
      let off ← skipName buf rrStart
      ensure (off + 10 ≤ buf.length) .truncated
      skipRecords buf n rrStart (off + 10 + uint16 buf (off + 8))

/-- `_findTsigRr`. -/
def findTsigRr (buf : Bytes) : Except TsigError Nat := do
  ensure (12 ≤ buf.length) .truncated
  ensure (1 ≤ uint16 buf 10) .noTsig
  let off ← skipQuestions buf (uint16 buf 4) 12
  let (rrStart, off) ← skipRecords buf (uint16 buf 6 + uint16 buf 8 + uint16 buf 10) 0 off
  ensure (off = buf.length) .trailingBytes
  .ok rrStart

/-! ## The digest -/

/-- A number in a field of so many bytes, as `Buffer` writes it. -/
def field (bytes : Nat) (value : Rat) : Except TsigError Bytes :=
  if 0 ≤ value ∧ value ≤ ((256 ^ bytes - 1 : Nat) : Rat) then
    .ok (beBytes bytes value.floor.toNat)
  else .error .outOfRange

/-- `_tsigVariables`. -/
def tsigVariables (keyName algName : JsString) (timeSigned fudge error : Rat) (otherData : Bytes) :
    Except TsigError Bytes := do
  let time ← field 6 timeSigned
  let fudge ← field 2 fudge
  let error ← field 2 error
  let otherLen ← field 2 otherData.length
  let keyName ← encodeName keyName true
  let algName ← encodeName algName true
  .ok (keyName ++ (beBytes 2 255 ++ beBytes 4 0) ++ algName ++ time ++
    (fudge ++ error ++ otherLen) ++ otherData)

/-- `_requestMacPrefix`. -/
def requestMacPrefix (requestMac : Option Bytes) : Except TsigError Bytes :=
  match requestMac with
  | none => .ok []
  | some mac => do
      let len ← field 2 mac.length
      .ok (len ++ mac)

/-- The bytes with two of them overwritten. -/
def write16 (buf : Bytes) (off : Nat) (two : Bytes) : Bytes :=
  buf.take off ++ two ++ buf.drop (off + 2)

/-! ## `sign` -/

abbrev Hmac := String → Bytes → Bytes → Bytes

structure SignOpts where
  keyName : JsString
  secret : Bytes
  algorithm : Option JsString
  fudge : Option Rat
  time : Option Rat
  originalId : Option Rat
  requestMac : Option Bytes
  error : Option Rat
  otherData : Option Bytes
  allowLegacy : Bool

/-- What goes into the MAC of a message. -/
def signDigest (clock : Int) (message : Bytes) (opts : SignOpts) (alg : Alg) :
    Except TsigError Bytes := do
  let start ← requestMacPrefix opts.requestMac
  let id ← field 2 (opts.originalId.getD (uint16 message 0))
  let vars ← tsigVariables opts.keyName (alg.name ++ units ".") (opts.time.getD clock)
    (opts.fudge.getD 300) (opts.error.getD 0) (opts.otherData.getD [])
  .ok (start ++ write16 message 0 id ++ vars)

structure Signed where
  wire : Bytes
  mac : Bytes

def sign (hmac : Hmac) (clock : Int) (message : Bytes) (opts : SignOpts) :
    Except TsigError Signed := do
  ensure (12 ≤ message.length) .badMessage
  ensure (opts.keyName ≠ []) .badOpt
  let alg ← normAlg opts.algorithm opts.allowLegacy
  let fudge := opts.fudge.getD 300
  ensure (0 ≤ fudge ∧ fudge ≤ 0xFFFF) .badOpt
  let time := opts.time.getD clock
  ensure (0 ≤ time) .badOpt
  let error := opts.error.getD 0
  let otherData := opts.otherData.getD []
  let digest ← signDigest clock message opts alg
  let mac := hmac alg.hash opts.secret digest
  let rtime ← field 6 time
  let rfudge ← field 2 fudge
  let macLen ← field 2 mac.length
  let id ← field 2 (opts.originalId.getD (uint16 message 0))
  let rerror ← field 2 error
  let otherLen ← field 2 otherData.length
  let algName ← encodeName (alg.name ++ units ".") false
  let rdata := algName ++ rtime ++ (rfudge ++ macLen) ++ mac ++ (id ++ rerror ++ otherLen) ++
    otherData
  let rdLen ← field 2 rdata.length
  let keyName ← encodeName opts.keyName false
  let arcount ← field 2 (uint16 message 10 + 1)
  .ok ⟨write16 message 10 arcount ++
    (keyName ++ (beBytes 2 250 ++ beBytes 2 255 ++ beBytes 4 0 ++ rdLen) ++ rdata), mac⟩

/-! ## `verify` -/

structure TsigRr where
  keyName : JsString
  algName : JsString
  timeSigned : Nat
  fudge : Nat
  mac : Bytes
  originalId : Nat
  error : Nat
  otherData : Bytes
  deriving DecidableEq

/-- `_parseTsigRr`. -/
def parseTsigRr (buf : Bytes) (rrStart : Nat) : Except TsigError TsigRr := do
  let (keyName, off) ← readName buf rrStart
  ensure (uint16 buf off = 250) .notTsig
  ensure (uint16 buf (off + 2) = 255) .badRr
  ensure (uint32 buf (off + 4) = 0) .badRr
  let rdStart := off + 10
  let rdEnd := rdStart + uint16 buf (off + 8)
  let need := fun (off count : Nat) =>
    ensure (off + count ≤ rdEnd ∧ off + count ≤ buf.length) .truncated
  let (alg, off) ← readName buf rdStart
  need off 10
  let macSize := uint16 buf (off + 8)
  need (off + 10) (macSize + 6)
  let after := off + 10 + macSize
  let otherLen := uint16 buf (after + 4)
  need (after + 6) otherLen
  ensure (after + 6 + otherLen = rdEnd) .badRdata
  .ok { keyName, algName := dropDot alg, timeSigned := beValue (slice buf off 6),
        fudge := uint16 buf (off + 6), mac := slice buf (off + 10) macSize,
        originalId := uint16 buf after, error := uint16 buf (after + 2),
        otherData := slice buf (after + 6) otherLen }

structure Key where
  secret : Bytes
  algorithm : Option JsString
  deriving DecidableEq

structure VerifyOpts where
  keys : Option (List (JsString × Key))
  keyName : Option JsString
  key : Key
  now : Option Rat
  requestMac : Option Bytes
  allowLegacy : Bool

/-- The key of a name: of the table when there is one, or else the single one. -/
def findKey (opts : VerifyOpts) (keyName : JsString) : Option Key := do
  let name ← canonicalKey keyName
  match opts.keys with
  | some keys => (keys.find? fun k => canonicalKey k.1 = some name).map Prod.snd
  | none => if opts.keyName.bind canonicalKey = some name then some opts.key else none

/-- What a MAC must be of. -/
def verifyDigest (buf : Bytes) (rrStart : Nat) (rr : TsigRr) (requestMac : Option Bytes) :
    Except TsigError Bytes := do
  let start ← requestMacPrefix requestMac
  let id ← field 2 rr.originalId
  let message := write16 (buf.take rrStart) 0 id
  let arcount ← field 2 ((uint16 message 10 : Rat) - 1)
  let vars ← tsigVariables rr.keyName (rr.algName ++ units ".") rr.timeSigned rr.fudge rr.error
    rr.otherData
  .ok (start ++ write16 message 10 arcount ++ vars)

/-- Whole, or cut to half of it and ten bytes at least. -/
def macMatches (mac expected : Bytes) : Bool :=
  if mac.length = expected.length then mac = expected
  else if 10 ≤ mac.length ∧ expected.length ≤ 2 * mac.length ∧ mac.length < expected.length then
    mac = expected.take mac.length
  else false

structure Result where
  keyName : JsString
  algorithm : JsString
  timeSigned : Nat
  fudge : Nat
  error : Nat
  macValid : Bool
  timeValid : Bool
  deriving DecidableEq

def Result.valid (r : Result) : Bool := r.macValid && r.timeValid && r.error = 0

def verify (hmac : Hmac) (clock : Int) (buf : Bytes) (opts : VerifyOpts) :
    Except TsigError Result := do
  ensure (12 ≤ buf.length) .badMessage
  let rrStart ← findTsigRr buf
  let rr ← parseTsigRr buf rrStart
  let refused : Result := ⟨rr.keyName, rr.algName, rr.timeSigned, rr.fudge, 17, false, false⟩
  match findKey opts rr.keyName with
  | none => .ok refused
  | some key =>
      let alg ← normAlg (if key.algorithm.getD [] = [] then some rr.algName else key.algorithm)
        opts.allowLegacy
      if alg.name ≠ rr.algName.map smallUnit then .ok refused
      else
        let digest ← verifyDigest buf rrStart rr opts.requestMac
        let macValid := macMatches rr.mac (hmac alg.hash key.secret digest)
        let now : Rat := opts.now.getD clock
        let timeValid : Bool := |now - rr.timeSigned| ≤ (rr.fudge : Rat)
        .ok ⟨rr.keyName, rr.algName, rr.timeSigned, rr.fudge,
          if macValid then (if timeValid then rr.error else 18) else 16, macValid, timeValid⟩

end Blamejs.Tsig
