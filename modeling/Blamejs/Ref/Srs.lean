import Blamejs.Js.LowerCase
import Mathlib.Algebra.GroupWithZero.Nat
import Mathlib.Tactic.Common

/-!
# Sender rewriting (`lib/mail-srs.js`)

`rewrite`, `srs1Rewrite` and `reverse` of a rewriter. HMAC-SHA-256 and the case data of
Unicode are parameters; a time is a number of milliseconds since the epoch.
-/

namespace Blamejs.Srs

open Blamejs.Js

abbrev Bytes := List UInt8

/-- What the platform computes. -/
structure Platform where
  hmac : (key data : Bytes) → Bytes
  cases : CaseTable

inductive Err where
  | badSecret
  | badForwarder
  | badExpiry
  | badAddress
  | alreadyRewritten
  | notSrs0
  | malformed
  | tooLong
  | wrongForwarder
  | badTag
  | expired
  deriving DecidableEq, Repr

/-! ## Strings -/

/-- Around the first of a unit. -/
def splitFirst (u : UInt16) : JsString → Option (JsString × JsString)
  | [] => none
  | v :: s => if v = u then some ([], s) else (splitFirst u s).map fun (a, b) => (v :: a, b)

/-- Around the last of a unit, as `lastIndexOf` finds it. -/
def splitLast (u : UInt16) : JsString → Option (JsString × JsString)
  | [] => none
  | v :: s =>
      match splitLast u s with
      | some (a, b) => some (v :: a, b)
      | none => if v = u then some ([], s) else none

/-- Around the first two of a unit in a row. -/
def splitDouble (u : UInt16) : JsString → Option (JsString × JsString)
  | v :: w :: s =>
      if v = u ∧ w = u then some ([], s)
      else (splitDouble u (w :: s)).map fun (a, b) => (v :: a, b)
  | _ => none

def at_ : UInt16 := unit '@'

def eq_ : UInt16 := unit '='

/-- `hasCrlf(value) || value.indexOf("\u0000") !== -1`. -/
def headerUnsafe (s : JsString) : Bool := s.any fun u => u = 13 || u = 10 || u = 0

def asciiSmall (u : UInt16) : UInt16 :=
  if 0x41 ≤ u.toNat ∧ u.toNat ≤ 0x5A then UInt16.ofNat (u.toNat + 0x20) else u

/-- `/^SRS0=/i` and `/^SRS1=/i`. -/
def isSrs (digit : Char) (localPart : JsString) : Bool :=
  (localPart.take 5).map asciiSmall = units "srs" ++ [unit digit, eq_]

/-- The checks that begin each function, and `slice` around the `@`. -/
def splitAddress (address : JsString) : Except Err (JsString × JsString) :=
  if address = [] then .error .badAddress
  else if headerUnsafe address then .error .badAddress
  else
    match splitLast at_ address with
    | none => .error .badAddress
    | some (localPart, domain) =>
        if localPart = [] ∨ domain = [] then .error .badAddress else .ok (localPart, domain)

/-! ## Tags and days -/

def base32 : JsString := units "abcdefghijklmnopqrstuvwxyz234567"

/-- `BASE32.charAt(i)`. -/
def base32Char (i : Nat) : JsString := (base32.drop i).take 1

/-- `while (bits >= 5)`: the characters, and the bits that are left. -/
def drain (value : Nat) : Nat → JsString × Nat
  | bits + 5 =>
      let (out, left) := drain value bits
      (base32Char (value / 2 ^ bits % 32) ++ out, left)
  | bits => ([], bits)

def base32From (value bits : Nat) : Bytes → JsString
  | [] => if 0 < bits then base32Char (value * 2 ^ (5 - bits) % 32) else []
  | b :: bs =>
      let value := (value * 256 + b.toNat) % 2 ^ 32
      let (out, left) := drain value (bits + 8)
      out ++ base32From value left bs

/-- `_base32Encode`. -/
def base32Encode (buf : Bytes) : JsString := base32From 0 0 buf

/-- `_hashTag`. -/
def hashTag (P : Platform) (secret hashInput : JsString) : JsString :=
  let mac := P.hmac (utf8 secret) (utf8 (toLowerCase P.cases hashInput))
  (base32Encode (mac.take 4)).take 4

def dayMs : Nat := 24 * 60 * 60 * 1000

/-- `_dayStamp`. -/
def dayStamp (now : Nat) : JsString :=
  let days := now / dayMs % 1024
  base32Char (days / 32) ++ base32Char (days % 32)

/-- `_dayDiff`; `none` is `Infinity`. -/
def dayDiff (stamp : JsString) (now : Nat) : Option Nat :=
  match stamp with
  | [a, b] => do
      let hi ← base32.idxOf? a
      let lo ← base32.idxOf? b
      some ((now / dayMs % 1024 + 1024 - (hi * 32 + lo)) % 1024)
  | _ => none

/-! ## Rewriting -/

structure Opts where
  secret : JsString
  forwarderDomain : JsString
  /-- An integer, if it is given; anything else is refused as one out of range is. -/
  expiryDays : Option Int

structure Srs where
  secret : JsString
  forwarderDomain : JsString
  expiryDays : Nat
  deriving DecidableEq, Repr

/-- `create`. -/
def create (o : Opts) : Except Err Srs :=
  if o.secret = [] then .error .badSecret
  else if o.forwarderDomain = [] then .error .badForwarder
  else if o.secret.length < 16 then .error .badSecret
  else
    let expiryDays := o.expiryDays.getD 30
    if expiryDays < 1 ∨ 1024 < expiryDays then .error .badExpiry
    else .ok ⟨o.secret, o.forwarderDomain, expiryDays.toNat⟩

/-- `ts + "=" + domain + "=" + localPart`. -/
def hashInput (ts domain localPart : JsString) : JsString :=
  ts ++ eq_ :: (domain ++ eq_ :: localPart)

variable (P : Platform)

def Srs.tag (srs : Srs) (input : JsString) : JsString := hashTag P srs.secret input

/-- `rewrite`. -/
def Srs.rewrite (srs : Srs) (originalAddress : JsString) (now : Nat) : Except Err JsString := do
  let (localPart, domain) ← splitAddress originalAddress
  if 64 < localPart.length ∨ 253 < domain.length then .error .badAddress
  else if isSrs '0' localPart || isSrs '1' localPart then .error .alreadyRewritten
  else
    let ts := dayStamp now
    let tag := srs.tag P (hashInput ts domain localPart)
    .ok (units "SRS0=" ++ tag ++ eq_ :: hashInput ts domain localPart ++ at_ :: srs.forwarderDomain)

structure Srs1 where
  tag : JsString
  priorForwarder : JsString
  srs0Body : JsString

/-- `_parseSrs1`. -/
def parseSrs1 (localPart : JsString) : Except Err Srs1 :=
  match splitFirst eq_ (localPart.drop 5) with
  | none => .error .malformed
  | some (tag, afterTag) =>
      if tag = [] then .error .malformed
      else
        match splitDouble eq_ afterTag with
        | none => .error .malformed
        | some (priorForwarder, srs0Body) =>
            if priorForwarder = [] then .error .malformed
            else if srs0Body = [] then .error .malformed
            else .ok ⟨tag, priorForwarder, srs0Body⟩

/-- The prior forwarder and the body of an address that is chained. -/
def chained (srsAddress : JsString) : Except Err (JsString × JsString) := do
  let (localPart, domain) ← splitAddress srsAddress
  if isSrs '0' localPart then .ok (domain, localPart.drop 5)
  else if isSrs '1' localPart then do
    let inner ← parseSrs1 localPart
    pure (inner.priorForwarder, inner.srs0Body)
  else .error .notSrs0

/-- `priorForwarder + "==" + srs0Body`. -/
def srs1Input (priorForwarder srs0Body : JsString) : JsString :=
  priorForwarder ++ eq_ :: eq_ :: srs0Body

/-- `srs1Rewrite`. -/
def Srs.srs1Rewrite (srs : Srs) (srsAddress : JsString) : Except Err JsString := do
  let (priorForwarder, srs0Body) ← chained srsAddress
  if priorForwarder = [] ∨ eq_ ∈ priorForwarder then .error .badAddress
  else
    let tag := srs.tag P (srs1Input priorForwarder srs0Body)
    let result := units "SRS1=" ++ tag ++ eq_ :: srs1Input priorForwarder srs0Body ++
      at_ :: srs.forwarderDomain
    if 256 < result.length then .error .tooLong else .ok result

/-- The fields of an SRS0 local-part behind its prefix: tag, stamp, domain and local
part. -/
def srs0Fields (rest : JsString) : Except Err (JsString × JsString × JsString × JsString) :=
  match rest.splitOn eq_ with
  | tag :: ts :: origDomain :: p :: parts =>
      .ok (tag, ts, origDomain, [eq_].intercalate (p :: parts))
  | _ => .error .malformed

/-- `_timingSafeStringEqual`. -/
def sameBytes (a b : JsString) : Bool := utf8 a = utf8 b

/-- `reverse`. -/
def Srs.reverse (srs : Srs) (srsAddress : JsString) (now : Nat) : Except Err JsString := do
  let (localPart, rcptDomain) ← splitAddress srsAddress
  if !isSrs '0' localPart && !isSrs '1' localPart then .error .notSrs0
  else if toLowerCase P.cases rcptDomain ≠ toLowerCase P.cases srs.forwarderDomain then
    .error .wrongForwarder
  else if isSrs '1' localPart then do
    let s1 ← parseSrs1 localPart
    if !sameBytes s1.tag (srs.tag P (srs1Input s1.priorForwarder s1.srs0Body)) then .error .badTag
    else .ok (units "SRS0=" ++ s1.srs0Body ++ at_ :: s1.priorForwarder)
  else do
    let (tag, ts, origDomain, origLocal) ← srs0Fields (localPart.drop 5)
    if !sameBytes tag (srs.tag P (hashInput ts origDomain origLocal)) then .error .badTag
    else
      match dayDiff ts now with
      | none => .error .expired
      | some diff =>
          if srs.expiryDays < diff then .error .expired
          else .ok (origLocal ++ at_ :: origDomain)

/-- The calls that sign. -/
inductive Call where
  | rewrite (address : JsString) (now : Nat)
  | srs1Rewrite (address : JsString)

/-- What a call returns. -/
def Call.result (srs : Srs) : Call → Except Err JsString
  | .rewrite address now => srs.rewrite P address now
  | .srs1Rewrite address => srs.srs1Rewrite P address

end Blamejs.Srs
