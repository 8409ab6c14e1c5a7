import Blamejs.Js.Base64
import Blamejs.Js.Number

/-!
# Status lists (`lib/auth/status-list.js`)

A list packs statuses of one, two, four or eight bits into bytes. The issuer's list
knows its size; what it signs are the width and the deflated bytes, and the verifier
takes its size from the bytes it inflates. Deflating and the signature are parameters,
and of the claims of the token only what the two ends write and read is kept.
-/

namespace Blamejs.StatusList

open Js

inductive ErrorCode where
  | badSize | badBits | badStatus | badIndex | badIssuer | badSubject | tooLarge
  | badClaims | badBase64 | inflateFailed
deriving DecidableEq, Repr

/-- An argument, as far as `typeof` tells. -/
inductive Value where
  | number (x : Double)
  | other
deriving DecidableEq, Repr

def supportedBitSizes : List Nat := [1, 2, 4, 8]

/-- `C.BYTES.mib(1)`. -/
def maxListBytes : Nat := 1048576

/-! ## Checks -/

/-- `x >> 0`. -/
def toInt32 (x : Double) : Int := if x.isFinite then x.toInt.bmod 4294967296 else 0

/-- `(x >> 0) === x`. -/
def isInt32 (x : Double) : Bool := (Double.ofInt (toInt32 x)).strictEq x

/-- The size `create` takes. -/
def validSize : Value → Option Nat
  | .number x =>
      if !x.isFinite || x.le (.zero false) || !isInt32 x then none else some x.toInt.toNat
  | .other => none

/-- The index `get` and `set` look at. -/
def validIndex (size : Nat) : Value → Option Nat
  | .number x =>
      if x.lt (.zero false) || (Double.ofInt size).le x || !isInt32 x then none
      else some x.toInt.toNat
  | .other => none

/-- `_validateStatus(status, bits)`. -/
def validateStatus (bits : Nat) : Value → Option Nat
  | .number x =>
      if !x.isFinite || x.lt (.zero false) || !isInt32 x then none
      else if (1 <<< bits) - 1 < x.toInt.toNat then none
      else some x.toInt.toNat
  | .other => none

/-! ## Packing -/

/-- A byte as the operators of the language see it. -/
def byteAt (bytes : List UInt8) (i : Nat) : BitVec 32 := (bytes.getD i 0).toBitVec.setWidth 32

/-- `(1 << bits) - 1`. -/
def lowMask (bits : Nat) : BitVec 32 := (1#32 <<< bits) - 1#32

/-- `_setAt(bytes, bits, idx, status)`. -/
def setAt (bytes : List UInt8) (bits idx status : Nat) : List UInt8 :=
  if bits = 8 then bytes.set idx (UInt8.ofNat (status &&& 0xff))
  else
    let bitOffset := idx * bits
    let byteIdx := bitOffset / 8
    let bitInByte := bitOffset % 8
    let mask := lowMask bits <<< bitInByte
    bytes.set byteIdx (UInt8.ofBitVec
      (((byteAt bytes byteIdx &&& ~~~mask) |||
        ((BitVec.ofNat 32 status <<< bitInByte) &&& mask)).setWidth 8))

/-- `_getAt(bytes, bits, idx)`. -/
def getAt (bytes : List UInt8) (bits idx : Nat) : Nat :=
  if bits = 8 then (bytes.getD idx 0).toNat
  else
    let bitOffset := idx * bits
    let byteIdx := bitOffset / 8
    let bitInByte := bitOffset % 8
    ((byteAt bytes byteIdx).sshiftRight bitInByte &&& lowMask bits).toNat

theorem length_setAt (bytes : List UInt8) (bits idx status : Nat) :
    (setAt bytes bits idx status).length = bytes.length := by
  unfold setAt
  split <;> exact List.length_set

/-- `for (i = 0; i < size; i += 1) _setAt(bytes, bits, i, fill)`. -/
def fillAll (bytes : List UInt8) (bits size fill : Nat) : List UInt8 :=
  (List.range size).foldl (fun bs i => setAt bs bits i fill) bytes

theorem length_fillAll (bytes : List UInt8) (bits size fill : Nat) :
    (fillAll bytes bits size fill).length = bytes.length := by
  induction size with
  | zero => rfl
  | succ n ih =>
      rw [fillAll, List.range_succ, List.foldl_append, List.foldl_cons, List.foldl_nil,
        length_setAt]
      exact ih

end StatusList

/-- A list, with as many bytes as its statuses need. -/
structure StatusList where
  size : Nat
  bits : Nat
  bytes : List UInt8
  supported : bits ∈ StatusList.supportedBitSizes
  packed : bytes.length = (size * bits + 7) / 8

namespace StatusList

open Js

/-- `Buffer.alloc(Math.ceil((size * bits) / 8))`. -/
def empty (size bits : Nat) (h : bits ∈ supportedBitSizes) : StatusList :=
  ⟨size, bits, List.replicate ((size * bits + 7) / 8) 0, h, List.length_replicate⟩

/-- The fill a list is made with, nothing where none is asked for. -/
def fillOf (bits : Nat) : Option Value → Option Nat
  | none => some 0
  | some .other => none
  | some (.number x) => if x.isZero then some 0 else validateStatus bits (.number x)

/-- `create({ size, bits, fill })`. -/
def create (size : Value) (bits : Option Nat) (fill : Option Value) :
    Except ErrorCode StatusList := do
  let some n := validSize size | throw .badSize
  if h : bits.getD 1 ∈ supportedBitSizes then
    let list := empty n (bits.getD 1) h
    let some status := fillOf (bits.getD 1) fill | throw .badStatus
    if status = 0 then return list
    else return { list with
      bytes := fillAll list.bytes list.bits list.size status
      packed := (length_fillAll _ _ _ _).trans list.packed }
  else throw .badBits

/-- `list.set(idx, status)`: the list after it. -/
def set (list : StatusList) (idx status : Value) : Except ErrorCode StatusList := do
  let some i := validIndex list.size idx | throw .badIndex
  let some s := validateStatus list.bits status | throw .badStatus
  return { list with
    bytes := setAt list.bytes list.bits i s
    packed := (length_setAt _ _ _ _).trans list.packed }

/-- `list.get(idx)`. -/
def get (list : StatusList) (idx : Value) : Except ErrorCode Nat := do
  let some i := validIndex list.size idx | throw .badIndex
  return getAt list.bytes list.bits i

/-- A run of `set` calls; one that throws leaves the list as it is. -/
def setAll (list : StatusList) (sets : List (Value × Value)) : StatusList :=
  sets.foldl (fun l op => (l.set op.1 op.2).toOption.getD l) list

/-! ## The token -/

/-- What `safeJson` parses of a token's payload for `jwt.js`. -/
def maxPayloadBytes : Nat := 1048576

/-- The `status_list` claim, of which only `lst` must be there. -/
structure ListClaim where
  bits : Option Nat
  lst : Option JsString

structure Claims where
  iss : JsString
  sub : JsString
  statusList : Option ListClaim
  ttl : Option Double

structure JwtOpts where
  issuer : JsString
  subject : JsString
  ttl : Option Double

section token

variable {Token : Type} (deflateRaw : List UInt8 → List UInt8)
  (inflateRaw : List UInt8 → Nat → Option (List UInt8)) (sign : Claims → Token)
  (verify : Token → Except ErrorCode Claims)

/-- The claims of the token. -/
def claims (list : StatusList) (jwtOpts : JwtOpts) : Claims where
  iss := jwtOpts.issuer
  sub := jwtOpts.subject
  statusList := some ⟨some list.bits, some (toBase64Url (deflateRaw list.bytes))⟩
  ttl := jwtOpts.ttl

/-- `list.toJwt(jwtOpts)`. -/
def toJwt (list : StatusList) (jwtOpts : JwtOpts) : Except ErrorCode Token :=
  if jwtOpts.issuer = [] then .error .badIssuer
  else if jwtOpts.subject = [] then .error .badSubject
  else if maxListBytes < (deflateRaw list.bytes).length then .error .tooLarge
  else .ok (sign (claims deflateRaw list jwtOpts))

/-- `fromBase64Url(s)`: characters outside the alphabet and lengths no encoder writes are
refused, and up to two of padding may follow. -/
def fromB64url (s : JsString) : Except ErrorCode (List UInt8) :=
  let unpadded := (s.reverse.dropWhile (· == unit '=')).reverse
  if unpadded.all (fun u => (base64Value u).isSome && u != unit '+' && u != unit '/') &&
      s.length - unpadded.length ≤ 2 && unpadded.length % 4 != 1 then
    .ok (ofBase64 s)
  else .error .badBase64

/-- The list over inflated bytes: its size is what the bytes have room for. -/
def ofInflated (bits : Nat) (h : bits ∈ supportedBitSizes) (inflated : List UInt8) :
    StatusList where
  size := inflated.length * 8 / bits
  bits := bits
  bytes := inflated
  supported := h
  packed := by
    obtain rfl | rfl | rfl | rfl : bits = 1 ∨ bits = 2 ∨ bits = 4 ∨ bits = 8 := by
      simpa [supportedBitSizes] using h
    all_goals omega

/-- `fromJwt(token, opts)`: its `list`. -/
def fromJwt (token : Token) : Except ErrorCode StatusList := do
  let claims ← verify token
  let some sl := claims.statusList | throw .badClaims
  let some lst := sl.lst | throw .badClaims
  if h : sl.bits.getD 1 ∈ supportedBitSizes then
    let deflated ← fromB64url lst
    if maxListBytes < deflated.length then throw .tooLarge
    let some inflated := inflateRaw deflated (maxListBytes * 8) | throw .inflateFailed
    return ofInflated (sl.bits.getD 1) h inflated
  else throw .badBits

end token

end StatusList

end Blamejs
