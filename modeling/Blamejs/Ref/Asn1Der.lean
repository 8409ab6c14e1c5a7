import Blamejs.Js.Bytes
import Blamejs.Lib.Base128
import Blamejs.Ref.HttpCache

/-!
# The DER reader and writer (`lib/asn1-der.js`)

`readNode` takes one tag, length and value off a buffer at an offset,
`readNodeStrict` asks that nothing is left; `writeNode` writes one. Over them
stand the two content readers of this model, `readOid` and `readUnsignedInt`,
and the writer `writeOid`.

The code moves an offset over the buffer; here each helper gets the octets
from the offset on and gives what it read with the octets behind it. Tag
numbers and sub-identifiers go through `Base128.read`, which is the loop of
both: the code compares each value with the largest safe integer as it grows,
so that its doubles are exact as long as they are kept. Where a double is not
exact, in the first sub-identifier of `writeOid` and in `readUnsignedInt`, the
model rounds.
-/

namespace Blamejs.Asn1Der

open Blamejs.Js

abbrev Bytes := List UInt8

structure Err where
  code : String
  message : JsString
deriving DecidableEq

namespace TAG

def INTEGER : Nat := 0x02
def OID : Nat := 0x06
def ENUMERATED : Nat := 0x0a

end TAG

def UNIVERSAL : Nat := 0

/-- The double nearest to an integer, far below the largest double. -/
def nearest (n : Nat) : Nat := BinaryFormat.magnitude 52 (BinaryFormat.round 52 n 1)

structure Node where
  tag : Nat
  tagClass : Nat
  constructed : Bool
  length : Nat
  value : Bytes
  raw : Bytes
  valueStart : Nat
  totalLength : Nat
deriving DecidableEq

/-! ## Nodes -/

def tagFault : Base128.Fault → Err
  | .truncated => ⟨"asn1/short", units "tag continuation truncated"⟩
  | .redundant => ⟨"asn1/tag-non-minimal",
      units "high-tag-number form has a non-minimal leading 0x80 octet"⟩
  | .large => ⟨"asn1/tag-too-large", units "high-tag-number exceeds the safe-integer range"⟩

/-- The tag number, `rest` being what stands behind the identifier octet. -/
def readTag (b0 : UInt8) (rest : Bytes) : Except Err (Nat × Bytes) :=
  if b0.toNat % 32 = 0x1f then (Base128.read Double.maxSafe 0 true rest).mapError tagFault
  else .ok (b0.toNat % 32, rest)

/-- The length octets. -/
def readLength : Bytes → Except Err (Nat × Bytes)
  | [] => .error ⟨"asn1/short", units "length-byte missing"⟩
  | lenByte :: rest =>
      if lenByte.toNat < 128 then .ok (lenByte.toNat, rest)
      else
        let lenOctets := lenByte.toNat % 128
        if lenOctets = 0 then
          .error ⟨"asn1/indefinite-length", units "indefinite-length form is not allowed in DER"⟩
        else if lenOctets > 4 then
          .error ⟨"asn1/bad-length", units "length octets " ++ natText lenOctets ++
            units " exceeds 4 — refusing >4 GiB structure"⟩
        else if rest.length < lenOctets then
          .error ⟨"asn1/short", units "length octets truncated"⟩
        else
          let length := beValue (rest.take lenOctets)
          if length < 128 ∨ rest.head? = some 0 then
            .error ⟨"asn1/length-non-minimal",
              units "long-form length is not DER-minimal (length=" ++ natText length ++ units ")"⟩
          else .ok (length, rest.drop lenOctets)

def readNode (buf : Bytes) (offset : Nat) : Except Err Node :=
  match buf.drop offset with
  | [] => .error ⟨"asn1/short", units "buffer ended at offset " ++ natText offset⟩
  | b0 :: rest => do
      let (tag, rest) ← readTag b0 rest
      let (length, rest) ← readLength rest
      let valueStart := buf.length - rest.length
      if rest.length < length then
        .error ⟨"asn1/short", units "value extends past buffer: needs " ++ natText length ++
          units " bytes at " ++ natText valueStart⟩
      else
        .ok {
          tag
          tagClass := b0.toNat / 64
          constructed := b0.toNat / 32 % 2 = 1
          length
          value := rest.take length
          raw := (buf.drop offset).take (valueStart - offset + length)
          valueStart
          totalLength := valueStart - offset + length }

def readNodeStrict (buf : Bytes) : Except Err Node := do
  let node ← readNode buf 0
  if node.totalLength ≠ buf.length then
    .error ⟨"asn1/trailing-data", units "trailing bytes after the top-level DER node (" ++
      natText node.totalLength ++ units " of " ++ natText buf.length ++ units " bytes consumed)"⟩
  else .ok node

/-- The loop of `_encodeLength`: `n & 0xff` in front, then `n >>> 8`, which is taken of the
low 32 bits. `fuel` is at least `n`. -/
def lengthLoop : Nat → Nat → Bytes → Bytes
  | 0, _, bytes => bytes
  | fuel + 1, n, bytes =>
      if n = 0 then bytes else lengthLoop fuel (n % 2 ^ 32 / 256) (UInt8.ofNat (n % 256) :: bytes)

/-- `_encodeLength`. -/
def encodeLength (n : Nat) : Bytes :=
  if n < 128 then [UInt8.ofNat n]
  else
    let bytes := lengthLoop n n []
    UInt8.ofNat (0x80 ||| bytes.length) :: bytes

def writeNode (tagByte : UInt8) (value : Bytes) : Bytes :=
  tagByte :: (encodeLength value.length ++ value)

/-! ## Object identifiers -/

def oidFault : Base128.Fault → Err
  | .truncated => ⟨"asn1/oid-malformed", units "OID arc never terminated"⟩
  | .redundant => ⟨"asn1/oid-non-minimal",
      units "OID subidentifier has a non-minimal leading 0x80 octet"⟩
  | .large => ⟨"asn1/oid-overflow", units "OID subidentifier exceeds the safe-integer range"⟩

/-- The sub-identifiers; `fuel` is at least the number of octets. -/
def readSubids : Nat → Bytes → Except Err (List Nat)
  | 0, _ => .ok []
  | _ + 1, [] => .ok []
  | fuel + 1, b :: bytes => do
      let (arc, rest) ← (Base128.read Double.maxSafe 0 true (b :: bytes)).mapError oidFault
      let arcs ← readSubids fuel rest
      .ok (arc :: arcs)

/-- The first two arcs of a first sub-identifier. -/
def firstArcs (firstSubid : Nat) : List Nat :=
  if firstSubid < 40 then [0, firstSubid]
  else if firstSubid < 80 then [1, firstSubid - 40]
  else [2, firstSubid - 80]

/-- `arcs.join(".")`. -/
def dotted (arcs : List Nat) : JsString := [unit '.'].intercalate (arcs.map natText)

def readOid (node : Node) : Except Err JsString :=
  if node.tag ≠ TAG.OID ∨ node.tagClass ≠ UNIVERSAL then
    .error ⟨"asn1/wrong-tag", units "expected OID (tag 0x06), got " ++ natText node.tag⟩
  else if node.value = [] then .error ⟨"asn1/oid-empty", units "OID value is empty"⟩
  else do
    let subids ← readSubids node.value.length node.value
    .ok (dotted (firstArcs (subids.headD 0) ++ subids.tail))

/-- The loop of `_writeBase128Subid`; `fuel` is at least `arc`. -/
def stackLoop : Nat → Nat → List Nat → List Nat
  | 0, _, stack => stack
  | fuel + 1, arc, stack =>
      if arc = 0 then stack else stackLoop fuel (arc / 128) (arc % 128 :: stack)

/-- `_writeBase128Subid`: what it pushes. -/
def writeBase128Subid (arc : Nat) : Bytes :=
  if arc = 0 then [0]
  else
    let stack := stackLoop arc arc []
    (stack.dropLast.map fun g => UInt8.ofNat (g ||| 0x80)) ++
      (stack.drop (stack.length - 1)).map UInt8.ofNat

def badArc (p : Nat) : Err :=
  ⟨"asn1/oid-bad-arc", units "OID arc " ++ natText p ++ units " is not a non-negative integer"⟩

/-- The loop over the parts of a dotted text, from the part `p` on. -/
def checkArcs : Nat → List (Option Int) → Except Err (List Nat)
  | _, [] => .ok []
  | p, part :: parts =>
      match part with
      | none => .error (badArc p)
      | some n =>
          if n < 0 ∨ Double.maxSafe < n then .error (badArc p)
          else do
            let arcs ← checkArcs (p + 1) parts
            .ok (n.toNat :: arcs)

/-- `parts[0] * 40 + parts[1]`, each operation rounded. -/
def firstSubid (first second : Nat) : Nat := nearest (nearest (first * 40) + second)

def writeOid (text : JsString) : Except Err Bytes :=
  let parts := (text.splitOn (unit '.')).map HttpCache.parseInt10
  if parts.length < 2 then
    .error ⟨"asn1/oid-too-short", units "OID needs at least 2 arcs"⟩
  else do
    match ← checkArcs 0 parts with
    | first :: second :: arcs =>
        if first > 2 then
          .error ⟨"asn1/oid-bad-arc", units "OID first arc must be 0, 1, or 2"⟩
        else if first < 2 ∧ second ≥ 40 then
          .error ⟨"asn1/oid-bad-arc",
            units "OID second arc must be < 40 when the first arc is 0 or 1"⟩
        else
          .ok (writeNode 0x06 (writeBase128Subid (firstSubid first second) ++
            arcs.flatMap writeBase128Subid))
    | _ => .error ⟨"asn1/oid-too-short", units "OID needs at least 2 arcs"⟩

/-! ## Integers -/

/-- A number, or the octets in hexadecimal. -/
inductive UnsignedInt
  | number (n : Nat)
  | hex (text : JsString)
deriving DecidableEq

/-- `n = (n * 256) + byte`, each operation rounded. -/
def accumulate (n : Nat) (b : UInt8) : Nat := nearest (nearest (n * 256) + b.toNat)

def readUnsignedInt (node : Node) : Except Err UnsignedInt :=
  if node.tag ≠ TAG.INTEGER ∧ node.tag ≠ TAG.ENUMERATED then
    .error ⟨"asn1/wrong-tag", units "expected INTEGER/ENUMERATED, got " ++ natText node.tag⟩
  else
    match node.value with
    | [] => .error ⟨"asn1/int-empty", units "INTEGER value is empty"⟩
    | b :: bytes =>
        if (b :: bytes).length > 8 then .ok (.hex (CanonicalJson.hexText (b :: bytes)))
        else
          let start := if b = 0 ∧ bytes ≠ [] then bytes else b :: bytes
          .ok (.number (start.foldl accumulate 0))

end Blamejs.Asn1Der
