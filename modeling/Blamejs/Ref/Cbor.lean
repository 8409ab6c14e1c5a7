import Blamejs.Js.Bytes
import Blamejs.Js.Text

/-!
# CBOR (`lib/cbor.js`)

The deterministic encoder and the bounded decoder. The decoder's state is the
bytes it has not read; a recursion over a byte string is bounded by fuel, and
`decode` gives it enough to read every byte twice over.

A `Map` is its entries in insertion order. Looking a key up compares primitives
by value and everything else by identity, and since the decoder builds every
array, map, byte string and tag afresh, no two of those are ever one key.
-/

namespace Blamejs.Cbor

open Blamejs.Js

inductive Value where
  | null
  | undefined
  | bool (b : Bool)
  | num (x : Double)
  | bigint (z : Int)
  | text (s : JsString)
  /-- A `Buffer` or `Uint8Array`. -/
  | bytes (bs : List UInt8)
  | array (items : List Value)
  /-- A `Map`. -/
  | map (entries : List (Value × Value))
  /-- A plain object, by its own enumerable properties. -/
  | obj (entries : List (JsString × Value))
  /-- A `Tag`, whose constructor admits non-negative integers. -/
  | tag (n : Nat) (v : Value)
  | boxed (v : Value)
  | date
  /-- An object `canonicalJson._noJsonFormName` has a name for. -/
  | noForm (name : String)
  /-- A value of any other type, by its `typeof`. -/
  | other (typeName : String)

inductive Failure where
  | cbor (code message : String)
  /-- The model ran out of fuel; the code has no such failure. -/
  | outOfFuel
deriving DecidableEq, Repr

def fail {α : Type} (code message : String) : Except Failure α := .error (.cbor code message)

/-- `ABSOLUTE_MAX_DEPTH`. -/
def absoluteMaxDepth : Nat := 256

/-- `DEFAULT_MAX_DEPTH`. -/
def defaultMaxDepth : Nat := 64

/-- `DEFAULT_MAX_BYTES`. -/
def defaultMaxBytes : Nat := 16 * 1024 * 1024

/-- `ABSOLUTE_MAX_BYTES`. -/
def absoluteMaxBytes : Nat := 64 * 1024 * 1024

/-- `_capInt(v, dflt, absolute)`. -/
def capInt (v : Option Double) (dflt absolute : Nat) : Nat :=
  match v with
  | none => dflt
  | some x =>
      if !x.isFinite || x.lt (Double.ofInt 1) then dflt
      else min (x.mag / Double.unitsPerOne) absolute

/-! ## Encoding -/

/-- `_doubleToHalfBits(value)`; `none` is its -1. -/
def doubleToHalfBits (value : Double) : Option Nat :=
  if value.isZero then some (if value.neg then 0x8000 else 0x0000)
  else
    let f := writeSingle value
    if !(readSingle f).strictEq value then none
    else
      let sign := f >>> 16 &&& 0x8000
      let exp := f >>> 23 &&& 0xff
      let mant := f &&& 0x7fffff
      let unbiased : Int := exp - 127 + 15
      if 0x1f ≤ unbiased then none
      else if unbiased ≤ 0 then
        if unbiased < -10 then none
        else
          let fullMant := mant ||| 0x800000
          let shift := (14 - unbiased).toNat
          if fullMant &&& (1 <<< shift) - 1 ≠ 0 then none else some (sign ||| fullMant >>> shift)
      else if mant &&& 0x1fff ≠ 0 then none
      else some (sign ||| unbiased.toNat <<< 10 ||| mant >>> 13)

/-- `_encodeFloat(value)`. -/
def encodeFloat (value : Double) : List UInt8 :=
  if value.isNaN then [0xf9, 0x7e, 0x00]
  else if value.isInfinite then (if value.neg then [0xf9, 0xfc, 0x00] else [0xf9, 0x7c, 0x00])
  else match doubleToHalfBits value with
    | some half => 0xf9 :: beBytes 2 half
    | none =>
        if (readSingle (writeSingle value)).strictEq value then
          0xfa :: beBytes 4 (writeSingle value)
        else 0xfb :: beBytes 8 (writeDouble value)

/-- `_head(major, argument)`. -/
def head (major argument : Nat) : Except Failure (List UInt8) :=
  let mt := major * 32
  if argument < 24 then .ok [UInt8.ofNat (mt + argument)]
  else if argument < 256 then .ok (UInt8.ofNat (mt + 24) :: beBytes 1 argument)
  else if argument < 65536 then .ok (UInt8.ofNat (mt + 25) :: beBytes 2 argument)
  else if argument < 4294967296 then .ok (UInt8.ofNat (mt + 26) :: beBytes 4 argument)
  else if argument < 18446744073709551616 then .ok (UInt8.ofNat (mt + 27) :: beBytes 8 argument)
  else fail "cbor/int-overflow" "cbor.encode: integer exceeds 64-bit CBOR range"

/-- A head and the bytes it announces. -/
def headed (major argument : Nat) (body : List UInt8) : Except Failure (List UInt8) :=
  (head major argument).map (· ++ body)

def encodeInt (z : Int) : Except Failure (List UInt8) :=
  if 0 ≤ z then head 0 z.toNat else head 1 (-1 - z).toNat

def encodeNumber (allowNonFinite : Bool) (x : Double) : Except Failure (List UInt8) :=
  if x.isInteger && !x.isNegZero && x.mag ≤ Double.maxSafe * Double.unitsPerOne then
    encodeInt x.toInt
  else if !x.isFinite && !allowNonFinite then
    fail "cbor/non-finite"
      "cbor.encode: NaN / Infinity refused (set allowNonFinite to emit them)"
  else .ok (encodeFloat x)

def encodeText (s : JsString) : Except Failure (List UInt8) :=
  headed 3 (utf8 s).length (utf8 s)

/-- `Buffer.compare(a[0], b[0])` on encoded entries. -/
def entryLE (a b : List UInt8 × List UInt8) : Prop := bytesLE a.1 b.1

instance : DecidableRel entryLE := fun a b => inferInstanceAs (Decidable (bytesLE a.1 b.1))

/-- Two neighbours of a sorted list have one key. -/
def hasDuplicate : List (List UInt8 × List UInt8) → Bool
  | a :: b :: rest => a.1 == b.1 || hasDuplicate (b :: rest)
  | _ => false

/-- The end of `_encodeMap`: sort, refuse duplicates, concatenate. -/
def assembleMap (entries : List (List UInt8 × List UInt8)) : Except Failure (List UInt8) :=
  let sorted := entries.insertionSort entryLE
  if hasDuplicate sorted then fail "cbor/duplicate-key" "cbor.encode: duplicate map key"
  else headed 5 sorted.length (sorted.flatMap fun e => e.1 ++ e.2)

mutual

/-- `_encodeValue(value, opts, depth)`. -/
def encodeValue (allowNonFinite : Bool) (depth : Nat) (value : Value) :
    Except Failure (List UInt8) :=
  if absoluteMaxDepth < depth then
    fail "cbor/too-deep" ("cbor.encode: value nests deeper than " ++ toString absoluteMaxDepth ++
      " levels")
  else match value with
    | .null => .ok [0xf6]
    | .undefined => .ok [0xf7]
    | .bool b => .ok (if b then [0xf5] else [0xf4])
    | .boxed v => encodeValue allowNonFinite depth v
    | .num x => encodeNumber allowNonFinite x
    | .bigint z => encodeInt z
    | .text s => encodeText s
    | .bytes bs => headed 2 bs.length bs
    | .array items => do
        let lead ← head 4 items.length
        let parts ← encodeItems allowNonFinite (depth + 1) items
        pure (lead ++ parts)
    | .tag n v => do
        let lead ← head 6 n
        let body ← encodeValue allowNonFinite (depth + 1) v
        pure (lead ++ body)
    | .date =>
        fail "cbor/unencodable" ("cbor.encode: a Date has no CBOR form of its own and would be " ++
          "written as an empty map; wrap it as the tag RFC 8949 defines, new b.cbor.Tag(1, " ++
          "epochSeconds) or new b.cbor.Tag(0, isoString)")
    | .map entries => do assembleMap (← encodeEntries allowNonFinite (depth + 1) entries)
    | .obj entries => do assembleMap (← encodeProperties allowNonFinite (depth + 1) entries)
    | .noForm name =>
        fail "cbor/unencodable" ("cbor.encode: " ++ name ++ " keeps its data outside its own " ++
          "properties, so it would be written as an empty map; convert it to a plain object, " ++
          "an array or a Map")
    | .other typeName =>
        fail "cbor/unencodable" ("cbor.encode: value of type " ++ typeName ++
          " is not CBOR-encodable")

def encodeItems (allowNonFinite : Bool) (depth : Nat) : List Value → Except Failure (List UInt8)
  | [] => .ok []
  | v :: vs => do
      let first ← encodeValue allowNonFinite depth v
      let rest ← encodeItems allowNonFinite depth vs
      pure (first ++ rest)

/-- The entries of a `Map`, each key and value encoded. -/
def encodeEntries (allowNonFinite : Bool) (depth : Nat) :
    List (Value × Value) → Except Failure (List (List UInt8 × List UInt8))
  | [] => .ok []
  | (k, v) :: es => do
      let key ← encodeValue allowNonFinite depth k
      let value ← encodeValue allowNonFinite depth v
      let rest ← encodeEntries allowNonFinite depth es
      pure ((key, value) :: rest)

/-- The properties of a plain object, likewise. A key at a depth that is refused
is refused with the words its value would be. -/
def encodeProperties (allowNonFinite : Bool) (depth : Nat) :
    List (JsString × Value) → Except Failure (List (List UInt8 × List UInt8))
  | [] => .ok []
  | (k, v) :: es => do
      let key ← encodeText k
      let value ← encodeValue allowNonFinite depth v
      let rest ← encodeProperties allowNonFinite depth es
      pure ((key, value) :: rest)

end

/-- `encode(value)`. -/
def encode (value : Value) : Except Failure (List UInt8) := encodeValue false 0 value

/-! ## Decoding -/

/-- The equality a `Map` looks a key up by. -/
def sameKey : Value → Value → Bool
  | .null, .null => true
  | .undefined, .undefined => true
  | .bool a, .bool b => a == b
  | .num x, .num y => x.sameValueZero y
  | .bigint a, .bigint b => a == b
  | .text s, .text t => s == t
  | _, _ => false

/-- `m.set(key, value)`: a key already present keeps its place. -/
def mapSet : List (Value × Value) → Value → Value → List (Value × Value)
  | [], k, v => [(k, v)]
  | (k', v') :: rest, k, v =>
      if sameKey k' k then (k', v) :: rest else (k', v') :: mapSet rest k v

/-- The limits a decoding runs under. -/
structure Limits where
  maxDepth : Nat
  allowedTags : List Nat

/-- `_need(state, n)`, and the bytes it made sure of. -/
def takeBytes (n : Nat) (st : List UInt8) : Except Failure (List UInt8 × List UInt8) :=
  if st.length < n then fail "cbor/truncated" "cbor.decode: unexpected end of input"
  else .ok (st.splitAt n)

/-- `_readArgument(state, ai)`. What is above `2 ^ 53 - 1` is a big integer. -/
def readArgument (ai : Nat) (st : List UInt8) : Except Failure (Nat × List UInt8) :=
  let read := fun k => (takeBytes k st).map fun p => (beValue p.1, p.2)
  if ai < 24 then .ok (ai, st)
  else if ai = 24 then read 1
  else if ai = 25 then read 2
  else if ai = 26 then read 4
  else if ai = 27 then read 8
  else if ai = 31 then
    fail "cbor/indefinite-refused"
      "cbor.decode: indefinite-length items are refused (deterministic-encoding violation)"
  else fail "cbor/reserved-ai" ("cbor.decode: reserved additional-information value " ++
    toString ai ++ " (28-30) refused")

/-- `_lenOf(_readArgument(state, ai))`. -/
def readLength (ai : Nat) (st : List UInt8) : Except Failure (Nat × List UInt8) := do
  let (n, st) ← readArgument ai st
  if Double.maxSafe < n then
    fail "cbor/length-too-large" "cbor.decode: declared length exceeds addressable range"
  else pure (n, st)

/-- A non-negative argument as a value. -/
def ofArgument (n : Nat) : Value :=
  if n ≤ Double.maxSafe then .num (Double.ofInt n) else .bigint n

/-- `-1 - n`, as a number while that is safe. -/
def ofNegArgument (n : Nat) : Value :=
  if n + 1 ≤ Double.maxSafe then .num (Double.ofInt (-1 - n)) else .bigint (-1 - n)

/-- `_readFloat16(state)`, on the two bytes as an integer. -/
def readFloat16 (half : Nat) : Double :=
  let exp := half >>> 10 &&& 0x1f
  let mant := half &&& 0x3ff
  let neg := half &&& 0x8000 ≠ 0
  if exp = 0 then Double.ofScaled neg (mant * 2 ^ (Double.unitOrder - 24))
  else if exp = 31 then (if mant ≠ 0 then Double.nan else Double.infinity neg)
  else Double.ofScaled neg ((1024 + mant) * 2 ^ (Double.unitOrder + exp - 25))

/-- `_decodeSimpleOrFloat(state, ai)`. -/
def decodeSimpleOrFloat (ai : Nat) (st : List UInt8) : Except Failure (Value × List UInt8) :=
  let float := fun (k : Nat) (read : Nat → Double) =>
    (takeBytes k st).map fun p => (Value.num (read (beValue p.1)), p.2)
  if ai = 20 then .ok (.bool false, st)
  else if ai = 21 then .ok (.bool true, st)
  else if ai = 22 then .ok (.null, st)
  else if ai = 23 then .ok (.undefined, st)
  else if ai = 25 then float 2 readFloat16
  else if ai = 26 then float 4 readSingle
  else if ai = 27 then float 8 readDouble
  else if ai = 31 then
    fail "cbor/indefinite-refused" "cbor.decode: indefinite-length break refused"
  else fail "cbor/bad-simple" ("cbor.decode: unsupported simple value " ++ toString ai ++
    " (only false/true/null/undefined + float16/32/64)")

/-- The text of a string's bytes, by a fatal `TextDecoder`. -/
def decodeText (bytes : List UInt8) : Except Failure JsString :=
  match textDecode bytes with
  | some s => .ok s
  | none => fail "cbor/invalid-utf8" "cbor.decode: text string is not valid UTF-8 (RFC 8949 §3.1)"

/-- The identity a decoded map key is remembered under: its own encoding, or the
bytes it was read from when it has none. -/
def keyId (key : Value) (raw : List UInt8) : List UInt8 :=
  match encode key with
  | .ok bytes => bytes
  | .error _ => utf8 (units "raw:") ++ raw

mutual

/-- `_decodeItem(state, depth)`. -/
def decodeItem (limits : Limits) (fuel depth : Nat) (st : List UInt8) :
    Except Failure (Value × List UInt8) :=
  match fuel with
  | 0 => .error .outOfFuel
  | fuel + 1 =>
      if limits.maxDepth < depth then
        fail "cbor/max-depth" ("cbor.decode: nesting exceeds maxDepth " ++
          toString limits.maxDepth)
      else match st with
        | [] => fail "cbor/truncated" "cbor.decode: unexpected end of input"
        | ib :: st =>
            let ai := ib.toNat % 32
            match ib.toNat / 32 with
            | 0 => do
                let (n, st) ← readArgument ai st
                pure (ofArgument n, st)
            | 1 => do
                let (n, st) ← readArgument ai st
                pure (ofNegArgument n, st)
            | 2 => do
                let (blen, st) ← readLength ai st
                let (bytes, st) ← takeBytes blen st
                pure (.bytes bytes, st)
            | 3 => do
                let (slen, st) ← readLength ai st
                let (bytes, st) ← takeBytes slen st
                let s ← decodeText bytes
                pure (.text s, st)
            | 4 => do
                let (alen, st) ← readLength ai st
                let (items, st) ← decodeItems limits fuel (depth + 1) alen st
                pure (.array items, st)
            | 5 => do
                let (mlen, st) ← readLength ai st
                let (m, st) ← decodeEntries limits fuel (depth + 1) mlen [] [] st
                pure (.map m, st)
            | 6 => do
                let (tag, st) ← readLength ai st
                if tag ∉ limits.allowedTags then
                  fail "cbor/tag-refused" ("cbor.decode: tag " ++ toString tag ++
                    " refused (add it to allowedTags to permit)")
                else do
                  let (v, st) ← decodeItem limits fuel (depth + 1) st
                  pure (.tag tag v, st)
            | _ => decodeSimpleOrFloat ai st

/-- The loop over the items of an array. -/
def decodeItems (limits : Limits) (fuel depth : Nat) (count : Nat) (st : List UInt8) :
    Except Failure (List Value × List UInt8) :=
  match count, fuel with
  | 0, _ => .ok ([], st)
  | _ + 1, 0 => .error .outOfFuel
  | count + 1, fuel + 1 => do
      let (v, st) ← decodeItem limits fuel depth st
      let (vs, st) ← decodeItems limits fuel depth count st
      pure (v :: vs, st)

/-- The loop over the entries of a map, with the keys seen so far. -/
def decodeEntries (limits : Limits) (fuel depth : Nat) (count : Nat) (seen : List (List UInt8))
    (m : List (Value × Value)) (st : List UInt8) :
    Except Failure (List (Value × Value) × List UInt8) :=
  match count, fuel with
  | 0, _ => .ok (m, st)
  | _ + 1, 0 => .error .outOfFuel
  | count + 1, fuel + 1 => do
      let (key, st') ← decodeItem limits fuel depth st
      let id := keyId key (st.take (st.length - st'.length))
      if id ∈ seen then
        fail "cbor/duplicate-key" "cbor.decode: duplicate map key (RFC 8949 §5.6)"
      else do
        let (val, st') ← decodeItem limits fuel depth st'
        decodeEntries limits fuel depth count (id :: seen) (mapSet m key val) st'

end

/-- The options of `decode`. -/
structure DecodeOpts where
  maxDepth : Option Double
  maxBytes : Option Double
  allowedTags : List Nat
  requireDeterministic : Bool

/-- The options of a call that names none. -/
def defaultOpts : DecodeOpts := ⟨none, none, [], false⟩

def DecodeOpts.byteLimit (opts : DecodeOpts) : Nat :=
  capInt opts.maxBytes defaultMaxBytes absoluteMaxBytes

def DecodeOpts.limits (opts : DecodeOpts) : Limits where
  maxDepth := capInt opts.maxDepth defaultMaxDepth absoluteMaxDepth
  allowedTags := opts.allowedTags

/-- Fuel enough for every item and every turn of a loop in `n` bytes. -/
def decodeFuel (n : Nat) : Nat := 2 * n + 2

/-- `decode(buffer, opts)`. -/
def decode (opts : DecodeOpts) (buf : List UInt8) : Except Failure Value := do
  let maxBytes := opts.byteLimit
  if maxBytes < buf.length then
    fail "cbor/too-large" ("cbor.decode: input " ++ toString buf.length ++
      " bytes exceeds maxBytes " ++ toString maxBytes)
  else do
    let (value, rest) ← decodeItem opts.limits (decodeFuel buf.length) 0 buf
    if rest ≠ [] then
      fail "cbor/trailing-bytes" ("cbor.decode: " ++ toString rest.length ++
        " trailing byte(s) after the data item")
    else if opts.requireDeterministic then do
      let reencoded ← encode value
      if reencoded ≠ buf then
        fail "cbor/not-deterministic"
          "cbor.decode: input is not deterministically encoded (requireDeterministic)"
      else pure value
    else pure value

end Blamejs.Cbor
