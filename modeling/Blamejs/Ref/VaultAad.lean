import Blamejs.Js.Base64
import Blamejs.Js.Bytes
import Blamejs.Js.LossyText
import Blamejs.Js.NumberText
import Blamejs.Ref.CanonicalJson

/-!
# Values sealed under additional data (`lib/vault-aad.js`)

The hash, the key derivation and the AEAD come from `lib/crypto.js` and are a parameter
here, the key material of the vault with them. The AEAD draws a nonce of its own for each
packet. The audit events are left out: nothing that is returned depends on them.
-/

namespace Blamejs.VaultAad

open Blamejs.Js CanonicalJson

abbrev Bytes := List UInt8

def aadPrefix : JsString := units "vault.aad:"

def aadVersion : UInt8 := 1

/-- What a field of the additional data may hold; `other` is any value that is refused. -/
inductive Value where
  | str (v : JsString)
  | num (v : Double)
  | bool (v : Bool)
  | other (typeName : JsString)
  deriving DecidableEq, Repr

/-- `String(parts[key])`. -/
def Value.text : Value → JsString
  | .str v => v
  | .num v => numberText v
  | .bool v => if v then units "true" else units "false"
  | .other typeName => typeName

/-- The own properties of a plain object in the order they were set; no name comes twice. -/
structure Parts where
  fields : List (JsString × Value)
  nodup : (fields.map Prod.fst).Nodup

inductive Err where
  | noField
  | poisonedKey (key : JsString)
  | badType (key typeName : JsString)
  /-- The RangeError of `writeUInt16BE` or `writeUInt32BE`. -/
  | outOfRange (length : Nat)
  | emptyPlaintext
  | alreadySealed
  | notSealed
  | aeadMismatch
  deriving DecidableEq, Repr

/-- `writeUInt16BE` for two bytes, `writeUInt32BE` for four. -/
def writeLength (width length : Nat) : Except Err Bytes :=
  if length < 256 ^ width then .ok (beBytes width length) else .error (.outOfRange length)

/-- The chunks of one field. -/
def fieldBytes (isPoisonedKey : JsString → Bool) (field : JsString × Value) : Except Err Bytes :=
  if isPoisonedKey field.1 then .error (.poisonedKey field.1)
  else
    match field.2 with
    | .other typeName => .error (.badType field.1 typeName)
    | value => do
        let keyBuf := utf8 field.1
        let valBuf := utf8 value.text
        let keyLenBuf ← writeLength 2 keyBuf.length
        let valLenBuf ← writeLength 4 valBuf.length
        .ok (keyLenBuf ++ keyBuf ++ valLenBuf ++ valBuf)

/-- `_canonicalize`. -/
def canonicalize (isPoisonedKey : JsString → Bool) (parts : Parts) : Except Err Bytes :=
  if parts.fields = [] then .error .noField
  else do
    let chunks ← (sortKeys parts.fields).mapM (fieldBytes isPoisonedKey)
    .ok (aadVersion :: chunks.flatten)

/-- `lib/crypto.js` and the root keys of the vault. -/
structure Crypto (Key Nonce : Type) where
  /-- `sha3Hash(keysJson)`, as bytes. -/
  rootHash : Bytes
  kdf : Bytes → Key
  encryptPacked : Nonce → Bytes → Key → Bytes → Bytes
  /-- `none` where `decryptPacked` throws. -/
  decryptPacked : Bytes → Key → Bytes → Option Bytes

variable {Key Nonce : Type}

/-- `_deriveKey`. -/
def deriveKey (crypto : Crypto Key Nonce) (aadBytes : Bytes) : Key :=
  crypto.kdf (utf8 (units "vault.aad/v1/") ++ crypto.rootHash ++ aadBytes)

/-- `seal` of a string. -/
def sealValue (crypto : Crypto Key Nonce) (isPoisonedKey : JsString → Bool) (nonce : Nonce)
    (plaintext : JsString) (aadParts : Parts) : Except Err JsString :=
  if plaintext = [] then .error .emptyPlaintext
  else if aadPrefix.isPrefixOf plaintext then .error .alreadySealed
  else do
    let aadBytes ← canonicalize isPoisonedKey aadParts
    let packed := crypto.encryptPacked nonce (utf8 plaintext) (deriveKey crypto aadBytes) aadBytes
    .ok (aadPrefix ++ toBase64 packed)

/-- `unseal` of a string. -/
def unsealValue (crypto : Crypto Key Nonce) (isPoisonedKey : JsString → Bool) (value : JsString)
    (aadParts : Parts) : Except Err JsString :=
  if aadPrefix.isPrefixOf value = false then .error .notSealed
  else do
    let aadBytes ← canonicalize isPoisonedKey aadParts
    let packed := ofBase64 (value.drop aadPrefix.length)
    match crypto.decryptPacked packed (deriveKey crypto aadBytes) aadBytes with
    | none => .error .aeadMismatch
    | some pt => .ok (utf8Text pt)

end Blamejs.VaultAad
