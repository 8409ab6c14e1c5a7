import Blamejs.Js.ToNumber

/-!
# Purge anchors (`lib/audit-chain.js`)

The bytes an anchor's signature covers, in the layout of this build and in the
four an earlier build wrote, and the check that tries them in turn. A field can
hold anything a driver returns; all the code ever asks of one is whether it is
null, and what `String` and `Number` make of it.
-/

namespace Blamejs.PurgeAnchor

open Blamejs.Js

/-- What the code asks of a field value. -/
structure Conversions (α : Type) where
  /-- `v == null`. -/
  isNull : α → Bool
  /-- `String(v)`. -/
  string : α → JsString
  /-- `Number(v)`. -/
  number : α → Double

/-- What a driver returns for a column of the anchor table. -/
inductive Column where
  | null
  | integer (z : Int)
  | text (s : JsString)

/-- The conversions on such a column. -/
def columnConversions : Conversions Column where
  isNull
    | .null => true
    | _ => false
  string
    | .null => units "null"
    | .integer z => numberText (Double.ofInt z)
    | .text s => s
  number
    | .null => Double.zero false
    | .integer z => Double.ofInt z
    | .text s => stringToNumber s

/-- An anchor row. -/
structure Anchor (α : Type) where
  scope : α
  lastPurgedCounter : α
  lastPurgedRowHash : α
  archiveBundleId : α
  purgedAt : α
  fencingToken : α
  firstPurgedCounter : α
  archiveRowsDigest : α
  archiveCheckpointDigest : α
  archiveManifestDigest : α

/-- The fields after null-defaulting and conversion. -/
structure Fields where
  scope : JsString
  lastPurgedCounter : Double
  lastPurgedRowHash : JsString
  archiveBundleId : JsString
  purgedAt : Double
  fencingToken : Double
  firstPurgedCounter : Double
  archiveRowsDigest : JsString
  archiveCheckpointDigest : JsString
  archiveManifestDigest : JsString

/-- The payload as it stands, and as it stood before each field joined it. -/
inductive Layout where
  | current
  | noManifestDigest
  | noCheckpointDigest
  | noDigest
  | noRange
deriving DecidableEq, Repr

section
variable {α : Type} (conv : Conversions α)

/-- `v == null ? dflt : String(v)`. -/
def stringOr (dflt : JsString) (v : α) : JsString :=
  if conv.isNull v then dflt else conv.string v

/-- `Number(v == null ? 0 : v)`. -/
def numberOrZero (v : α) : Double :=
  if conv.isNull v then Double.zero false else conv.number v

def readFields (anchor : Anchor α) : Fields where
  scope := stringOr conv (units "audit") anchor.scope
  lastPurgedCounter := conv.number anchor.lastPurgedCounter
  lastPurgedRowHash := conv.string anchor.lastPurgedRowHash
  archiveBundleId := conv.string anchor.archiveBundleId
  purgedAt := conv.number anchor.purgedAt
  fencingToken := numberOrZero conv anchor.fencingToken
  firstPurgedCounter := numberOrZero conv anchor.firstPurgedCounter
  archiveRowsDigest := stringOr conv [] anchor.archiveRowsDigest
  archiveCheckpointDigest := stringOr conv [] anchor.archiveCheckpointDigest
  archiveManifestDigest := stringOr conv [] anchor.archiveManifestDigest

end

/-- The string fields, with the names they are refused under. -/
def Fields.strings (f : Fields) : List (String × JsString) :=
  [("scope", f.scope), ("lastPurgedRowHash", f.lastPurgedRowHash),
    ("archiveBundleId", f.archiveBundleId), ("archiveRowsDigest", f.archiveRowsDigest),
    ("archiveCheckpointDigest", f.archiveCheckpointDigest),
    ("archiveManifestDigest", f.archiveManifestDigest)]

/-- `numericBounds.isNonNegativeSafeInt(value)`. -/
def isNonNegativeSafeInt (x : Double) : Bool := x.isSafeInteger && (Double.zero false).le x

/-- `numericBounds.isIncrementableSafeInt(value)`. -/
def isIncrementableSafeInt (x : Double) : Bool :=
  isNonNegativeSafeInt x && x.lt (Double.ofInt Double.maxSafe)

/-- `PURGE_ANCHOR_FORMAT`. -/
def purgeAnchorFormat : JsString := units "blamejs-purge-anchor-v1"

/-- `PURGE_ANCHOR_DELIMITER`. -/
def purgeAnchorDelimiter : UInt16 := unit '\n'

/-- The lines every layout begins with. -/
def headLines (f : Fields) : List JsString :=
  [purgeAnchorFormat, f.scope, numberText f.lastPurgedCounter, f.lastPurgedRowHash,
    f.archiveBundleId, numberText f.purgedAt, numberText f.fencingToken]

/-- The lines of a layout. -/
def payloadLines (f : Fields) : Layout → List JsString
  | .noRange => headLines f
  | .noDigest => headLines f ++ [numberText f.firstPurgedCounter]
  | .noCheckpointDigest => headLines f ++ [numberText f.firstPurgedCounter, f.archiveRowsDigest]
  | .noManifestDigest => headLines f ++ [numberText f.firstPurgedCounter, f.archiveRowsDigest,
      f.archiveCheckpointDigest]
  | .current => headLines f ++ [numberText f.firstPurgedCounter, f.archiveRowsDigest,
      f.archiveCheckpointDigest, f.archiveManifestDigest]

/-- The checks `purgeAnchorPayload` makes before it writes anything. -/
def checkFields (f : Fields) : Except JsString Unit :=
  match f.strings.find? fun p => purgeAnchorDelimiter ∈ p.2 with
  | some (name, _) =>
      .error (units "purgeAnchorPayload: " ++ units name ++ units " must not contain a newline")
  | none =>
      if !isIncrementableSafeInt f.lastPurgedCounter then
        .error <| units ("purgeAnchorPayload: lastPurgedCounter must be a whole " ++
          "non-negative number the chain can resume above while staying below 2^53 " ++
          "— at or past that, two distinct stored values render identically and one " ++
          "signature would cover both, and the first counter after the boundary " ++
          "would alias another")
      else if !f.purgedAt.isSafeInteger then
        .error (units "purgeAnchorPayload: purgedAt must be a whole number below 2^53")
      else if !isNonNegativeSafeInt f.fencingToken then
        .error <| units ("purgeAnchorPayload: fencingToken must be a whole " ++
          "non-negative number below 2^53")
      else if !isNonNegativeSafeInt f.firstPurgedCounter then
        .error <| units ("purgeAnchorPayload: firstPurgedCounter must be a whole " ++
          "non-negative number below 2^53")
      else .ok ()

/-- `purgeAnchorPayload(anchor, { layout })`. -/
def purgeAnchorPayload {α : Type} (conv : Conversions α) (anchor : Anchor α) (layout : Layout) :
    Except JsString (List UInt8) := do
  let f := readFields conv anchor
  checkFields f
  pure (utf8 ([purgeAnchorDelimiter].intercalate (payloadLines f layout)))

/-- The retries and what each is gated on: the fields the layout leaves out are
still empty. -/
def layoutApplies (f : Fields) : Layout → Bool
  | .current => true
  | .noManifestDigest => f.archiveManifestDigest = []
  | .noCheckpointDigest => f.archiveManifestDigest = [] ∧ f.archiveCheckpointDigest = []
  | .noDigest => f.archiveManifestDigest = [] ∧ f.archiveCheckpointDigest = [] ∧
      f.archiveRowsDigest = []
  | .noRange => f.archiveManifestDigest = [] ∧ f.archiveCheckpointDigest = [] ∧
      f.archiveRowsDigest = [] ∧ f.firstPurgedCounter.strictEq (Double.zero false)

/-- The layouts in the order they are tried. -/
def layouts : List Layout :=
  [.current, .noManifestDigest, .noCheckpointDigest, .noDigest, .noRange]

/-- `purgeAnchorSignatureVerifies(row, signature, publicKeyPem)`. `verify` is
`auditSign.verify` at that signature and key, false where it throws. -/
def purgeAnchorSignatureVerifies {α : Type} (conv : Conversions α)
    (verify : List UInt8 → Bool) (row : Anchor α) : Bool :=
  layouts.any fun layout => layoutApplies (readFields conv row) layout &&
    match purgeAnchorPayload conv row layout with
    | .ok payload => verify payload
    | .error _ => false

end Blamejs.PurgeAnchor
