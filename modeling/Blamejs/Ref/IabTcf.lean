import Blamejs.Js.Base64
import Blamejs.Js.Number
import Blamejs.Lib.BitStream
import Mathlib.Data.List.Sort

/-!
# TCF strings (`lib/iab-tcf.js`)

The bit layout of a TC string, read by `parseString` and written by `encode`. A `Set`
is the list of its elements in the order they were added. An error is its code with
the numbers in its message; the message itself is left out.
-/

namespace Blamejs.IabTcf

open Blamejs.Js BitStream

abbrev Bits := List Bool

inductive Err where
  | badInput
  | inputTooLarge
  | badCore
  | badBase64
  | badLength (offset want total : Nat)
  | badSegmentType (expected got : Nat)
  | badValue
  | valueOverflow (value width : Nat)
  deriving DecidableEq, Repr

def coreVersion : Nat := 4

def corePolicyVersion : Nat := 4

def segmentDisclosedVendors : Nat := 1

def segmentAllowedVendors : Nat := 2

def segmentPublisherTC : Nat := 3

def maxTcStringBytes : Nat := 64 * 1024

/-! ## Reading -/

/-- `_b64urlDecode`. -/
def b64urlDecode (s : JsString) : Except Err (List UInt8) :=
  let padded := s.map fun u =>
    if u = unit '-' then unit '+' else if u = unit '_' then unit '/' else u
  if padded.length % 4 = 2 then .ok (ofBase64 (padded ++ units "=="))
  else if padded.length % 4 = 3 then .ok (ofBase64 (padded ++ units "="))
  else if padded.length % 4 = 1 then .error .badBase64
  else .ok (ofBase64 padded)

/-- The bits of a buffer, as `_bitReader` goes through them. -/
def bufferBits (buf : List UInt8) : Bits := buf.flatMap fun b => bitsOf 8 b.toNat

/-- `r.read(n)`. -/
def read (n : Nat) : Read Err Nat :=
  readBits (fun r => .badLength r.offset n (r.offset + r.rest.length)) n

/-- `r.read(1) === 1`. -/
def readFlag : Read Err Bool := (· = 1) <$> read 1

/-- The numbers, from `first` on, of the bits that are set. -/
def setBits : Nat → Bits → List Nat
  | _, [] => []
  | first, b :: bits => if b then first :: setBits (first + 1) bits else setBits (first + 1) bits

def readBitField (n : Nat) : Read Err (List Nat) := setBits 1 <$> readMany readFlag n

/-- One range entry: a vendor, or a first and a last one. -/
inductive Entry where
  | single (id : Nat)
  | range (start stop : Nat)
  deriving DecidableEq, Repr

def Entry.ids : Entry → List Nat
  | .single id => [id]
  | .range start stop => List.range' start (stop + 1 - start)

def readEntry : Read Err Entry := do
  let isRange ← readFlag
  let startVendorId ← read 16
  if isRange then
    let endVendorId ← read 16
    pure (.range startVendorId endVendorId)
  else pure (.single startVendorId)

structure VendorSection where
  maxVendorId : Nat
  ids : List Nat
  deriving DecidableEq, Repr

/-- `_parseVendorSection`. -/
def parseVendorSection : Read Err VendorSection := do
  let maxVendorId ← read 16
  let isRangeEncoding ← readFlag
  if isRangeEncoding then
    let numEntries ← read 12
    let entries ← readMany readEntry numEntries
    pure ⟨maxVendorId, (entries.flatMap Entry.ids).eraseDups⟩
  else
    let ids ← readBitField maxVendorId
    pure ⟨maxVendorId, ids⟩

structure Restriction where
  purposeId : Nat
  restrictionType : Nat
  vendorIds : List Nat
  deriving DecidableEq, Repr

def parseRestriction : Read Err Restriction := do
  let purposeId ← read 6
  let restrictionType ← read 2
  let numEntries ← read 12
  let entries ← readMany readEntry numEntries
  pure ⟨purposeId, restrictionType, entries.flatMap Entry.ids⟩

/-- `_parsePublisherRestrictions`. -/
def parsePublisherRestrictions : Read Err (List Restriction) := do
  let num ← read 12
  readMany parseRestriction num

/-- `String.fromCharCode(0x41 + v)`, twice. -/
def readLetters : Read Err JsString := do
  let v0 ← read 6
  let v1 ← read 6
  pure [UInt16.ofNat (0x41 + v0), UInt16.ofNat (0x41 + v1)]

structure Core where
  version : Nat
  createdAt : Nat
  lastUpdatedAt : Nat
  cmpId : Nat
  cmpVersion : Nat
  consentScreen : Nat
  consentLanguage : JsString
  vendorListVersion : Nat
  policyVersion : Nat
  isServiceSpecific : Bool
  useNonStandardStacks : Bool
  specialFeatureOptins : List Nat
  purposesConsent : List Nat
  purposesLI : List Nat
  purposeOneTreatment : Bool
  publisherCC : JsString
  vendorConsents : VendorSection
  vendorLIs : VendorSection
  publisherRestrictions : List Restriction
  deriving DecidableEq, Repr

/-- `_parseCore`. -/
def parseCore : Read Err Core := do
  let version ← read 6
  let createdRaw ← read 36
  let lastUpdatedRaw ← read 36
  let cmpId ← read 12
  let cmpVersion ← read 12
  let consentScreen ← read 6
  let consentLanguage ← readLetters
  let vendorListVersion ← read 12
  let policyVersion ← read 6
  let isServiceSpecific ← readFlag
  let useNonStandardStacks ← readFlag
  let specialFeatureOptins ← readBitField 12
  let purposesConsent ← readBitField 24
  let purposesLI ← readBitField 24
  let purposeOneTreatment ← readFlag
  let publisherCC ← readLetters
  let vendorConsents ← parseVendorSection
  let vendorLIs ← parseVendorSection
  let publisherRestrictions ← parsePublisherRestrictions
  pure ⟨version, createdRaw * 100, lastUpdatedRaw * 100, cmpId, cmpVersion, consentScreen,
    consentLanguage, vendorListVersion, policyVersion, isServiceSpecific, useNonStandardStacks,
    specialFeatureOptins, purposesConsent, purposesLI, purposeOneTreatment, publisherCC,
    vendorConsents, vendorLIs, publisherRestrictions⟩

structure PublisherTC where
  pubPurposesConsent : List Nat
  pubPurposesLITransparency : List Nat
  numCustomPurposes : Nat
  customPurposesConsent : List Nat
  customPurposesLITransparency : List Nat
  deriving DecidableEq, Repr

/-- `_parsePublisherTC`. -/
def parsePublisherTC : Read Err PublisherTC := do
  let _ ← read 3
  let pubPurposesConsent ← readBitField 24
  let pubPurposesLI ← readBitField 24
  let numCustomPurposes ← read 6
  let customConsent ← readBitField numCustomPurposes
  let customLI ← readBitField numCustomPurposes
  pure ⟨pubPurposesConsent, pubPurposesLI, numCustomPurposes, customConsent, customLI⟩

/-- `_parseSecondaryVendorSegment`. -/
def parseSecondaryVendorSegment (expectedType : Nat) : Read Err VendorSection := do
  let segType ← read 3
  if segType ≠ expectedType then throw (.badSegmentType expectedType segType)
  parseVendorSection

/-- A reader on a buffer. -/
def runReader {α : Type} (p : Read Err α) (buf : List UInt8) : Except Err α :=
  (p ⟨bufferBits buf, 0⟩).map Prod.fst

inductive SegmentError where
  | decode (index : Nat) (e : Err)
  | unknownType (index segType : Nat)
  | parse (index : Nat) (e : Err)
  deriving DecidableEq, Repr

/-- What `parseString` returns; a segment that is there has `present: true`. -/
structure Tcf where
  core : Core
  disclosedVendors : Option (List Nat)
  allowedVendors : Option (List Nat)
  publisherTC : Option PublisherTC
  errors : List SegmentError
  deriving DecidableEq, Repr

def Tcf.fail (t : Tcf) (e : SegmentError) : Tcf := { t with errors := t.errors ++ [e] }

/-- One round of the loop over the segments. -/
def parseSegment (t : Tcf) (i : Nat) (segment : JsString) : Tcf :=
  match b64urlDecode segment with
  | .error e => t.fail (.decode i e)
  | .ok [] => t
  | .ok (b :: buf) =>
      let segType := b.toNat / 32
      if segType = segmentDisclosedVendors then
        match runReader (parseSecondaryVendorSegment segmentDisclosedVendors) (b :: buf) with
        | .ok v => { t with disclosedVendors := some v.ids }
        | .error e => t.fail (.parse i e)
      else if segType = segmentAllowedVendors then
        match runReader (parseSecondaryVendorSegment segmentAllowedVendors) (b :: buf) with
        | .ok v => { t with allowedVendors := some v.ids }
        | .error e => t.fail (.parse i e)
      else if segType = segmentPublisherTC then
        match runReader parsePublisherTC (b :: buf) with
        | .ok p => { t with publisherTC := some p }
        | .error e => t.fail (.parse i e)
      else t.fail (.unknownType i segType)

def parseSegments (t : Tcf) : Nat → List JsString → Tcf
  | _, [] => t
  | i, segment :: segments => parseSegments (parseSegment t i segment) (i + 1) segments

def parseString (tcString : JsString) : Except Err Tcf :=
  if tcString = [] then .error .badInput
  else if tcString.length > maxTcStringBytes then .error .inputTooLarge
  else
    match tcString.splitOn (unit '.') with
    | [] => .error .badInput
    | first :: segments =>
        match b64urlDecode first with
        | .error _ => .error .badCore
        | .ok coreBuf => do
            let core ← runReader parseCore coreBuf
            pure (parseSegments ⟨core, none, none, none, []⟩ 1 segments)

/-! ## Writing -/

/-- A collection of ids: an array or a `Set`, a section `{ present, ids }` or
`{ present, vendorIds }`, or nothing. -/
inductive Coll where
  | absent
  | list (ids : List Double)
  | section (present : Option Bool) (ids vendorIds : Option (List Double))
  deriving DecidableEq, Repr

def Coll.src : Coll → List Double
  | .absent => []
  | .list ids => ids
  | .section _ ids vendorIds => (ids.orElse fun _ => vendorIds).getD []

/-- The number, where `isNonNegativeFiniteInt` holds of it. -/
def natValue? (x : Double) : Option Nat :=
  if x.isInteger ∧ (x.neg = false ∨ x.isZero) then some (x.mag / Double.unitsPerOne) else none

/-- The number, where `isPositiveFiniteInt` holds of it. -/
def positive (x : Double) : Except Err Nat :=
  match natValue? x with
  | some (n + 1) => .ok (n + 1)
  | _ => .error .badValue

/-- `_idArray`. -/
def idArray (x : Coll) : Except Err (List Nat) := do
  let ids ← x.src.mapM positive
  pure (ids.eraseDups.insertionSort (· ≤ ·))

/-- The inner loop of `_idRuns`, in a run from `start` to `stop`. -/
def idRunsFrom (start stop : Nat) : List Nat → List (Nat × Nat)
  | [] => [(start, stop)]
  | id :: ids =>
      if id = stop + 1 then idRunsFrom start id ids else (start, stop) :: idRunsFrom id id ids

/-- `_idRuns`. -/
def idRuns : List Nat → List (Nat × Nat)
  | [] => []
  | id :: ids => idRunsFrom id id ids

/-- `Math.round(ms / 100)` of a number that is not negative. -/
def roundDecisec (ms : Double) : Nat :=
  let quotient := Double.ofRatio ms.neg ms.mag (100 * Double.unitsPerOne)
  (2 * quotient.mag + Double.unitsPerOne) / (2 * Double.unitsPerOne)

/-- `_decisec`; `now` is what `Date.now()` returns. -/
def decisec (now : Nat) (t : Option Double) : Except Err Nat :=
  let ms := t.getD (.ofInt now)
  if ¬ ms.isFinite ∨ (ms.neg ∧ ¬ ms.isZero) then .error .badValue else .ok (roundDecisec ms)

def writeNat (v n : Nat) : Except Err Bits :=
  if v ≥ 2 ^ n then .error (.valueOverflow v n) else .ok (bitsOf n v)

/-- `w.writeInt(v, n)`. -/
def writeInt (v : Option Double) (n : Nat) : Except Err Bits :=
  match v.bind natValue? with
  | none => .error .badValue
  | some v => writeNat v n

def writeBool (flag : Bool) : Except Err Bits := .ok [flag]

/-- One write after the other; the first error ends it. -/
def writeAll : List (Except Err Bits) → Except Err Bits
  | [] => .ok []
  | w :: ws => do
      let bits ← w
      let more ← writeAll ws
      pure (bits ++ more)

def bitField (ids : List Nat) (n : Nat) : Bits := (List.range n).map fun i => decide (i + 1 ∈ ids)

def writeBitField (ids : Coll) (n : Nat) : Except Err Bits := do
  let ids ← idArray ids
  pure (bitField ids n)

def writeRun (run : Nat × Nat) : Except Err Bits :=
  if run.1 = run.2 then writeAll [writeBool false, writeNat run.1 16]
  else writeAll [writeBool true, writeNat run.1 16, writeNat run.2 16]

def writeRuns (runs : List (Nat × Nat)) : Except Err Bits :=
  writeAll (writeNat runs.length 12 :: runs.map writeRun)

def runBits (run : Nat × Nat) : Nat := 1 + 16 + if run.1 = run.2 then 0 else 16

/-- `writeVendorSection` of ids that are clean. -/
def writeVendorIds (clean : List Nat) : Except Err Bits :=
  let maxVendorId := clean.getLast?.getD 0
  let runs := idRuns clean
  let rangeBits := 1 + 12 + (runs.map runBits).sum
  let bitfieldBits := 1 + maxVendorId
  writeAll [writeNat maxVendorId 16,
    if maxVendorId = 0 then writeBool false
    else if rangeBits < bitfieldBits then writeAll [writeBool true, writeRuns runs]
    else writeAll [writeBool false, .ok (bitField clean maxVendorId)]]

def writeVendorSection (ids : Coll) : Except Err Bits := do
  let clean ← idArray ids
  writeVendorIds clean

/-- The byte whose bits these are, the most significant first. -/
def byteOf (bits : Bits) : UInt8 := UInt8.ofNat (valueOf bits)

/-- `toBuffer`: the bits with zeros behind them up to a whole byte. -/
def toBuffer : Bits → List UInt8
  | [] => []
  | b0 :: b1 :: b2 :: b3 :: b4 :: b5 :: b6 :: b7 :: bits =>
      byteOf [b0, b1, b2, b3, b4, b5, b6, b7] :: toBuffer bits
  | bits => [byteOf (bits ++ List.replicate (8 - bits.length) false)]

/-- `toUpperCase`, as far as what comes out is made of the letters A to Z; all else is
left as it is, and refused in either form. -/
def upperUnit (u : UInt16) : JsString :=
  if 0x61 ≤ u.toNat ∧ u.toNat ≤ 0x7A then [UInt16.ofNat (u.toNat - 0x20)]
  else if u = 0x0131 then units "I"
  else if u = 0x017F then units "S"
  else if u = 0x00DF then units "SS"
  else if u = 0xFB00 then units "FF"
  else if u = 0xFB01 then units "FI"
  else if u = 0xFB02 then units "FL"
  else if u = 0xFB03 then units "FFI"
  else if u = 0xFB04 then units "FFL"
  else if u = 0xFB05 ∨ u = 0xFB06 then units "ST"
  else [u]

def toUpperCase (s : JsString) : JsString := s.flatMap upperUnit

def writeLetter (u : UInt16) : Except Err Bits :=
  if u.toNat < 0x41 ∨ u.toNat > 0x5A then .error .badValue else writeNat (u.toNat - 0x41) 6

/-- `_writeLetters`. -/
def writeLetters (s : JsString) : Except Err Bits :=
  match toUpperCase s with
  | [a, b] => writeAll [writeLetter a, writeLetter b]
  | _ => .error .badValue

/-- `v || 0`. -/
def orZero (v : Option Double) : Option Double :=
  match v with
  | none => some (.zero false)
  | some x => if x.isZero ∨ x.isNaN then some (.zero false) else some x

/-- `s || fallback`. -/
def orText (s : Option JsString) (fallback : String) : JsString :=
  match s with
  | none | some [] => units fallback
  | some s => s

structure ObjRestriction where
  purposeId : Option Double
  restrictionType : Option Double
  vendorIds : Coll
  deriving DecidableEq, Repr

/-- The core of an object that `encode` gets, with what is null or missing absent. -/
structure ObjCore where
  version : Option Double
  createdAt : Option Double
  lastUpdatedAt : Option Double
  cmpId : Option Double
  cmpVersion : Option Double
  consentScreen : Option Double
  consentLanguage : Option JsString
  vendorListVersion : Option Double
  policyVersion : Option Double
  isServiceSpecific : Option Bool
  useNonStandardStacks : Option Bool
  specialFeatureOptins : Coll
  purposesConsent : Coll
  purposesLI : Coll
  purposeOneTreatment : Option Bool
  publisherCC : Option JsString
  vendorConsents : Coll
  vendorLIs : Coll
  publisherRestrictions : List ObjRestriction
  deriving DecidableEq, Repr

structure ObjPublisherTC where
  present : Option Bool
  pubPurposesConsent : Coll
  pubPurposesLITransparency : Coll
  numCustomPurposes : Option Double
  customPurposesConsent : Coll
  customPurposesLITransparency : Coll
  deriving DecidableEq, Repr

structure Obj where
  core : ObjCore
  disclosedVendors : Option Coll
  allowedVendors : Option Coll
  publisherTC : Option ObjPublisherTC
  deriving DecidableEq, Repr

/-- `numCustomPurposes`, or the largest id where it is not given. -/
def numCustom (given : Option Double) (custom customLI : List Nat) : Except Err Nat :=
  match given with
  | some x =>
      match natValue? x with
      | some n => .ok n
      | none => .error .badValue
  | none => .ok (max (custom.getLast?.getD 0) (customLI.getLast?.getD 0))

/-- `_encodePublisherTC`, before the base64. -/
def encodePublisherTC (pub : ObjPublisherTC) : Except Err Bits := do
  let head ← writeAll [writeNat segmentPublisherTC 3, writeBitField pub.pubPurposesConsent 24,
    writeBitField pub.pubPurposesLITransparency 24]
  let custom ← idArray pub.customPurposesConsent
  let customLI ← idArray pub.customPurposesLITransparency
  let n ← numCustom pub.numCustomPurposes custom customLI
  let tail ← writeAll [writeNat n 6, .ok (bitField custom n), .ok (bitField customLI n)]
  pure (head ++ tail)

def writeRestriction (pr : ObjRestriction) : Except Err Bits :=
  writeAll [writeInt pr.purposeId 6, writeInt (some (pr.restrictionType.getD (.zero false))) 2,
    do let ids ← idArray pr.vendorIds
       writeRuns (idRuns ids)]

/-- The core of `encode`; `now` and `now'` are the clock at the two timestamps. -/
def encodeCore (now now' : Nat) (c : ObjCore) : Except Err Bits :=
  writeAll [
    writeInt (some (c.version.getD (.ofInt coreVersion))) 6,
    do writeNat (← decisec now c.createdAt) 36,
    do writeNat (← decisec now' (c.lastUpdatedAt.orElse fun _ => c.createdAt)) 36,
    writeInt (orZero c.cmpId) 12,
    writeInt (orZero c.cmpVersion) 12,
    writeInt (orZero c.consentScreen) 6,
    writeLetters (orText c.consentLanguage "EN"),
    writeInt (orZero c.vendorListVersion) 12,
    writeInt (some (c.policyVersion.getD (.ofInt corePolicyVersion))) 6,
    writeBool (c.isServiceSpecific != some false),
    writeBool (c.useNonStandardStacks == some true),
    writeBitField c.specialFeatureOptins 12,
    writeBitField c.purposesConsent 24,
    writeBitField c.purposesLI 24,
    writeBool (c.purposeOneTreatment == some true),
    writeLetters (orText c.publisherCC "AA"),
    writeVendorSection c.vendorConsents,
    writeVendorSection c.vendorLIs,
    writeNat c.publisherRestrictions.length 12,
    writeAll (c.publisherRestrictions.map writeRestriction)]

def encodeVendors (segType : Nat) (ids : Coll) : Except Err Bits :=
  writeAll [writeNat segType 3, writeVendorSection ids]

/-- A segment that is there only where it was given. -/
def optional {α : Type} (write : α → Except Err Bits) : Option α → Except Err (List Bits)
  | none => pure []
  | some a => do
      let bits ← write a
      pure [bits]

/-- The publisher segment, unless it says that it is not there. -/
def Obj.publisher (obj : Obj) : Option ObjPublisherTC :=
  obj.publisherTC.filter (·.present != some false)

def encode (now now' : Nat) (obj : Obj) : Except Err JsString := do
  let core ← encodeCore now now' obj.core
  let disclosed ← optional (encodeVendors segmentDisclosedVendors) obj.disclosedVendors
  let allowed ← optional (encodeVendors segmentAllowedVendors) obj.allowedVendors
  let publisher ← optional encodePublisherTC obj.publisher
  pure ([unit '.'].intercalate
    ((core :: (disclosed ++ allowed ++ publisher)).map fun bits => toBase64Url (toBuffer bits)))

end Blamejs.IabTcf
