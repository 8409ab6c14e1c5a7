import Blamejs.Ref.IabTcf
import Mathlib.Data.Set.Basic
import Mathlib.Tactic.MkIffOfInductiveProp

/-!
# What a TC string says

The signal of a TCF object, with sets for the collections of ids, of an object that is
encoded and of one that was parsed. Timestamps stand aside: the string keeps them to a
tenth of a second. `Fits` is what an object must be like to survive its own encoding,
and `Plain` what a parsed one must be like to be encoded again; both are about the ids
and letters themselves.
-/

namespace Blamejs.IabTcf

open Blamejs.Js

structure PublisherSignal where
  purposesConsent : Set Nat
  purposesLI : Set Nat
  numCustomPurposes : Nat
  customConsent : Set Nat
  customLI : Set Nat

structure Signal where
  version : Nat
  /-- None where what was given is not a number. -/
  cmpId : Option Nat
  cmpVersion : Option Nat
  consentScreen : Option Nat
  consentLanguage : JsString
  vendorListVersion : Option Nat
  policyVersion : Nat
  isServiceSpecific : Bool
  useNonStandardStacks : Bool
  specialFeatureOptins : Set Nat
  purposesConsent : Set Nat
  purposesLI : Set Nat
  purposeOneTreatment : Bool
  publisherCC : JsString
  vendorConsents : Set Nat
  vendorLIs : Set Nat
  /-- The purpose, the type and the vendors of each restriction. -/
  publisherRestrictions : List (Nat × Nat × Set Nat)
  disclosedVendors : Option (Set Nat)
  allowedVendors : Option (Set Nat)
  publisherTC : Option PublisherSignal

/-! ## Of a parsed object -/

/-- The set of a list of ids. -/
def idSet (ids : List Nat) : Set Nat := {id | id ∈ ids}

def Restriction.signal (r : Restriction) : Nat × Nat × Set Nat :=
  (r.purposeId, r.restrictionType, idSet r.vendorIds)

def PublisherTC.signal (p : PublisherTC) : PublisherSignal :=
  ⟨idSet p.pubPurposesConsent, idSet p.pubPurposesLITransparency, p.numCustomPurposes,
    idSet p.customPurposesConsent, idSet p.customPurposesLITransparency⟩

def Tcf.signal (t : Tcf) : Signal where
  version := t.core.version
  cmpId := some t.core.cmpId
  cmpVersion := some t.core.cmpVersion
  consentScreen := some t.core.consentScreen
  consentLanguage := t.core.consentLanguage
  vendorListVersion := some t.core.vendorListVersion
  policyVersion := t.core.policyVersion
  isServiceSpecific := t.core.isServiceSpecific
  useNonStandardStacks := t.core.useNonStandardStacks
  specialFeatureOptins := idSet t.core.specialFeatureOptins
  purposesConsent := idSet t.core.purposesConsent
  purposesLI := idSet t.core.purposesLI
  purposeOneTreatment := t.core.purposeOneTreatment
  publisherCC := t.core.publisherCC
  vendorConsents := idSet t.core.vendorConsents.ids
  vendorLIs := idSet t.core.vendorLIs.ids
  publisherRestrictions := t.core.publisherRestrictions.map Restriction.signal
  disclosedVendors := t.disclosedVendors.map idSet
  allowedVendors := t.allowedVendors.map idSet
  publisherTC := t.publisherTC.map PublisherTC.signal

/-! ## Of an object to encode -/

/-- The whole number that a value is. -/
def natOf (x : Double) : Nat := (natValue? x).getD 0

def optNat (x : Option Double) : Nat := (x.map natOf).getD 0

/-- The whole number that a field holds, 0 where it is left out. -/
def numberOf (x : Option Double) : Option Nat := natValue? (x.getD (.zero false))

/-- A section may say that it is not there. -/
def Coll.isThere : Coll → Bool
  | .section present _ _ => present != some false
  | _ => true

/-- The ids that were given. -/
def Coll.given (x : Coll) : List Nat := x.src.map natOf

def ObjRestriction.signal (r : ObjRestriction) : Nat × Nat × Set Nat :=
  (optNat r.purposeId, optNat r.restrictionType, idSet r.vendorIds.given)

/-- The number of custom purposes, or the largest id where it is not given. -/
def ObjPublisherTC.customCount (p : ObjPublisherTC) : Nat :=
  match p.numCustomPurposes with
  | some n => natOf n
  | none => (p.customPurposesConsent.given ++ p.customPurposesLITransparency.given).foldr max 0

def ObjPublisherTC.signal (p : ObjPublisherTC) : PublisherSignal :=
  ⟨idSet p.pubPurposesConsent.given, idSet p.pubPurposesLITransparency.given, p.customCount,
    idSet p.customPurposesConsent.given, idSet p.customPurposesLITransparency.given⟩

/-- A code of two letters is the same in capitals, and a field that is left out has
its default. -/
def Obj.signal (obj : Obj) : Signal where
  version := (obj.core.version.map natOf).getD coreVersion
  cmpId := numberOf obj.core.cmpId
  cmpVersion := numberOf obj.core.cmpVersion
  consentScreen := numberOf obj.core.consentScreen
  consentLanguage := toUpperCase (obj.core.consentLanguage.getD (units "EN"))
  vendorListVersion := numberOf obj.core.vendorListVersion
  policyVersion := (obj.core.policyVersion.map natOf).getD corePolicyVersion
  isServiceSpecific := obj.core.isServiceSpecific != some false
  useNonStandardStacks := obj.core.useNonStandardStacks == some true
  specialFeatureOptins := idSet obj.core.specialFeatureOptins.given
  purposesConsent := idSet obj.core.purposesConsent.given
  purposesLI := idSet obj.core.purposesLI.given
  purposeOneTreatment := obj.core.purposeOneTreatment == some true
  publisherCC := toUpperCase (obj.core.publisherCC.getD (units "AA"))
  vendorConsents := idSet obj.core.vendorConsents.given
  vendorLIs := idSet obj.core.vendorLIs.given
  publisherRestrictions := obj.core.publisherRestrictions.map ObjRestriction.signal
  disclosedVendors := (obj.disclosedVendors.filter Coll.isThere).map fun ids => idSet ids.given
  allowedVendors := (obj.allowedVendors.filter Coll.isThere).map fun ids => idSet ids.given
  publisherTC := obj.publisher.map ObjPublisherTC.signal

/-- A time in milliseconds is within a tenth of a second of the number `ms`. -/
def Near (ms : Double) (time : Nat) : Prop :=
  ms.mag ≤ (time + 100) * Double.unitsPerOne ∧
    time * Double.unitsPerOne ≤ ms.mag + 100 * Double.unitsPerOne

/-- A parsed object says what the given one says; `now` and `now'` stand for the
timestamps that are left out. -/
structure Says (now now' : Nat) (obj : Obj) (t : Tcf) : Prop where
  signal : t.signal = obj.signal
  created : Near (obj.core.createdAt.getD (.ofInt now)) t.core.createdAt
  updated : Near ((obj.core.lastUpdatedAt.orElse fun _ => obj.core.createdAt).getD (.ofInt now'))
    t.core.lastUpdatedAt

/-! ## Sizes -/

/-- The ids without repetition, in order. -/
def sorted (ids : List Nat) : List Nat := ids.eraseDups.insertionSort (· ≤ ·)

/-- The bits of the entries for a set of ids: 17 for an id that stands alone, 33 for a
longer run. -/
def runsWidth (ids : List Nat) : Nat := ((idRuns (sorted ids)).map runBits).sum

/-- The bits of a vendor section: one for each id up to the largest, or the entries with
their count, whatever is less. -/
def vendorWidth (ids : List Nat) : Nat := 17 + min (ids.foldr max 0) (12 + runsWidth ids)

def coreWidth (c : ObjCore) : Nat :=
  213 + vendorWidth c.vendorConsents.given + vendorWidth c.vendorLIs.given + 12 +
    (c.publisherRestrictions.map fun r => 20 + runsWidth r.vendorIds.given).sum

def publisherWidth (p : ObjPublisherTC) : Nat := 57 + 2 * p.customCount

/-- The characters that bits take in base64 without padding. -/
def textWidth (bits : Nat) : Nat := ((bits + 7) / 8 * 4 + 2) / 3

/-- A segment with the dot before it. -/
def segmentWidth (bits : Option Nat) : Nat := (bits.map fun n => 1 + textWidth n).getD 0

def Obj.width (obj : Obj) : Nat :=
  textWidth (coreWidth obj.core) +
    segmentWidth (obj.disclosedVendors.map fun ids => 3 + vendorWidth ids.given) +
    segmentWidth (obj.allowedVendors.map fun ids => 3 + vendorWidth ids.given) +
    segmentWidth (obj.publisher.map publisherWidth)

/-! ## Conditions -/

/-- No field that is written as its default was given as something else: a number is one, a
code is not empty, and a section of vendors does not say that it is not there. -/
@[mk_iff]
structure Given (obj : Obj) : Prop where
  cmpId : ∀ x, obj.core.cmpId = some x → x.isNaN = false
  cmpVersion : ∀ x, obj.core.cmpVersion = some x → x.isNaN = false
  consentScreen : ∀ x, obj.core.consentScreen = some x → x.isNaN = false
  consentLanguage : obj.core.consentLanguage ≠ some []
  vendorListVersion : ∀ x, obj.core.vendorListVersion = some x → x.isNaN = false
  publisherCC : obj.core.publisherCC ≠ some []
  disclosed : ∀ x, obj.disclosedVendors = some x → x.isThere = true
  allowed : ∀ x, obj.allowedVendors = some x → x.isThere = true

/-- No id is beyond its bit field, no field is taken for its default, and the string is not
longer than a parser reads. -/
structure Fits (obj : Obj) : Prop where
  given : Given obj
  features : ∀ id ∈ obj.core.specialFeatureOptins.given, id ≤ 12
  consent : ∀ id ∈ obj.core.purposesConsent.given, id ≤ 24
  legitimate : ∀ id ∈ obj.core.purposesLI.given, id ≤ 24
  publisher : ∀ p, obj.publisher = some p →
    (∀ id ∈ p.pubPurposesConsent.given ++ p.pubPurposesLITransparency.given, id ≤ 24) ∧
    ∀ id ∈ p.customPurposesConsent.given ++ p.customPurposesLITransparency.given,
      id ≤ p.customCount
  short : obj.width ≤ maxTcStringBytes

def Letters (s : JsString) : Prop := ∀ u ∈ s, 0x41 ≤ u.toNat ∧ u.toNat ≤ 0x5A

/-- Both codes are of the letters A to Z, and there is no vendor 0. -/
structure Plain (t : Tcf) : Prop where
  language : Letters t.core.consentLanguage
  country : Letters t.core.publisherCC
  consents : 0 ∉ t.core.vendorConsents.ids
  legitimates : 0 ∉ t.core.vendorLIs.ids
  restrictions : ∀ r ∈ t.core.publisherRestrictions, 0 ∉ r.vendorIds
  disclosed : ∀ ids, t.disclosedVendors = some ids → 0 ∉ ids
  allowed : ∀ ids, t.allowedVendors = some ids → 0 ∉ ids

/-! ## A parsed object as one to encode -/

def number (n : Nat) : Option Double := some (.ofInt n)

def collection (ids : List Nat) : Coll := .list (ids.map fun id : Nat => .ofInt id)

def Restriction.toObj (r : Restriction) : ObjRestriction :=
  ⟨number r.purposeId, number r.restrictionType, collection r.vendorIds⟩

/-- A section as `parseString` returns it. -/
def VendorSection.toObj (v : VendorSection) : Coll :=
  .section none (some (v.ids.map fun id : Nat => .ofInt id)) none

def vendorsToObj (ids : List Nat) : Coll :=
  .section (some true) none (some (ids.map fun id : Nat => .ofInt id))

def Core.toObj (c : Core) : ObjCore where
  version := number c.version
  createdAt := number c.createdAt
  lastUpdatedAt := number c.lastUpdatedAt
  cmpId := number c.cmpId
  cmpVersion := number c.cmpVersion
  consentScreen := number c.consentScreen
  consentLanguage := some c.consentLanguage
  vendorListVersion := number c.vendorListVersion
  policyVersion := number c.policyVersion
  isServiceSpecific := some c.isServiceSpecific
  useNonStandardStacks := some c.useNonStandardStacks
  specialFeatureOptins := collection c.specialFeatureOptins
  purposesConsent := collection c.purposesConsent
  purposesLI := collection c.purposesLI
  purposeOneTreatment := some c.purposeOneTreatment
  publisherCC := some c.publisherCC
  vendorConsents := c.vendorConsents.toObj
  vendorLIs := c.vendorLIs.toObj
  publisherRestrictions := c.publisherRestrictions.map Restriction.toObj

def PublisherTC.toObj (p : PublisherTC) : ObjPublisherTC :=
  ⟨some true, collection p.pubPurposesConsent, collection p.pubPurposesLITransparency,
    number p.numCustomPurposes, collection p.customPurposesConsent,
    collection p.customPurposesLITransparency⟩

def Tcf.toObj (t : Tcf) : Obj :=
  ⟨t.core.toObj, t.disclosedVendors.map vendorsToObj, t.allowedVendors.map vendorsToObj,
    t.publisherTC.map PublisherTC.toObj⟩

end Blamejs.IabTcf
