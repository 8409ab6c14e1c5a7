import Blamejs.Proofs.TcfFormat

/-!
# TC strings

The segments of a string around the formats of `TcfFormat`. What `encode` writes is
read back up to the ids that its bit fields have no bit for, if it is short enough to
be read at all; and what was read from a string is written again in no more
characters, because no section of it takes more bits than it took there.
-/

namespace Blamejs.IabTcf

open Blamejs.Js BitStream

variable {bits : Bits}

/-! ## The text of a segment -/

theorem b64urlDecode_eq (s : JsString) :
    b64urlDecode s = if s.length % 4 = 1 then .error .badBase64 else .ok (ofBase64 s) := by
  have hmap : ∀ s : JsString, ofBase64 (s.map fun u =>
      if u = unit '-' then unit '+' else if u = unit '_' then unit '/' else u) = ofBase64 s := by
    intro s
    rw [ofBase64, ofBase64, List.filterMap_map]
    congr 2
    funext u
    dsimp only [Function.comp]
    split
    · next h => rw [h]; decide
    · split
      · next h => rw [h]; decide
      · rfl
  have hpad : ∀ s : JsString, ofBase64 (s ++ units "=") = ofBase64 s := by
    intro s
    rw [ofBase64, ofBase64, List.filterMap_append]
    congr 1
    exact List.append_nil _
  have hpad2 : ∀ s : JsString, ofBase64 (s ++ units "==") = ofBase64 s := by
    intro s
    rw [ofBase64, ofBase64, List.filterMap_append]
    congr 1
    exact List.append_nil _
  unfold b64urlDecode
  dsimp only
  rw [List.length_map, hmap, hpad, hpad2, hmap]
  split
  · rw [if_neg (by omega)]
  · split
    · rw [if_neg (by omega)]
    · rfl

/-- The text of some bits. -/
def segmentText (bits : Bits) : JsString := toBase64Url (toBuffer bits)

theorem length_segmentText (bits : Bits) : (segmentText bits).length = textWidth bits.length := by
  rw [segmentText, length_toBase64Url, length_toBuffer, textWidth]

theorem decode_segmentText (bits : Bits) :
    b64urlDecode (segmentText bits) = .ok (toBuffer bits) := by
  rw [b64urlDecode_eq, if_neg, segmentText, ofBase64_toBase64Url]
  rw [length_segmentText, textWidth]
  omega

theorem dot_not_mem (bits : Bits) : unit '.' ∉ segmentText bits := fun h =>
  absurd (isSome_of_mem_toBase64Url h) (by decide)

theorem runReader_toBuffer {α : Type} {p : Read Err α} {a : α} (h : Reads p bits a) :
    runReader p (toBuffer bits) = .ok a := by
  obtain ⟨pad, hpad⟩ := bufferBits_toBuffer bits
  rw [runReader, hpad, h]
  rfl

/-- The type of a segment stands in its first three bits. -/
theorem toBuffer_type {segType : Nat} (hlt : segType < 8) {rest : Bits}
    (h : bits = bitsOf 3 segType ++ rest) :
    ∃ b buf, toBuffer bits = b :: buf ∧ b.toNat / 32 = segType := by
  obtain ⟨pad, hpad⟩ := bufferBits_toBuffer bits
  cases hbuf : toBuffer bits with
  | nil =>
      rw [hbuf, h] at hpad
      have hlen := congrArg List.length hpad
      simp only [bufferBits, List.flatMap_nil, List.length_append, length_bitsOf,
        List.length_nil] at hlen
      omega
  | cons b buf =>
      refine ⟨b, buf, rfl, ?_⟩
      have hsplit : bitsOf 8 b.toNat =
          (bitsOf 8 b.toNat).take 3 ++ (bitsOf 8 b.toNat).drop 3 := (List.take_append_drop 3 _).symm
      have hfirst : (bitsOf 8 b.toNat).take 3 = bitsOf 3 segType := by
        rw [hbuf, bufferBits, List.flatMap_cons, h] at hpad
        have htake := congrArg (List.take 3) hpad
        rwa [List.take_append_of_le_length (by simp), List.append_assoc,
          List.take_left' (length_bitsOf 3 _)] at htake
      have hvalue := valueOf_bitsOf (k := 8) b.toNat_lt
      have hrest := valueOf_lt ((bitsOf 8 b.toNat).drop 3)
      rw [hsplit, hfirst, valueOf_append, valueOf_bitsOf hlt] at hvalue
      rw [List.length_drop, length_bitsOf] at hvalue hrest
      omega

/-! ## One segment -/

theorem parseSegment_disclosed {x : Coll}
    (h : encodeVendors segmentDisclosedVendors x = .ok bits) :
    ∃ ids, idSet ids = idSet x.given ∧ ∀ t i,
      parseSegment t i (segmentText bits) = { t with disclosedVendors := some ids } := by
  obtain ⟨-, ⟨rest, hrest⟩, -, v, hreads, hset⟩ := reads_vendors h
  obtain ⟨b, buf, hbuf, htype⟩ := toBuffer_type (by decide) hrest
  have hrun := runReader_toBuffer hreads
  refine ⟨v.ids, hset, fun t i => ?_⟩
  rw [hbuf] at hrun
  rw [parseSegment, decode_segmentText, hbuf]
  simp only [htype, if_true, hrun]

theorem parseSegment_allowed {x : Coll}
    (h : encodeVendors segmentAllowedVendors x = .ok bits) :
    ∃ ids, idSet ids = idSet x.given ∧ ∀ t i,
      parseSegment t i (segmentText bits) = { t with allowedVendors := some ids } := by
  obtain ⟨-, ⟨rest, hrest⟩, -, v, hreads, hset⟩ := reads_vendors h
  obtain ⟨b, buf, hbuf, htype⟩ := toBuffer_type (by decide) hrest
  have hrun := runReader_toBuffer hreads
  have hne : segmentAllowedVendors ≠ segmentDisclosedVendors := by decide
  refine ⟨v.ids, hset, fun t i => ?_⟩
  rw [hbuf] at hrun
  rw [parseSegment, decode_segmentText, hbuf]
  simp only [htype, if_neg hne, if_true, hrun]

theorem parseSegment_publisher {p : ObjPublisherTC} (h : encodePublisherTC p = .ok bits) :
    ∃ p', PublisherBack p p' ∧ ∀ t i,
      parseSegment t i (segmentText bits) = { t with publisherTC := some p' } := by
  obtain ⟨-, ⟨rest, hrest⟩, p', hreads, hback⟩ := reads_publisher h
  obtain ⟨b, buf, hbuf, htype⟩ := toBuffer_type (by decide) hrest
  have hrun := runReader_toBuffer hreads
  have hne : segmentPublisherTC ≠ segmentDisclosedVendors := by decide
  have hne' : segmentPublisherTC ≠ segmentAllowedVendors := by decide
  refine ⟨p', hback, fun t i => ?_⟩
  rw [hbuf] at hrun
  rw [parseSegment, decode_segmentText, hbuf]
  simp only [htype, if_neg hne, if_neg hne', if_true, hrun]

/-! ## The optional segments -/

theorem optional_ok {α : Type} {write : α → Except Err Bits} {x : Option α} {segs : List Bits}
    (h : optional write x = .ok segs) :
    (x = none ∧ segs = []) ∨ ∃ a bits, x = some a ∧ write a = .ok bits ∧ segs = [bits] := by
  cases x with
  | none =>
      cases h
      exact Or.inl ⟨rfl, rfl⟩
  | some a =>
      obtain ⟨bits, hbits, h⟩ := Checked.bind_eq_ok.mp h
      cases h
      exact Or.inr ⟨a, bits, rfl, hbits, rfl⟩

/-- The characters of the segments of an optional part, each with its dot. -/
theorem optional_width {α : Type} {write : α → Except Err Bits} {width : α → Nat} {x : Option α}
    {segs : List Bits} (h : optional write x = .ok segs)
    (hwidth : ∀ a bits, write a = .ok bits → bits.length = width a) :
    (segs.map fun bits => 1 + (segmentText bits).length).sum = segmentWidth (x.map width) := by
  obtain ⟨rfl, rfl⟩ | ⟨a, bits, rfl, hbits, rfl⟩ := optional_ok h
  · rfl
  · simp [segmentWidth, length_segmentText, hwidth a bits hbits]

/-- What is read back of an object: all of it but the ids without a bit. -/
structure Back (now now' : Nat) (obj : Obj) (t : Tcf) : Prop where
  core : CoreBack now now' obj.core t.core
  disclosed : t.disclosedVendors.map idSet = obj.disclosedVendors.map fun x => idSet x.given
  allowed : t.allowedVendors.map idSet = obj.allowedVendors.map fun x => idSet x.given
  publisher : Option.Rel PublisherBack obj.publisher t.publisherTC
  errors : t.errors = []
  noZero : (∀ x, obj.disclosedVendors = some x → 0 ∉ x.given) ∧
    ∀ x, obj.allowedVendors = some x → 0 ∉ x.given

theorem parseSegments_optional {disclosed allowed : Option Coll}
    {publisher : Option ObjPublisherTC} {ds as ps : List Bits}
    (hd : optional (encodeVendors segmentDisclosedVendors) disclosed = .ok ds)
    (ha : optional (encodeVendors segmentAllowedVendors) allowed = .ok as)
    (hp : optional encodePublisherTC publisher = .ok ps) (core : Core) :
    ∃ d a p, d.map idSet = (disclosed.map fun x => idSet x.given) ∧
      a.map idSet = (allowed.map fun x => idSet x.given) ∧
      Option.Rel PublisherBack publisher p ∧
      parseSegments ⟨core, none, none, none, []⟩ 1 ((ds ++ as ++ ps).map segmentText) =
        ⟨core, d, a, p, []⟩ := by
  have hdis : ∃ d, d.map idSet = (disclosed.map fun x => idSet x.given) ∧ ∀ i more,
      parseSegments ⟨core, none, none, none, []⟩ i (ds.map segmentText ++ more) =
        parseSegments ⟨core, d, none, none, []⟩ (i + ds.length) more := by
    obtain ⟨rfl, rfl⟩ | ⟨x, bits, rfl, hbits, rfl⟩ := optional_ok hd
    · exact ⟨none, rfl, fun _ _ => rfl⟩
    · obtain ⟨ids, hset, hparse⟩ := parseSegment_disclosed hbits
      refine ⟨some ids, congrArg some hset, fun i more => ?_⟩
      rw [List.map_singleton, List.singleton_append, parseSegments, hparse]
      rfl
  obtain ⟨d, hdset, hdparse⟩ := hdis
  have hall : ∃ a, a.map idSet = (allowed.map fun x => idSet x.given) ∧ ∀ i more,
      parseSegments ⟨core, d, none, none, []⟩ i (as.map segmentText ++ more) =
        parseSegments ⟨core, d, a, none, []⟩ (i + as.length) more := by
    obtain ⟨rfl, rfl⟩ | ⟨x, bits, rfl, hbits, rfl⟩ := optional_ok ha
    · exact ⟨none, rfl, fun _ _ => rfl⟩
    · obtain ⟨ids, hset, hparse⟩ := parseSegment_allowed hbits
      refine ⟨some ids, congrArg some hset, fun i more => ?_⟩
      rw [List.map_singleton, List.singleton_append, parseSegments, hparse]
      rfl
  obtain ⟨a, haset, haparse⟩ := hall
  have hpub : ∃ p, Option.Rel PublisherBack publisher p ∧ ∀ i,
      parseSegments ⟨core, d, a, none, []⟩ i (ps.map segmentText) = ⟨core, d, a, p, []⟩ := by
    obtain ⟨rfl, rfl⟩ | ⟨x, bits, rfl, hbits, rfl⟩ := optional_ok hp
    · exact ⟨none, .none, fun _ => rfl⟩
    · obtain ⟨p', hback, hparse⟩ := parseSegment_publisher hbits
      refine ⟨some p', .some hback, fun i => ?_⟩
      rw [List.map_singleton, parseSegments, hparse]
      rfl
  obtain ⟨p, hback, hpparse⟩ := hpub
  refine ⟨d, a, p, hdset, haset, hback, ?_⟩
  rw [List.map_append, List.map_append, List.append_assoc, hdparse, haparse, hpparse]

theorem optional_noZero {segType : Nat} {x : Option Coll} {segs : List Bits}
    (h : optional (encodeVendors segType) x = .ok segs) : ∀ y, x = some y → 0 ∉ y.given := by
  obtain ⟨rfl, -⟩ | ⟨y, bits, rfl, hbits, -⟩ := optional_ok h
  · exact fun _ hy => (nomatch hy)
  · rintro _ ⟨⟩
    exact (reads_vendors hbits).2.2.1

theorem length_intercalate (first : JsString) (segments : List JsString) :
    ([unit '.'].intercalate (first :: segments)).length =
      first.length + (segments.map fun s => 1 + s.length).sum := by
  induction segments generalizing first with
  | nil => simp [List.intercalate_singleton]
  | cons s segments ih =>
      rw [List.intercalate_cons_cons, List.length_append, List.length_append, ih,
        List.map_cons, List.sum_cons, List.length_singleton]
      omega

/-- What `encode` writes, and what becomes of it when it is read. -/
theorem parse_encode {now now' : Nat} {obj : Obj} {s : JsString}
    (h : encode now now' obj = .ok s) : s.length = obj.width ∧
      (s.length ≤ maxTcStringBytes → ∃ t, parseString s = .ok t ∧ Back now now' obj t) := by
  obtain ⟨core, hcore, h⟩ := Checked.bind_eq_ok.mp h
  obtain ⟨ds, hd, h⟩ := Checked.bind_eq_ok.mp h
  obtain ⟨as, ha, h⟩ := Checked.bind_eq_ok.mp h
  obtain ⟨ps, hp, h⟩ := Checked.bind_eq_ok.mp h
  obtain ⟨hlen, c, hreads, hback⟩ := reads_core hcore
  have hs : s = [unit '.'].intercalate
      (segmentText core :: (ds ++ as ++ ps).map segmentText) := (Except.ok.inj h).symm
  refine ⟨?_, fun hshort => ?_⟩
  · have hdw := optional_width hd fun x bits hbits => (reads_vendors hbits).1
    have haw := optional_width ha fun x bits hbits => (reads_vendors hbits).1
    have hpw := optional_width hp fun x bits hbits => (reads_publisher hbits).1
    rw [hs, length_intercalate, List.map_map, List.map_append, List.map_append, List.sum_append,
      List.sum_append, length_segmentText, hlen, Obj.width]
    simp only [Function.comp_def]
    rw [hdw, haw, hpw]
    simp only [Nat.add_assoc]
  · obtain ⟨d, a, p, hdset, haset, hpback, hparse⟩ := parseSegments_optional hd ha hp c
    have hsplit : s.splitOn (unit '.') =
        segmentText core :: (ds ++ as ++ ps).map segmentText := by
      rw [hs]
      refine List.splitOn_intercalate _ (fun l hl => ?_) (by simp)
      obtain ⟨bits, -, rfl⟩ : ∃ bits ∈ core :: (ds ++ as ++ ps), segmentText bits = l :=
        List.mem_map.mp (by rwa [List.map_cons])
      exact dot_not_mem bits
    have hne : s ≠ [] := by
      intro hnil
      have := congrArg List.length hs
      rw [hnil, length_intercalate, length_segmentText, hlen, textWidth, coreWidth,
        List.length_nil] at this
      omega
    refine ⟨⟨c, d, a, p, []⟩, ?_, hback, hdset, haset, hpback, rfl, optional_noZero hd,
      optional_noZero ha⟩
    rw [parseString, if_neg hne, if_neg (Nat.not_lt.mpr hshort), hsplit]
    simp only [decode_segmentText, runReader_toBuffer hreads]
    exact congrArg Except.ok hparse

/-! ## The signal of what was written -/

theorem upTo_eq_iff {n : Nat} {ids : List Nat} :
    upTo n ids = idSet ids ↔ ∀ id ∈ ids, id ≤ n := by
  constructor
  · intro h id hid
    have hmem : id ∈ idSet ids := hid
    rw [← h] at hmem
    exact hmem.2
  · intro h
    exact Set.ext fun id => and_iff_left_of_imp (h id)

variable {now now' : Nat} {obj : Obj} {t : Tcf}

/-- No id is beyond its bit field, and no field is taken for its default. -/
def InFields (obj : Obj) : Prop :=
  Given obj ∧
  (∀ id ∈ obj.core.specialFeatureOptins.given, id ≤ 12) ∧
  (∀ id ∈ obj.core.purposesConsent.given, id ≤ 24) ∧
  (∀ id ∈ obj.core.purposesLI.given, id ≤ 24) ∧
  ∀ p, obj.publisher = some p →
    (∀ id ∈ p.pubPurposesConsent.given ++ p.pubPurposesLITransparency.given, id ≤ 24) ∧
    ∀ id ∈ p.customPurposesConsent.given ++ p.customPurposesLITransparency.given,
      id ≤ p.customCount

theorem PublisherBack.signal_eq_iff {p : ObjPublisherTC} {p' : PublisherTC}
    (h : PublisherBack p p') : p'.signal = p.signal ↔
      (∀ id ∈ p.pubPurposesConsent.given ++ p.pubPurposesLITransparency.given, id ≤ 24) ∧
      ∀ id ∈ p.customPurposesConsent.given ++ p.customPurposesLITransparency.given,
        id ≤ p.customCount := by
  rw [PublisherTC.signal, ObjPublisherTC.signal, PublisherSignal.mk.injEq, h.consent,
    h.legitimate, h.count, h.customConsent, h.customLI, upTo_eq_iff, upTo_eq_iff, upTo_eq_iff,
    upTo_eq_iff, List.forall_mem_append, List.forall_mem_append]
  tauto

theorem upper_default_iff {s : Option JsString} {fallback : String}
    (h : toUpperCase (units fallback) ≠ []) :
    toUpperCase (orText s fallback) = toUpperCase (s.getD (units fallback)) ↔ s ≠ some [] := by
  cases s with
  | none => simp [orText]
  | some s =>
      cases s with
      | nil => simpa [orText, toUpperCase] using h
      | cons u s => simp [orText]

theorem filter_there_iff {β : Type} {x : Option Coll} {f : Coll → β} :
    x.map f = (x.filter Coll.isThere).map f ↔ ∀ y, x = some y → y.isThere = true := by
  cases x with
  | none => simp
  | some y =>
      cases hy : y.isThere with
      | true => simp [Option.filter_some, hy]
      | false => simp [Option.filter_some, hy]

/-- What is read back has the same signal just when every id has its bit and no field is
taken for its default. -/
theorem Back.signal_eq_iff (h : Back now now' obj t) : t.signal = obj.signal ↔ InFields obj := by
  have hpublisher : t.publisherTC.map PublisherTC.signal =
        obj.publisher.map ObjPublisherTC.signal ↔ ∀ p, obj.publisher = some p →
      (∀ id ∈ p.pubPurposesConsent.given ++ p.pubPurposesLITransparency.given, id ≤ 24) ∧
      ∀ id ∈ p.customPurposesConsent.given ++ p.customPurposesLITransparency.given,
        id ≤ p.customCount := by
    have hrel := h.publisher
    generalize obj.publisher = publisher at hrel ⊢
    generalize t.publisherTC = publisherTC at hrel ⊢
    cases hrel with
    | none => simp
    | some hp =>
        rw [Option.map_some, Option.map_some, Option.some.injEq, hp.signal_eq_iff]
        exact ⟨fun hb p heq => Option.some.inj heq ▸ hb, fun hb => hb _ rfl⟩
  rw [Tcf.signal, Obj.signal, Signal.mk.injEq, h.core.version, numberOf_eq_iff h.core.cmpId,
    numberOf_eq_iff h.core.cmpVersion, numberOf_eq_iff h.core.consentScreen,
    h.core.consentLanguage, upper_default_iff (by decide),
    numberOf_eq_iff h.core.vendorListVersion, h.core.policyVersion,
    h.core.isServiceSpecific, h.core.useNonStandardStacks, h.core.specialFeatureOptins,
    h.core.purposesConsent, h.core.purposesLI, h.core.purposeOneTreatment, h.core.publisherCC,
    upper_default_iff (by decide), h.core.vendorConsents, h.core.vendorLIs,
    h.core.publisherRestrictions, h.disclosed, filter_there_iff, h.allowed, filter_there_iff,
    hpublisher, upTo_eq_iff, upTo_eq_iff, upTo_eq_iff, InFields, given_iff]
  tauto

theorem fits_iff : Fits obj ↔ InFields obj ∧ obj.width ≤ maxTcStringBytes :=
  ⟨fun h => ⟨⟨h.given, h.features, h.consent, h.legitimate, h.publisher⟩, h.short⟩,
    fun ⟨⟨hgiven, hfeatures, hconsent, hli, hpublisher⟩, hshort⟩ =>
      ⟨hgiven, hfeatures, hconsent, hli, hpublisher, hshort⟩⟩

/-- What `encode` accepts is read back without errors as the same signal just when it
fits. -/
theorem says_iff_fits {s : JsString} (h : encode now now' obj = .ok s) :
    (∃ t, parseString s = .ok t ∧ t.errors = [] ∧ Says now now' obj t) ↔ Fits obj := by
  obtain ⟨hlen, hparse⟩ := parse_encode h
  rw [fits_iff]
  constructor
  · rintro ⟨t, ht, -, hsays⟩
    have hshort : s.length ≤ maxTcStringBytes := by
      by_contra hlong
      have hne : s ≠ [] := by
        rintro rfl
        exact hlong (Nat.zero_le _)
      rw [parseString, if_neg hne, if_pos (Nat.not_le.mp hlong)] at ht
      cases ht
    obtain ⟨t', ht', hback⟩ := hparse hshort
    obtain rfl : t' = t := Except.ok.inj (ht'.symm.trans ht)
    exact ⟨hback.signal_eq_iff.mp hsays.signal, hlen ▸ hshort⟩
  · rintro ⟨hfields, hshort⟩
    obtain ⟨t, ht, hback⟩ := hparse (hlen ▸ hshort)
    exact ⟨t, ht, hback.errors, hback.signal_eq_iff.mpr hfields, hback.core.created,
      hback.core.updated⟩

end Blamejs.IabTcf
