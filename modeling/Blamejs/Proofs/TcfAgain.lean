import Blamejs.Proofs.TcfParsed
import Blamejs.Proofs.TcfString

/-!
# Writing again what was parsed

An object that was parsed fits its fields and needs no more characters than the string
it came from, so all that can keep it from being encoded is what the parser is freer in
than the encoder: the letters of the two codes, and a vendor 0.
-/

namespace Blamejs.IabTcf

open Blamejs.Js BitStream

/-! ## Segments that were read -/

theorem length_bufferBits (buf : List UInt8) : (bufferBits buf).length = 8 * buf.length := by
  induction buf with
  | nil => rfl
  | cons b buf ih =>
      rw [bufferBits, List.flatMap_cons, List.length_append, length_bitsOf, List.length_cons]
      rw [bufferBits] at ih
      omega

theorem runReader_ensures {α : Type} {p : Read Err α} {Q : Nat → α → Prop} (h : Ensures p Q)
    {buf : List UInt8} {a : α} (hrun : runReader p buf = .ok a) :
    ∃ n ≤ 8 * buf.length, Q n a := by
  rw [runReader] at hrun
  cases hp : p ⟨bufferBits buf, 0⟩ with
  | error e =>
      rw [hp] at hrun
      cases hrun
  | ok r =>
      obtain ⟨a', r'⟩ := r
      rw [hp] at hrun
      cases hrun
      obtain ⟨n, hn, hQ⟩ := h _ _ _ hp
      dsimp only at hn
      rw [length_bufferBits] at hn
      exact ⟨n, by omega, hQ⟩

/-- What was read from a text fits into as many characters. -/
theorem textWidth_le {s : JsString} {buf : List UInt8} (h : b64urlDecode s = .ok buf) {n : Nat}
    (hn : n ≤ 8 * buf.length) : textWidth n ≤ s.length := by
  rw [b64urlDecode_eq] at h
  split at h
  · cases h
  · cases h
    have := length_ofBase64_le s
    rw [textWidth]
    omega

/-- The optional segments of a parsed object, and the characters they may take. -/
structure SegmentsOk (t : Tcf) (budget : Nat) : Prop where
  disclosed : ∀ ids, t.disclosedVendors = some ids → ∀ id ∈ ids, id < 2 ^ 16
  allowed : ∀ ids, t.allowedVendors = some ids → ∀ id ∈ ids, id < 2 ^ 16
  publisher : ∀ p, t.publisherTC = some p → PublisherOk p
  width : segmentWidth (t.disclosedVendors.map fun ids => 3 + vendorWidth ids) +
    segmentWidth (t.allowedVendors.map fun ids => 3 + vendorWidth ids) +
    segmentWidth (t.publisherTC.map fun p => 57 + 2 * p.numCustomPurposes) ≤ budget

theorem segmentWidth_some {n m : Nat} (h : textWidth n ≤ m) : segmentWidth (some n) ≤ 1 + m :=
  Nat.add_le_add_left h 1

theorem textWidth_mono {m n : Nat} (h : m ≤ n) : textWidth m ≤ textWidth n := by
  rw [textWidth, textWidth]
  omega

theorem SegmentsOk.mono {t : Tcf} {m n : Nat} (h : SegmentsOk t m) (hle : m ≤ n) :
    SegmentsOk t n :=
  { h with width := Nat.le_trans h.width hle }

/-- A segment takes the place of an earlier one of its type, or comes in addition. -/
theorem segmentsOk_parseSegment {t : Tcf} {budget i : Nat} {segment : JsString}
    (h : SegmentsOk t budget) :
    SegmentsOk (parseSegment t i segment) (budget + (1 + segment.length)) := by
  have hkeep : ∀ e, SegmentsOk (t.fail e) (budget + (1 + segment.length)) := fun _ =>
    SegmentsOk.mono ⟨h.disclosed, h.allowed, h.publisher, h.width⟩ (Nat.le_add_right _ _)
  have hwidth := h.width
  unfold parseSegment
  split
  · exact hkeep _
  · exact h.mono (Nat.le_add_right _ _)
  · next b buf hbuf =>
      dsimp only
      split
      · split
        · next v hrun =>
            obtain ⟨n, hn, hids, hle⟩ := runReader_ensures (ensures_vendors _) hrun
            have := segmentWidth_some (Nat.le_trans (textWidth_mono hle) (textWidth_le hbuf hn))
            refine ⟨fun ids heq => Option.some.inj heq ▸ hids, h.allowed, h.publisher, ?_⟩
            simp only [Option.map_some]
            omega
        · exact hkeep _
      · split
        · split
          · next v hrun =>
              obtain ⟨n, hn, hids, hle⟩ := runReader_ensures (ensures_vendors _) hrun
              have := segmentWidth_some (Nat.le_trans (textWidth_mono hle) (textWidth_le hbuf hn))
              refine ⟨h.disclosed, fun ids heq => Option.some.inj heq ▸ hids, h.publisher, ?_⟩
              simp only [Option.map_some]
              omega
          · exact hkeep _
        · split
          · split
            · next p hrun =>
                obtain ⟨n, hn, hp, hle⟩ := runReader_ensures ensures_publisher hrun
                have := segmentWidth_some (Nat.le_trans (textWidth_mono hle) (textWidth_le hbuf hn))
                refine ⟨h.disclosed, h.allowed, fun p' heq => Option.some.inj heq ▸ hp, ?_⟩
                simp only [Option.map_some]
                omega
            · exact hkeep _
          · exact hkeep _

theorem parseSegment_core (t : Tcf) (i : Nat) (segment : JsString) :
    (parseSegment t i segment).core = t.core := by
  unfold parseSegment
  dsimp only
  repeat' split
  all_goals rfl

theorem segmentsOk_parseSegments {segments : List JsString} {t : Tcf} {budget : Nat} (i : Nat)
    (h : SegmentsOk t budget) :
    (parseSegments t i segments).core = t.core ∧ SegmentsOk (parseSegments t i segments)
      (budget + (segments.map fun s => 1 + s.length).sum) := by
  induction segments generalizing t budget i with
  | nil => exact ⟨rfl, h⟩
  | cons segment segments ih =>
      obtain ⟨hcore, hok⟩ := ih (i + 1) (@segmentsOk_parseSegment _ _ i segment h)
      refine ⟨hcore.trans (parseSegment_core t i segment), hok.mono (Nat.le_of_eq ?_)⟩
      rw [List.map_cons, List.sum_cons, Nat.add_assoc]

/-- What a string that is accepted says fits its fields and its length. -/
theorem parsed_ok {s : JsString} {t : Tcf} (h : parseString s = .ok t) :
    CoreOk t.core ∧ ∃ budget, SegmentsOk t budget ∧
      textWidth (coreBits t.core) + budget ≤ maxTcStringBytes := by
  unfold parseString at h
  split at h
  · cases h
  split at h
  · cases h
  next hshort =>
  split at h
  · cases h
  next first segments hsplit =>
  split at h
  · cases h
  next coreBuf hbuf =>
  obtain ⟨core, hcore, h⟩ := Checked.bind_eq_ok.mp h
  cases h
  obtain ⟨n, hn, hok, hwidth⟩ := runReader_ensures ensures_core hcore
  have hempty : SegmentsOk ⟨core, none, none, none, []⟩ 0 :=
    ⟨fun _ h => (nomatch h), fun _ h => (nomatch h), fun _ h => (nomatch h), Nat.le_refl 0⟩
  obtain ⟨hsame, hsegments⟩ := @segmentsOk_parseSegments segments _ _ 1 hempty
  rw [hsame]
  refine ⟨hok, _, hsegments, ?_⟩
  have hlen := length_intercalate first segments
  rw [← hsplit, List.intercalate_splitOn] at hlen
  have := Nat.le_trans (textWidth_mono hwidth) (textWidth_le hbuf hn)
  dsimp only
  omega

/-! ## What is encoded of a parsed object -/

/-- The write is not refused. -/
def Accepted (w : Except Err Bits) : Prop := ∃ bits, w = .ok bits

theorem accepted_nil : Accepted (writeAll []) := ⟨[], rfl⟩

theorem accepted_cons {w : Except Err Bits} {ws : List (Except Err Bits)} (hw : Accepted w)
    (hws : Accepted (writeAll ws)) : Accepted (writeAll (w :: ws)) := by
  obtain ⟨xs, hxs⟩ := hw
  obtain ⟨ys, hys⟩ := hws
  exact ⟨xs ++ ys, writeAll_cons.mpr ⟨xs, ys, hxs, hys, rfl⟩⟩

theorem accepted_map {α : Type} {write : α → Except Err Bits} {as : List α}
    (h : ∀ a ∈ as, Accepted (write a)) : Accepted (writeAll (as.map write)) := by
  induction as with
  | nil => exact accepted_nil
  | cons a as ih =>
      exact accepted_cons (h a List.mem_cons_self) (ih fun a ha => h a (List.mem_cons_of_mem _ ha))

theorem accepted_bool (b : Bool) : Accepted (writeBool b) := ⟨[b], rfl⟩

theorem accepted_nat {n k : Nat} (h : n < 2 ^ k) : Accepted (writeNat n k) :=
  ⟨bitsOf k n, writeNat_of_lt h⟩

theorem lt_53 {n k : Nat} (hk : k ≤ 53) (h : n < 2 ^ k) : n < 2 ^ 53 :=
  Nat.lt_of_lt_of_le h (Nat.pow_le_pow_right (by decide) hk)

theorem accepted_int {n k : Nat} (hk : k ≤ 53) (h : n < 2 ^ k) :
    Accepted (writeInt (number n) k) := by
  rw [writeInt, number, Option.bind_some, natValue?_ofInt (lt_53 hk h)]
  exact accepted_nat h

/-- A number that was read is its own `v || 0`. -/
theorem orZero_number {n : Nat} (h : n < 2 ^ 53) : orZero (number n) = number n := by
  rw [number, orZero, Double.isNaN_ofInt]
  split
  · next hzero =>
      have habs : ((n : Int)).natAbs < 2 ^ 53 := h
      have hmag := Double.mag_ofInt habs
      rw [Double.mag_eq_zero_iff.mpr (by simpa using hzero)] at hmag
      have hn : n = 0 := (Nat.mul_eq_zero.mp hmag.symm).resolve_right
        (Nat.ne_of_gt Double.unitsPerOne_pos)
      rw [hn]
      refine congrArg some (Double.ext_mag (Double.neg_ofInt 0).symm ?_)
      rw [Nat.cast_zero, Double.mag_ofInt (by decide), Double.mag_eq_zero_iff.mpr rfl,
        Int.natAbs_zero, Nat.zero_mul]
  · rfl

/-- A number that was read needs no default. -/
theorem some_getD_number (n : Nat) (d : Double) : some ((number n).getD d) = number n := by
  rw [number, Option.getD_some]

theorem orElse_number (n : Nat) (d : Unit → Option Double) :
    (number n).orElse d = number n := by
  rw [number, Option.orElse_some]

theorem optNat_number {n : Nat} (h : n < 2 ^ 53) : optNat (number n) = n := by
  rw [optNat, number, Option.map_some, Option.getD_some, natOf_ofInt h]

theorem numberOf_number {n : Nat} (h : n < 2 ^ 53) : numberOf (number n) = some n := by
  rw [numberOf, number, Option.getD_some, natValue?_ofInt h]

theorem map_natOf_ofInt {ids : List Nat} (h : ∀ id ∈ ids, id < 2 ^ 53) :
    (ids.map fun id : Nat => Double.ofInt id).map natOf = ids := by
  rw [List.map_map, Function.comp_def]
  exact (List.map_congr_left fun id hid => natOf_ofInt (h id hid)).trans (List.map_id' _)

/-- The ids of a collection, each of them a number in range. -/
def Lists (x : Coll) (ids : List Nat) : Prop :=
  (x.src = ids.map fun id : Nat => Double.ofInt id) ∧ ∀ id ∈ ids, id < 2 ^ 53

theorem Lists.given {x : Coll} {ids : List Nat} (h : Lists x ids) : x.given = ids := by
  rw [Coll.given, h.1, map_natOf_ofInt h.2]

theorem Lists.idArray {x : Coll} {ids : List Nat} (h : Lists x ids) (hzero : 0 ∉ ids) :
    idArray x = .ok (sorted ids) := by
  have hall : ∀ {ids : List Nat}, (∀ id ∈ ids, id < 2 ^ 53) → 0 ∉ ids →
      (ids.map fun id : Nat => Double.ofInt id).mapM positive = .ok ids := by
    intro ids hlt hzero
    induction ids with
    | nil => rfl
    | cons id ids ih =>
        obtain ⟨hid, hids⟩ := List.forall_mem_cons.mp hlt
        obtain ⟨hne, hnone⟩ := List.ne_and_not_mem_of_not_mem_cons hzero
        obtain ⟨n, rfl⟩ : ∃ n, id = n + 1 := ⟨id - 1, by omega⟩
        have hpos : positive (.ofInt (n + 1 : Nat)) = .ok (n + 1) := by
          rw [positive, natValue?_ofInt hid]
        rw [List.map_cons, List.mapM_cons, hpos, ih hids hnone]
        rfl
  rw [IabTcf.idArray, h.1, hall h.2 hzero]
  rfl

theorem accepted_bitField {x : Coll} {ids : List Nat} {k : Nat} (h : Lists x ids)
    (hzero : 0 ∉ ids) : Accepted (writeBitField x k) := by
  rw [writeBitField, h.idArray hzero]
  exact ⟨_, rfl⟩

/-! ## Runs and sections -/

theorem accepted_runs {ids : List Nat} (h : ∀ id ∈ ids, id < 2 ^ 16)
    (hlen : (idRuns (sorted ids)).length < 2 ^ 12) :
    Accepted (writeRuns (idRuns (sorted ids))) := by
  refine accepted_cons (accepted_nat hlen) (accepted_map fun r hr => ?_)
  have hle := (idRuns_runs (sorted_lt ids)).1 r hr
  have hmem : ∀ id, r.1 ≤ id → id ≤ r.2 → id < 2 ^ 16 := fun id hge hle =>
    h id (mem_sorted.mp (mem_of_run hr (mem_runIds.mpr ⟨hge, hle⟩)))
  have hfirst := accepted_nat (hmem r.1 (Nat.le_refl _) hle)
  have hlast := accepted_nat (hmem r.2 hle (Nat.le_refl _))
  rw [writeRun]
  split
  · exact accepted_cons (accepted_bool _) (accepted_cons hfirst accepted_nil)
  · exact accepted_cons (accepted_bool _) (accepted_cons hfirst (accepted_cons hlast accepted_nil))

theorem length_le_runBits (runs : List (Nat × Nat)) :
    17 * runs.length ≤ (runs.map runBits).sum := by
  induction runs with
  | nil => exact Nat.le_refl _
  | cons r runs ih =>
      rw [List.map_cons, List.sum_cons, List.length_cons, runBits]
      omega

/-- The entries are written only where they are fewer bits than a bit field, so there are
never too many for the number before them. -/
theorem accepted_vendorSection {x : Coll} {ids : List Nat} (hx : Lists x ids) (hzero : 0 ∉ ids)
    (h : ∀ id ∈ ids, id < 2 ^ 16) : Accepted (writeVendorSection x) := by
  have hmax : ids.foldr max 0 < 2 ^ 16 :=
    Nat.lt_succ_of_le (foldr_max_le fun id hid => Nat.le_of_lt_succ (h id hid))
  rw [writeVendorSection, hx.idArray hzero]
  change Accepted (writeVendorIds (sorted ids))
  rw [writeVendorIds, getLast_sorted]
  refine accepted_cons (accepted_nat hmax) (accepted_cons ?_ accepted_nil)
  split
  · exact accepted_bool _
  split
  · next hless =>
      refine accepted_cons (accepted_bool _) (accepted_cons (accepted_runs h ?_) accepted_nil)
      have := length_le_runBits (idRuns (sorted ids))
      omega
  · exact accepted_cons (accepted_bool _) (accepted_cons ⟨_, rfl⟩ accepted_nil)

theorem accepted_restriction {r : Restriction} (h : RestrictionOk r) (hzero : 0 ∉ r.vendorIds) :
    Accepted (writeRestriction r.toObj) := by
  have hids : Lists r.toObj.vendorIds r.vendorIds :=
    ⟨rfl, fun id hid => lt_53 (by decide) (h.ids id hid)⟩
  rw [writeRestriction, Restriction.toObj]
  dsimp only
  rw [some_getD_number]
  refine accepted_cons (accepted_int (by decide) h.purpose) (accepted_cons
    (accepted_int (by decide) h.type) (accepted_cons ?_ accepted_nil))
  rw [Restriction.toObj] at hids
  rw [hids.idArray hzero]
  exact accepted_runs h.ids h.entries

/-! ## Letters and timestamps -/

theorem upperUnit_letter {u : UInt16} (h : 0x41 ≤ u.toNat ∧ u.toNat ≤ 0x5A) :
    upperUnit u = [u] := by
  have hne : ∀ v : UInt16, 0x5A < v.toNat → u ≠ v := by
    rintro v hv rfl
    omega
  rw [upperUnit, if_neg (by omega), if_neg (hne _ (by decide)), if_neg (hne _ (by decide)),
    if_neg (hne _ (by decide)), if_neg (hne _ (by decide)), if_neg (hne _ (by decide)),
    if_neg (hne _ (by decide)), if_neg (hne _ (by decide)), if_neg (hne _ (by decide)), if_neg]
  rintro (h | h)
  · exact hne _ (by decide) h
  · exact hne _ (by decide) h

theorem toUpperCase_letters {s : JsString} (h : Letters s) : toUpperCase s = s := by
  rw [toUpperCase]
  conv_rhs => rw [← List.flatMap_singleton' s]
  exact List.flatMap_congr fun u hu => upperUnit_letter (h u hu)

theorem orText_code {s : JsString} (h : Code s) (fallback : String) :
    orText (some s) fallback = s := by
  obtain ⟨a, b, rfl⟩ := h
  rfl

theorem accepted_letters {s : JsString} (hcode : Code s) (h : Letters s) (fallback : String) :
    Accepted (writeLetters (orText (some s) fallback)) := by
  have hletter : ∀ {u : UInt16}, 0x41 ≤ u.toNat ∧ u.toNat ≤ 0x5A → Accepted (writeLetter u) := by
    intro u hu
    rw [writeLetter, if_neg (by omega)]
    exact accepted_nat (by omega)
  rw [orText_code hcode, writeLetters, toUpperCase_letters h]
  obtain ⟨a, b, rfl⟩ := hcode
  exact accepted_cons (hletter (h a List.mem_cons_self)) (accepted_cons
    (hletter (h b (List.mem_cons_of_mem _ List.mem_cons_self))) accepted_nil)

/-- A timestamp that was read is written as it was. -/
theorem decisec_number {now raw : Nat} (h : raw < 2 ^ 36) :
    decisec now (number (raw * 100)) = .ok raw := by
  have habs : (((raw * 100 : Nat) : Int)).natAbs < 2 ^ 53 := by
    rw [Int.natAbs_natCast]
    omega
  have hmag : (Double.ofInt (raw * 100 : Nat)).mag = raw * (100 * Double.unitsPerOne) := by
    rw [Double.mag_ofInt habs, Int.natAbs_natCast, Nat.mul_assoc]
  have hneg : (Double.ofInt (raw * 100 : Nat)).neg = false := by
    rw [Double.neg_ofInt, decide_eq_false (Int.not_lt.mpr (Int.natCast_nonneg _))]
  have hU := Double.unitsPerOne_pos
  have hquotient : (Double.ofRatio false (raw * (100 * Double.unitsPerOne))
      (100 * Double.unitsPerOne)).mag = raw * Double.unitsPerOne :=
    have hk : raw < 2 ^ 53 := lt_53 (by decide) h
    Nat.le_antisymm ((mag_quotient false hk).2 (Nat.le_refl _))
      ((mag_quotient false hk).1 (Nat.le_refl _))
  rw [decisec, number, Option.getD_some]
  rw [Double.isFinite_ofInt habs, hneg, if_neg (by simp), roundDecisec, hneg, hmag,
    hquotient]
  congr 1
  rw [Nat.div_eq_of_lt_le]
  · calc raw * (2 * Double.unitsPerOne) = 2 * (raw * Double.unitsPerOne) := by ring
      _ ≤ 2 * (raw * Double.unitsPerOne) + Double.unitsPerOne := Nat.le_add_right _ _
  · calc 2 * (raw * Double.unitsPerOne) + Double.unitsPerOne
        < 2 * (raw * Double.unitsPerOne) + 2 * Double.unitsPerOne := by omega
      _ = (raw + 1) * (2 * Double.unitsPerOne) := by ring

/-! ## The segments -/

theorem lists_of_bounds {x : Coll} {ids : List Nat} {k : Nat}
    (hx : x.src = ids.map fun id : Nat => Double.ofInt id) (hk : k < 2 ^ 53)
    (h : ∀ id ∈ ids, 1 ≤ id ∧ id ≤ k) : Lists x ids ∧ 0 ∉ ids :=
  ⟨⟨hx, fun id hid => Nat.lt_of_le_of_lt (h id hid).2 hk⟩, fun hmem =>
    absurd (h 0 hmem).1 (by decide)⟩

theorem lists_vendors {x : Coll} {ids : List Nat}
    (hx : x.src = ids.map fun id : Nat => Double.ofInt id) (h : ∀ id ∈ ids, id < 2 ^ 16) :
    Lists x ids :=
  ⟨hx, fun id hid => lt_53 (by decide) (h id hid)⟩

theorem accepted_core {now now' : Nat} {c : Core} (h : CoreOk c)
    (hlanguage : Letters c.consentLanguage) (hcountry : Letters c.publisherCC)
    (hvendors : 0 ∉ c.vendorConsents.ids) (hvendorLIs : 0 ∉ c.vendorLIs.ids)
    (hrestrictions : ∀ r ∈ c.publisherRestrictions, 0 ∉ r.vendorIds) :
    Accepted (encodeCore now now' c.toObj) := by
  have htime : ∀ {now raw : Nat}, raw < 2 ^ 36 →
      Accepted (do writeNat (← decisec now (number (raw * 100))) 36) := by
    intro now raw hraw
    rw [decisec_number hraw]
    exact accepted_nat hraw
  have hzero : ∀ {n k : Nat}, k ≤ 53 → n < 2 ^ k → Accepted (writeInt (orZero (number n)) k) := by
    intro n k hk hn
    rw [orZero_number (lt_53 hk hn)]
    exact accepted_int hk hn
  have hfield : ∀ {ids : List Nat} {k : Nat}, k < 2 ^ 53 → (∀ id ∈ ids, 1 ≤ id ∧ id ≤ k) →
      Accepted (writeBitField (collection ids) k) := by
    intro ids k hk hids
    obtain ⟨hlists, hnone⟩ := lists_of_bounds (x := collection ids) rfl hk hids
    exact accepted_bitField hlists hnone
  obtain ⟨created, hcreated, hcreatedAt⟩ := h.created
  obtain ⟨updated, hupdated, hupdatedAt⟩ := h.updated
  rw [encodeCore, Core.toObj, hcreatedAt, hupdatedAt]
  dsimp only
  rw [some_getD_number, some_getD_number, orElse_number]
  refine accepted_cons (accepted_int (by decide) h.version) <| accepted_cons (htime hcreated) <|
    accepted_cons (htime hupdated) <| accepted_cons (hzero (by decide) h.cmpId) <|
    accepted_cons (hzero (by decide) h.cmpVersion) <|
    accepted_cons (hzero (by decide) h.consentScreen) <|
    accepted_cons (accepted_letters h.consentLanguage hlanguage _) <|
    accepted_cons (hzero (by decide) h.vendorListVersion) <|
    accepted_cons (accepted_int (by decide) h.policyVersion) <|
    accepted_cons (accepted_bool _) <| accepted_cons (accepted_bool _) <|
    accepted_cons (hfield (by decide) h.specialFeatureOptins) <|
    accepted_cons (hfield (by decide) h.purposesConsent) <|
    accepted_cons (hfield (by decide) h.purposesLI) <| accepted_cons (accepted_bool _) <|
    accepted_cons (accepted_letters h.publisherCC hcountry _) <|
    accepted_cons (accepted_vendorSection (lists_vendors rfl h.vendorConsents) hvendors
      h.vendorConsents) <|
    accepted_cons (accepted_vendorSection (lists_vendors rfl h.vendorLIs) hvendorLIs
      h.vendorLIs) <|
    accepted_cons (accepted_nat (by rw [List.length_map]; exact h.count)) <|
    accepted_cons ?_ accepted_nil
  refine accepted_map fun x hx => ?_
  obtain ⟨r, hr, rfl⟩ := List.mem_map.mp hx
  exact accepted_restriction (h.publisherRestrictions r hr) (hrestrictions r hr)

theorem accepted_vendors {segType : Nat} (htype : segType < 8) {ids : List Nat}
    (h : ∀ id ∈ ids, id < 2 ^ 16) (hzero : 0 ∉ ids) :
    Accepted (encodeVendors segType (vendorsToObj ids)) :=
  accepted_cons (accepted_nat htype) (accepted_cons
    (accepted_vendorSection (lists_vendors rfl h) hzero h) accepted_nil)

theorem accepted_publisher {p : PublisherTC} (h : PublisherOk p) :
    Accepted (encodePublisherTC p.toObj) := by
  have hcount : p.numCustomPurposes < 2 ^ 53 := lt_53 (by decide) h.count
  obtain ⟨hconsent, hconsentZero⟩ :=
    lists_of_bounds (x := p.toObj.pubPurposesConsent) rfl (by decide) h.consent
  obtain ⟨hli, hliZero⟩ :=
    lists_of_bounds (x := p.toObj.pubPurposesLITransparency) rfl (by decide) h.legitimate
  obtain ⟨hcustom, hcustomZero⟩ :=
    lists_of_bounds (x := p.toObj.customPurposesConsent) rfl hcount h.customConsent
  obtain ⟨hcustomLI, hcustomLIZero⟩ :=
    lists_of_bounds (x := p.toObj.customPurposesLITransparency) rfl hcount h.customLI
  have hnum : ∀ custom customLI,
      numCustom (number p.numCustomPurposes) custom customLI = .ok p.numCustomPurposes := by
    intro custom customLI
    rw [number, numCustom, natValue?_ofInt hcount]
  obtain ⟨head, hhead⟩ : Accepted (writeAll [writeNat segmentPublisherTC 3,
      writeBitField p.toObj.pubPurposesConsent 24,
      writeBitField p.toObj.pubPurposesLITransparency 24]) :=
    accepted_cons (accepted_nat (by decide)) (accepted_cons
      (accepted_bitField hconsent hconsentZero)
      (accepted_cons (accepted_bitField hli hliZero) accepted_nil))
  obtain ⟨tail, htail⟩ : Accepted (writeAll [writeNat p.numCustomPurposes 6,
      .ok (bitField (sorted p.customPurposesConsent) p.numCustomPurposes),
      .ok (bitField (sorted p.customPurposesLITransparency) p.numCustomPurposes)]) :=
    accepted_cons (accepted_nat h.count) (accepted_cons ⟨_, rfl⟩
      (accepted_cons ⟨_, rfl⟩ accepted_nil))
  refine ⟨head ++ tail, ?_⟩
  exact Checked.bind_eq_ok.mpr ⟨_, hhead, Checked.bind_eq_ok.mpr ⟨_, hcustom.idArray hcustomZero,
    Checked.bind_eq_ok.mpr ⟨_, hcustomLI.idArray hcustomLIZero, Checked.bind_eq_ok.mpr ⟨_, hnum _ _,
      Checked.bind_eq_ok.mpr ⟨_, htail, rfl⟩⟩⟩⟩⟩

theorem accepted_optional {α : Type} {write : α → Except Err Bits} {x : Option α}
    (h : ∀ a, x = some a → Accepted (write a)) : ∃ segs, optional write x = .ok segs := by
  cases x with
  | none => exact ⟨[], rfl⟩
  | some a =>
      obtain ⟨bits, hbits⟩ := h a rfl
      refine ⟨[bits], ?_⟩
      rw [optional, hbits]
      rfl

/-! ## The signal of a parsed object -/

variable {t : Tcf} {budget : Nat}

theorem publisher_toObj (t : Tcf) : t.toObj.publisher = t.publisherTC.map PublisherTC.toObj := by
  rw [Obj.publisher, Tcf.toObj]
  cases t.publisherTC with
  | none => rfl
  | some p => rfl

theorem given_vendorsToObj {ids : List Nat} (h : ∀ id ∈ ids, id < 2 ^ 16) :
    (vendorsToObj ids).given = ids := (lists_vendors rfl h).given

theorem signal_restriction {r : Restriction} (h : RestrictionOk r) : r.toObj.signal = r.signal := by
  have hids : r.toObj.vendorIds.given = r.vendorIds := (lists_vendors rfl h.ids).given
  rw [ObjRestriction.signal, hids, Restriction.toObj]
  dsimp only
  rw [optNat_number (lt_53 (by decide) h.purpose), optNat_number (lt_53 (by decide) h.type),
    Restriction.signal]

theorem given_publisher {p : PublisherTC} (h : PublisherOk p) :
    p.toObj.pubPurposesConsent.given = p.pubPurposesConsent ∧
    p.toObj.pubPurposesLITransparency.given = p.pubPurposesLITransparency ∧
    p.toObj.customCount = p.numCustomPurposes ∧
    p.toObj.customPurposesConsent.given = p.customPurposesConsent ∧
    p.toObj.customPurposesLITransparency.given = p.customPurposesLITransparency := by
  have hcount : p.numCustomPurposes < 2 ^ 53 := lt_53 (by decide) h.count
  refine ⟨(lists_of_bounds rfl (by decide) h.consent).1.given,
    (lists_of_bounds rfl (by decide) h.legitimate).1.given, ?_,
    (lists_of_bounds rfl hcount h.customConsent).1.given,
    (lists_of_bounds rfl hcount h.customLI).1.given⟩
  rw [ObjPublisherTC.customCount, PublisherTC.toObj]
  dsimp only
  rw [number]
  exact natOf_ofInt hcount

theorem signal_publisher {p : PublisherTC} (h : PublisherOk p) : p.toObj.signal = p.signal := by
  obtain ⟨hconsent, hli, hcount, hcustom, hcustomLI⟩ := given_publisher h
  rw [ObjPublisherTC.signal, hconsent, hli, hcount, hcustom, hcustomLI, PublisherTC.signal]

theorem given_core {c : Core} (h : CoreOk c) :
    c.toObj.specialFeatureOptins.given = c.specialFeatureOptins ∧
    c.toObj.purposesConsent.given = c.purposesConsent ∧
    c.toObj.purposesLI.given = c.purposesLI ∧
    c.toObj.vendorConsents.given = c.vendorConsents.ids ∧
    c.toObj.vendorLIs.given = c.vendorLIs.ids :=
  ⟨(lists_of_bounds rfl (by decide) h.specialFeatureOptins).1.given,
    (lists_of_bounds rfl (by decide) h.purposesConsent).1.given,
    (lists_of_bounds rfl (by decide) h.purposesLI).1.given,
    (lists_vendors rfl h.vendorConsents).given, (lists_vendors rfl h.vendorLIs).given⟩

/-- A parsed object says the same when it is given to be encoded, up to the capitals of
the two codes. -/
theorem signal_toObj (hcore : CoreOk t.core) (hsegments : SegmentsOk t budget) :
    t.toObj.signal = { t.signal with
      consentLanguage := toUpperCase t.core.consentLanguage
      publisherCC := toUpperCase t.core.publisherCC } := by
  obtain ⟨hfeatures, hconsent, hli, hvendors, hvendorLIs⟩ := given_core hcore
  have hrestrictions : t.core.toObj.publisherRestrictions.map ObjRestriction.signal =
      t.core.publisherRestrictions.map Restriction.signal := by
    rw [Core.toObj, List.map_map]
    exact List.map_congr_left fun r hr => signal_restriction (hcore.publisherRestrictions r hr)
  have hvendorSets : ∀ {x : Option (List Nat)}, (∀ ids, x = some ids → ∀ id ∈ ids, id < 2 ^ 16) →
      (((x.map vendorsToObj).filter Coll.isThere).map fun y => idSet y.given) = x.map idSet := by
    intro x hx
    cases x with
    | none => rfl
    | some ids => exact congrArg (fun ids => some (idSet ids)) (given_vendorsToObj (hx ids rfl))
  have hpublisher : t.toObj.publisher.map ObjPublisherTC.signal =
      t.publisherTC.map PublisherTC.signal := by
    rw [publisher_toObj]
    cases hp : t.publisherTC with
    | none => rfl
    | some p => exact congrArg some (signal_publisher (hsegments.publisher p hp))
  rw [Obj.signal, hpublisher]
  simp only [Tcf.toObj, Tcf.signal, hfeatures, hconsent, hli, hvendors, hvendorLIs, hrestrictions,
    hvendorSets hsegments.disclosed, hvendorSets hsegments.allowed, Signal.mk.injEq, and_true]
  simp only [Core.toObj, numberOf_number (lt_53 (by decide) hcore.cmpId),
    numberOf_number (lt_53 (by decide) hcore.cmpVersion),
    numberOf_number (lt_53 (by decide) hcore.consentScreen),
    numberOf_number (lt_53 (by decide) hcore.vendorListVersion), Option.getD_some, true_and]
  refine ⟨?_, ?_, ?_, ?_, ?_, trivial⟩
  · rw [number, Option.map_some, Option.getD_some, natOf_ofInt (lt_53 (by decide) hcore.version)]
  · rw [number, Option.map_some, Option.getD_some,
      natOf_ofInt (lt_53 (by decide) hcore.policyVersion)]
  · cases t.core.isServiceSpecific <;> rfl
  · cases t.core.useNonStandardStacks <;> rfl
  · cases t.core.purposeOneTreatment <;> rfl

/-- A parsed object fits. -/
theorem fits_toObj (hcore : CoreOk t.core) (hsegments : SegmentsOk t budget)
    (hshort : textWidth (coreBits t.core) + budget ≤ maxTcStringBytes) : Fits t.toObj := by
  obtain ⟨hfeatures, hconsent, hli, hvendors, hvendorLIs⟩ := given_core hcore
  have hcoreWidth : coreWidth t.core.toObj = coreBits t.core := by
    rw [coreWidth, coreBits, hvendors, hvendorLIs, Core.toObj, List.map_map]
    congr 2
    refine List.map_congr_left fun r hr => ?_
    have hids : r.toObj.vendorIds.given = r.vendorIds :=
      (lists_vendors rfl (hcore.publisherRestrictions r hr).ids).given
    rw [Function.comp_apply, hids]
  have hvendorWidths : ∀ {x : Option (List Nat)},
      (∀ ids, x = some ids → ∀ id ∈ ids, id < 2 ^ 16) →
      ((x.map vendorsToObj).map fun y => 3 + vendorWidth y.given) =
        x.map fun ids => 3 + vendorWidth ids := by
    intro x hx
    cases x with
    | none => rfl
    | some ids =>
        exact congrArg (fun ids => some (3 + vendorWidth ids)) (given_vendorsToObj (hx ids rfl))
  have hpublisherWidth : t.toObj.publisher.map publisherWidth =
      t.publisherTC.map fun p => 57 + 2 * p.numCustomPurposes := by
    rw [publisher_toObj]
    cases hp : t.publisherTC with
    | none => rfl
    | some p =>
        obtain ⟨-, -, hcount, -, -⟩ := given_publisher (hsegments.publisher p hp)
        rw [Option.map_some, Option.map_some, Option.map_some, publisherWidth, hcount]
  have hnumber : ∀ {n : Nat} x, number n = some x → x.isNaN = false := by
    rintro n x ⟨⟩
    exact Double.isNaN_ofInt _
  have hcode : ∀ {s : JsString}, Code s → some s ≠ some [] := by
    rintro s ⟨a, b, rfl⟩ h
    cases h
  have hthere : ∀ {x : Option (List Nat)} y, x.map vendorsToObj = some y → y.isThere = true := by
    intro x y hy
    obtain ⟨ids, -, rfl⟩ := Option.map_eq_some_iff.mp hy
    rfl
  refine ⟨⟨hnumber, hnumber, hnumber, hcode hcore.consentLanguage, hnumber,
    hcode hcore.publisherCC, hthere, hthere⟩, ?_, ?_, ?_, fun p' hp' => ?_, ?_⟩
  · exact fun id hid => (hcore.specialFeatureOptins id (hfeatures ▸ hid)).2
  · exact fun id hid => (hcore.purposesConsent id (hconsent ▸ hid)).2
  · exact fun id hid => (hcore.purposesLI id (hli ▸ hid)).2
  · rw [publisher_toObj] at hp'
    obtain ⟨p, hp, rfl⟩ := Option.map_eq_some_iff.mp hp'
    have hok := hsegments.publisher p hp
    obtain ⟨hpConsent, hpLI, hcount, hcustom, hcustomLI⟩ := given_publisher hok
    rw [hpConsent, hpLI, hcount, hcustom, hcustomLI, List.forall_mem_append,
      List.forall_mem_append]
    exact ⟨⟨fun id hid => (hok.consent id hid).2, fun id hid => (hok.legitimate id hid).2⟩,
      fun id hid => (hok.customConsent id hid).2, fun id hid => (hok.customLI id hid).2⟩
  · have hwidth := hsegments.width
    rw [Obj.width, hpublisherWidth, Tcf.toObj]
    dsimp only
    rw [hcoreWidth, hvendorWidths hsegments.disclosed, hvendorWidths hsegments.allowed]
    omega

/-- A parsed object is encoded where both codes are letters and no vendor is 0. -/
theorem encode_toObj {now now' : Nat} (hcore : CoreOk t.core) (hsegments : SegmentsOk t budget)
    (hplain : Plain t) : ∃ s, encode now now' t.toObj = .ok s := by
  obtain ⟨core, hcoreBits⟩ := @accepted_core now now' _ hcore hplain.language
    hplain.country hplain.consents hplain.legitimates hplain.restrictions
  have hvendors : ∀ {segType : Nat} {x : Option (List Nat)}, segType < 8 →
      (∀ ids, x = some ids → ∀ id ∈ ids, id < 2 ^ 16) → (∀ ids, x = some ids → 0 ∉ ids) →
      ∃ segs, optional (encodeVendors segType) (x.map vendorsToObj) = .ok segs := by
    intro segType x htype hx hzero
    refine accepted_optional fun y hy => ?_
    obtain ⟨ids, hids, rfl⟩ := Option.map_eq_some_iff.mp hy
    exact accepted_vendors htype (hx ids hids) (hzero ids hids)
  obtain ⟨ds, hds⟩ := @hvendors segmentDisclosedVendors _ (by decide)
    hsegments.disclosed hplain.disclosed
  obtain ⟨as, has⟩ := @hvendors segmentAllowedVendors _ (by decide)
    hsegments.allowed hplain.allowed
  obtain ⟨ps, hps⟩ : ∃ segs, optional encodePublisherTC t.toObj.publisher = .ok segs := by
    rw [publisher_toObj]
    refine accepted_optional fun y hy => ?_
    obtain ⟨p, hp, rfl⟩ := Option.map_eq_some_iff.mp hy
    exact accepted_publisher (hsegments.publisher p hp)
  exact ⟨_, Checked.bind_eq_ok.mpr ⟨core, hcoreBits, Checked.bind_eq_ok.mpr ⟨ds, hds,
    Checked.bind_eq_ok.mpr ⟨as, has, Checked.bind_eq_ok.mpr ⟨ps, hps, rfl⟩⟩⟩⟩⟩

/-- The same signal and the same times. -/
def SameSignal (t t' : Tcf) : Prop :=
  t'.signal = t.signal ∧ t'.core.createdAt = t.core.createdAt ∧
    t'.core.lastUpdatedAt = t.core.lastUpdatedAt

theorem Back.sameTimes {now now' : Nat} {t' : Tcf} (hcore : CoreOk t.core)
    (h : Back now now' t.toObj t') : t'.core.createdAt = t.core.createdAt ∧
      t'.core.lastUpdatedAt = t.core.lastUpdatedAt := by
  obtain ⟨created, hcreated, hcreatedAt⟩ := hcore.created
  obtain ⟨updated, hupdated, hupdatedAt⟩ := hcore.updated
  obtain ⟨htime, htime', hmod, hmod'⟩ := h.core.times
  have hgiven : t.toObj.core.createdAt = number (created * 100) := by
    rw [← hcreatedAt]
    rfl
  have hgiven' : t.toObj.core.lastUpdatedAt = number (updated * 100) := by
    rw [← hupdatedAt]
    rfl
  rw [hgiven, decisec_number hcreated] at htime
  rw [hgiven', orElse_number, decisec_number hupdated] at htime'
  have := Except.ok.inj htime
  have := Except.ok.inj htime'
  omega

/-- A string is written again with the same signal just when its codes are letters and it
has no vendor 0. -/
theorem again_iff_plain {now now' : Nat} {s : JsString} (h : parseString s = .ok t) :
    (∃ s' t', encode now now' t.toObj = .ok s' ∧ parseString s' = .ok t' ∧ t'.errors = [] ∧
      SameSignal t t') ↔ Plain t := by
  obtain ⟨hcore, budget, hsegments, hshort⟩ := parsed_ok h
  have hsignal := signal_toObj hcore hsegments
  obtain ⟨hfeatures, hconsent, hli, hvendors, hvendorLIs⟩ := given_core hcore
  constructor
  · rintro ⟨s', t', hs', ht', -, hsame, -⟩
    obtain ⟨hlen, hparse⟩ := parse_encode hs'
    obtain ⟨t'', ht'', hback⟩ := hparse (hlen ▸ (fits_toObj hcore hsegments hshort).short)
    obtain rfl : t'' = t' := Except.ok.inj (ht''.symm.trans ht')
    obtain ⟨hlanguage, hcountry⟩ := hback.core.letters
    obtain ⟨hvendorsZero, hvendorLIsZero, hrestrictionsZero⟩ := hback.core.noZero
    obtain ⟨hdisclosedZero, hallowedZero⟩ := hback.noZero
    refine ⟨?_, ?_, ?_, ?_, fun r hr => ?_, fun ids hids => ?_, fun ids hids => ?_⟩
    · rwa [show t''.core.consentLanguage = t.core.consentLanguage from
        congrArg Signal.consentLanguage hsame] at hlanguage
    · rwa [show t''.core.publisherCC = t.core.publisherCC from
        congrArg Signal.publisherCC hsame] at hcountry
    · exact hvendors ▸ hvendorsZero
    · exact hvendorLIs ▸ hvendorLIsZero
    · have hids : r.toObj.vendorIds.given = r.vendorIds :=
        (lists_vendors rfl (hcore.publisherRestrictions r hr).ids).given
      exact hids ▸ hrestrictionsZero r.toObj (List.mem_map.mpr ⟨r, hr, rfl⟩)
    · have hx : t.toObj.disclosedVendors = some (vendorsToObj ids) := by
        rw [Tcf.toObj, hids, Option.map_some]
      exact given_vendorsToObj (hsegments.disclosed ids hids) ▸ hdisclosedZero _ hx
    · have hx : t.toObj.allowedVendors = some (vendorsToObj ids) := by
        rw [Tcf.toObj, hids, Option.map_some]
      exact given_vendorsToObj (hsegments.allowed ids hids) ▸ hallowedZero _ hx
  · intro hplain
    obtain ⟨s', hs'⟩ := @encode_toObj _ _ now now' hcore hsegments hplain
    have hfits := fits_toObj hcore hsegments hshort
    obtain ⟨hlen, hparse⟩ := parse_encode hs'
    obtain ⟨t', ht', hback⟩ := hparse (hlen ▸ hfits.short)
    refine ⟨s', t', hs', ht', hback.errors, ?_, hback.sameTimes hcore⟩
    rw [hback.signal_eq_iff.mpr (fits_iff.mp hfits).1, hsignal, toUpperCase_letters hplain.language,
      toUpperCase_letters hplain.country]
    rfl

/-- An object with these purposes and vendors, and the defaults for all else. -/
def consenting (purposes vendors : List Nat) : Obj where
  core := ⟨none, none, none, none, none, none, none, none, none, none, none, .absent,
    collection purposes, .absent, none, none, collection vendors, .absent, []⟩
  disclosedVendors := none
  allowedVendors := none
  publisherTC := none

end Blamejs.IabTcf
