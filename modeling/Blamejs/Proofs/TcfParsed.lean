import Blamejs.Proofs.TcfFormat

/-!
# What was parsed

Every number that a reader returns fits the field it was read from, and no section
takes more bits when it is written again than it took in the string it was read from.
The bounds follow the shape of the readers; the only choice is in a vendor section,
where the shorter of the two forms is written whichever one was read.
-/

namespace Blamejs.IabTcf

open Blamejs.Js BitStream

/-! ## Numbers and fields -/

theorem ensures_read (k : Nat) : Ensures (read k) fun m v => m = k ∧ v < 2 ^ k := ensures_readBits

theorem ensures_flag : Ensures readFlag fun m _ => m = 1 := (ensures_read 1).map fun _ _ h => h.1

theorem setBits_bounds {first : Nat} {flags : Bits} {id : Nat} (h : id ∈ setBits first flags) :
    first ≤ id ∧ id < first + flags.length := by
  obtain ⟨i, hi, rfl⟩ := mem_setBits.mp h
  obtain ⟨hlt, -⟩ := List.getElem?_eq_some_iff.mp hi
  omega

theorem ensures_bitField (k : Nat) :
    Ensures (readBitField k) fun m ids => k ≤ m ∧ ∀ id ∈ ids, 1 ≤ id ∧ id ≤ k := by
  have hflag : Ensures readFlag fun m _ => True ∧ 1 ≤ m :=
    ensures_flag.mono fun _ _ h => ⟨trivial, Nat.le_of_eq h.symm⟩
  refine (@ensures_readMany _ _ _ _ (fun _ => 1) hflag k).map ?_
  rintro m flags ⟨hlen, -, hsum⟩
  refine ⟨?_, fun id hid => ?_⟩
  · rwa [List.map_const', List.sum_replicate_nat, Nat.mul_one, hlen] at hsum
  · have := setBits_bounds hid
    omega

/-! ## Sections -/

theorem ensures_entry :
    Ensures readEntry fun m e => (∀ id ∈ e.ids, id < 2 ^ 16) ∧ e.width ≤ m := by
  refine ensures_flag.bind fun _ isRange hm => (ensures_read 16).bind fun _ start hstart => ?_
  obtain ⟨rfl, hstart⟩ := hstart
  split
  · refine (ensures_read 16).bind fun _ stop hstop => .pure ⟨fun id hid => ?_, ?_⟩
    · exact Nat.lt_of_le_of_lt (Entry.mem_ids.mp hid).2 hstop.2
    · rw [Entry.width]
      omega
  · refine .pure ⟨fun id hid => ?_, ?_⟩
    · rwa [List.mem_singleton.mp hid]
    · rw [Entry.width]
      omega

/-- The ids of a section have 16 bits, and they need no more bits than the section has. -/
theorem ensures_vendorSection :
    Ensures parseVendorSection fun m v => (∀ id ∈ v.ids, id < 2 ^ 16) ∧ vendorWidth v.ids ≤ m := by
  refine (ensures_read 16).bind fun _ maxVendorId hmax =>
    ensures_flag.bind fun _ isRange hflag => ?_
  split
  · refine (ensures_read 12).bind fun _ numEntries hnum =>
      (ensures_readMany ensures_entry numEntries).bind fun _ entries hentries => .pure ?_
    obtain ⟨-, hids, hsum⟩ := hentries
    have hmem : ∀ id, id ∈ (entries.flatMap Entry.ids).eraseDups ↔ ∃ e ∈ entries, id ∈ e.ids :=
      fun id => by rw [List.mem_eraseDups, List.mem_flatMap]
    refine ⟨fun id hid => ?_, ?_⟩
    · obtain ⟨e, he, hid⟩ := (hmem id).mp hid
      exact hids e he id hid
    · have := runsWidth_le hmem
      dsimp only
      rw [vendorWidth]
      omega
  · refine (ensures_bitField maxVendorId).bind fun _ ids hids => .pure ⟨fun id hid => ?_, ?_⟩
    · exact Nat.lt_of_le_of_lt (hids.2 id hid).2 hmax.2
    · have := foldr_max_le fun id hid => (hids.2 id hid).2
      dsimp only
      rw [vendorWidth]
      omega

structure RestrictionOk (r : Restriction) : Prop where
  purpose : r.purposeId < 2 ^ 6
  type : r.restrictionType < 2 ^ 2
  ids : ∀ id ∈ r.vendorIds, id < 2 ^ 16
  entries : (idRuns (sorted r.vendorIds)).length < 2 ^ 12

theorem ensures_restriction : Ensures parseRestriction fun m r =>
    RestrictionOk r ∧ 20 + runsWidth r.vendorIds ≤ m := by
  refine (ensures_read 6).bind fun _ purposeId hpurpose => (ensures_read 2).bind fun _ type htype =>
    (ensures_read 12).bind fun _ numEntries hnum =>
    (ensures_readMany ensures_entry numEntries).bind fun _ entries hentries => .pure ?_
  obtain ⟨hlen, hids, hsum⟩ := hentries
  have hmem : ∀ id, id ∈ entries.flatMap Entry.ids ↔ ∃ e ∈ entries, id ∈ e.ids :=
    fun id => List.mem_flatMap
  refine ⟨⟨hpurpose.2, htype.2, fun id hid => ?_, ?_⟩, ?_⟩
  · obtain ⟨e, he, hid⟩ := (hmem id).mp hid
    exact hids e he id hid
  · exact Nat.lt_of_le_of_lt (length_idRuns_le hmem) (hlen ▸ hnum.2)
  · have := runsWidth_le hmem
    dsimp only
    omega

theorem ensures_restrictions : Ensures parsePublisherRestrictions fun m rs =>
    rs.length < 2 ^ 12 ∧ (∀ r ∈ rs, RestrictionOk r) ∧
      12 + (rs.map fun r => 20 + runsWidth r.vendorIds).sum ≤ m := by
  refine (ensures_read 12).bind fun _ num hnum =>
    (ensures_readMany ensures_restriction num).mono fun m rs hrs => ⟨?_, hrs.2.1, ?_⟩
  · exact hrs.1 ▸ hnum.2
  · have := hrs.2.2
    omega

/-! ## The core -/

/-- A code as it is read: two units, each of six bits above the letter A. -/
def Code (s : JsString) : Prop := ∃ a b, s = [a, b]

theorem ensures_letters : Ensures readLetters fun m s => m = 12 ∧ Code s :=
  (ensures_read 6).bind fun _ _ h => (ensures_read 6).bind fun _ _ h' =>
    .pure ⟨by omega, _, _, rfl⟩

/-- The values of a core that was read. -/
structure CoreOk (c : Core) : Prop where
  version : c.version < 2 ^ 6
  created : ∃ raw < 2 ^ 36, c.createdAt = raw * 100
  updated : ∃ raw < 2 ^ 36, c.lastUpdatedAt = raw * 100
  cmpId : c.cmpId < 2 ^ 12
  cmpVersion : c.cmpVersion < 2 ^ 12
  consentScreen : c.consentScreen < 2 ^ 6
  consentLanguage : Code c.consentLanguage
  vendorListVersion : c.vendorListVersion < 2 ^ 12
  policyVersion : c.policyVersion < 2 ^ 6
  specialFeatureOptins : ∀ id ∈ c.specialFeatureOptins, 1 ≤ id ∧ id ≤ 12
  purposesConsent : ∀ id ∈ c.purposesConsent, 1 ≤ id ∧ id ≤ 24
  purposesLI : ∀ id ∈ c.purposesLI, 1 ≤ id ∧ id ≤ 24
  publisherCC : Code c.publisherCC
  vendorConsents : ∀ id ∈ c.vendorConsents.ids, id < 2 ^ 16
  vendorLIs : ∀ id ∈ c.vendorLIs.ids, id < 2 ^ 16
  count : c.publisherRestrictions.length < 2 ^ 12
  publisherRestrictions : ∀ r ∈ c.publisherRestrictions, RestrictionOk r

/-- The bits that a core takes when it is written. -/
def coreBits (c : Core) : Nat :=
  213 + vendorWidth c.vendorConsents.ids + vendorWidth c.vendorLIs.ids + 12 +
    (c.publisherRestrictions.map fun r => 20 + runsWidth r.vendorIds).sum

theorem ensures_core : Ensures parseCore fun m c => CoreOk c ∧ coreBits c ≤ m := by
  refine (ensures_read 6).bind fun _ _ hversion => (ensures_read 36).bind fun _ _ hcreated =>
    (ensures_read 36).bind fun _ _ hupdated => (ensures_read 12).bind fun _ _ hcmpId =>
    (ensures_read 12).bind fun _ _ hcmpVersion => (ensures_read 6).bind fun _ _ hscreen =>
    ensures_letters.bind fun _ _ hlanguage => (ensures_read 12).bind fun _ _ hlist =>
    (ensures_read 6).bind fun _ _ hpolicy => ensures_flag.bind fun _ _ hspecific =>
    ensures_flag.bind fun _ _ hstacks => (ensures_bitField 12).bind fun _ _ hfeatures =>
    (ensures_bitField 24).bind fun _ _ hconsent => (ensures_bitField 24).bind fun _ _ hli =>
    ensures_flag.bind fun _ _ hone => ensures_letters.bind fun _ _ hcountry =>
    ensures_vendorSection.bind fun _ _ hvendors =>
    ensures_vendorSection.bind fun _ _ hvendorLIs =>
    ensures_restrictions.bind fun _ _ hrestrictions => .pure ⟨?_, ?_⟩
  · exact {
      version := hversion.2
      created := ⟨_, hcreated.2, rfl⟩
      updated := ⟨_, hupdated.2, rfl⟩
      cmpId := hcmpId.2
      cmpVersion := hcmpVersion.2
      consentScreen := hscreen.2
      consentLanguage := hlanguage.2
      vendorListVersion := hlist.2
      policyVersion := hpolicy.2
      specialFeatureOptins := hfeatures.2
      purposesConsent := hconsent.2
      purposesLI := hli.2
      publisherCC := hcountry.2
      vendorConsents := hvendors.1
      vendorLIs := hvendorLIs.1
      count := hrestrictions.1
      publisherRestrictions := hrestrictions.2.1 }
  · obtain ⟨-, -, hrestrictions⟩ := hrestrictions
    replace hvendors := hvendors.2
    replace hvendorLIs := hvendorLIs.2
    replace hfeatures := hfeatures.1
    replace hconsent := hconsent.1
    replace hli := hli.1
    dsimp only [coreBits]
    omega

/-! ## The publisher segment -/

structure PublisherOk (p : PublisherTC) : Prop where
  consent : ∀ id ∈ p.pubPurposesConsent, 1 ≤ id ∧ id ≤ 24
  legitimate : ∀ id ∈ p.pubPurposesLITransparency, 1 ≤ id ∧ id ≤ 24
  count : p.numCustomPurposes < 2 ^ 6
  customConsent : ∀ id ∈ p.customPurposesConsent, 1 ≤ id ∧ id ≤ p.numCustomPurposes
  customLI : ∀ id ∈ p.customPurposesLITransparency, 1 ≤ id ∧ id ≤ p.numCustomPurposes

theorem ensures_publisher : Ensures parsePublisherTC fun m p =>
    PublisherOk p ∧ 57 + 2 * p.numCustomPurposes ≤ m := by
  refine (ensures_read 3).bind fun _ _ htype => (ensures_bitField 24).bind fun _ _ hconsent =>
    (ensures_bitField 24).bind fun _ _ hli => (ensures_read 6).bind fun _ _ hnum =>
    (ensures_bitField _).bind fun _ _ hcustom => (ensures_bitField _).bind fun _ _ hcustomLI =>
    .pure ⟨⟨hconsent.2, hli.2, hnum.2, hcustom.2, hcustomLI.2⟩, ?_⟩
  replace hconsent := hconsent.1
  replace hli := hli.1
  replace hcustom := hcustom.1
  replace hcustomLI := hcustomLI.1
  dsimp only
  omega

theorem ensures_vendors (expectedType : Nat) :
    Ensures (parseSecondaryVendorSegment expectedType) fun m v =>
      (∀ id ∈ v.ids, id < 2 ^ 16) ∧ 3 + vendorWidth v.ids ≤ m := by
  refine (ensures_read 3).bind fun _ segType htype => ?_
  split
  · rintro r a r' ⟨⟩
  · refine ensures_vendorSection.mono fun m v hv => ⟨hv.1, ?_⟩
    have := hv.2
    omega

end Blamejs.IabTcf
