import Blamejs.Ref.Dnssec
import Mathlib.Data.List.Chain

/-!
# Down one branch

What `verifyChain` checks of a link is a signature and a digest: some key of the
zone signed its DNSKEY RRset, some key of the link before signed the DS RRset, and
a DS names the signing key. The names stand in the signed bytes, but nothing
compares them: that the zone lies below the one before it, that the signers are
who they should be, and that the signing key is a zone key. `Named` is what is
left out, and trust flows down one branch exactly when the links have it.
-/

namespace Blamejs.Dnssec

open Blamejs.Js Checked LabelName

variable {Key : Type} {c : Crypto Key} {atMs : Int} {anchors : List Ds} {links : List Link}
  {made : Key → Bytes → Prop}

/-! ## Numbers as bytes -/

theorem length_beBytes_eq (k m n : Nat) : (beBytes k m).length = (beBytes k n).length := by
  rw [length_beBytes, length_beBytes]

theorem beBytes_inj {k m n : Nat} (hm : m < 256 ^ k) (hn : n < 256 ^ k)
    (h : beBytes k m = beBytes k n) : m = n := by
  rw [← beValue_beBytes hm, h, beValue_beBytes hn]

/-! ## Names -/

/-- The labels of a name, in lower case. -/
def labelsOf (name : JsString) : Option (List Bytes) :=
  (presentationNameLabels name).map fun labels => labels.map asciiLowerLabel

def SameName (a b : JsString) : Prop :=
  ∃ labels, labelsOf a = some labels ∧ labelsOf b = some labels

def BelowName (name parent : JsString) : Prop :=
  ∃ labels labels', labelsOf name = some labels ∧ labelsOf parent = some labels' ∧
    Below labels labels'

theorem BelowName.trans {a b d : JsString} (h : BelowName a b) (h' : BelowName b d) :
    BelowName a d := by
  obtain ⟨la, lb, ha, hb, hab⟩ := h
  obtain ⟨lb', ld, hb', hd, hbd⟩ := h'
  rw [hb] at hb'
  obtain rfl := Option.some.inj hb'
  exact ⟨la, ld, ha, hd, hab.trans hbd⟩

/-- A label that is being read. -/
def Reads (cur : Bytes) : Prop := cur.length ≤ maxLabelOctets

theorem Reads.fits {cur : Bytes} (h : Reads cur) (hne : cur ≠ []) : Fits cur :=
  ⟨hne, Nat.lt_of_le_of_lt h (by decide)⟩

/-- A byte that is pushed leaves the label short enough. -/
theorem reads_push {value : Nat} {cur : Bytes} {b : UInt8} {rest : Option (List Bytes)}
    {result : List Bytes}
    (h : (if value > 0xFF then none else if cur.length + 1 > maxLabelOctets then none else rest) =
      some result) : Reads (cur ++ [b]) ∧ rest = some result := by
  split at h
  · cases h
  · split at h
    · cases h
    · exact ⟨by unfold Reads; simp; omega, h⟩

theorem length_wire_snoc (labels : List Bytes) (l : Bytes) :
    (wire (labels ++ [l])).length = (wire labels).length + l.length + 1 := by
  simp [wire]
  omega

theorem presentationLoop_sized {name : JsString} {labels : List Bytes} {cur : Bytes}
    {wireLen : Nat} {result : List Bytes}
    (h : presentationLoop name labels cur wireLen = some result)
    (hlabels : ∀ l ∈ labels, l ≠ [] ∧ Reads l) (hcur : Reads cur)
    (hwire : wireLen = (wire labels).length) :
    (∀ l ∈ result, l ≠ [] ∧ Reads l) ∧ (wire result).length ≤ maxNameOctets := by
  have hadd : ∀ {labels : List Bytes} {cur : Bytes}, (∀ l ∈ labels, l ≠ [] ∧ Reads l) →
      Reads cur → cur ≠ [] → ∀ l ∈ labels ++ [cur], l ≠ [] ∧ Reads l := by
    intro labels cur hlabels hcur hne l hl
    rcases List.mem_append.mp hl with hl | hl
    · exact hlabels l hl
    · exact List.mem_singleton.mp hl ▸ ⟨hne, hcur⟩
  induction name, labels, cur, wireLen using presentationLoop.induct with
  | case1 labels wireLen hlong => simp [presentationLoop.eq_def, hlong] at h
  | case2 labels wireLen hshort =>
      simp only [presentationLoop.eq_def, hshort, if_true, if_false, Option.some.injEq] at h
      exact h ▸ ⟨hlabels, hwire ▸ Nat.le_of_not_lt hshort⟩
  | case3 labels cur wireLen hne hlong => simp [presentationLoop.eq_def, hne, hlong] at h
  | case4 labels cur wireLen hne hshort =>
      simp only [presentationLoop.eq_def, hne, hshort, if_false, Option.some.injEq] at h
      subst h
      refine ⟨hadd hlabels hcur hne, ?_⟩
      rw [length_wire_snoc, ← hwire]
      exact Nat.le_of_not_lt hshort
  | case5 rest labels wireLen => simp [presentationLoop.eq_def] at h
  | case6 rest labels cur wireLen hne ih =>
      rw [presentationLoop.eq_def] at h
      simp only [hne, if_true, if_false] at h
      exact ih h (hadd hlabels hcur hne) (Nat.zero_le _) (by rw [length_wire_snoc, hwire])
  | case7 labels cur wireLen hdot =>
      rw [presentationLoop.eq_def] at h
      simp only [hdot, if_true, if_false] at h
      cases h
  | case8 labels cur wireLen d1 hd1 d2 d3 rest hd v hdot ih =>
      rw [presentationLoop.eq_def] at h
      simp only [hdot, hd1, hd, if_true, if_false] at h
      obtain ⟨hreads, hrest⟩ := reads_push h
      exact ih hrest hlabels hreads hwire
  | case9 labels cur wireLen d1 hd1 d2 d3 rest hd hdot =>
      rw [presentationLoop.eq_def] at h
      simp only [hdot, hd1, hd, if_true, if_false] at h
      cases h
  | case10 labels cur wireLen d1 rest hd1 hrest hdot =>
      rw [presentationLoop.eq_def] at h
      simp only [hdot, hd1, if_true, if_false] at h
      cases h
  | case11 labels cur wireLen d1 rest hd1 hdot ih =>
      rw [presentationLoop.eq_def] at h
      simp only [hdot, hd1, if_true, if_false] at h
      obtain ⟨hreads, hrest⟩ := reads_push h
      exact ih hrest hlabels hreads hwire
  | case12 ch rest labels cur wireLen hdot hslash ih =>
      rw [presentationLoop.eq_def] at h
      simp only [hdot, hslash, if_false] at h
      obtain ⟨hreads, hrest⟩ := reads_push h
      exact ih hrest hlabels hreads hwire

theorem labelsOf_fits {name : JsString} {labels : List Bytes} (h : labelsOf name = some labels) :
    ∀ l ∈ labels, Fits l := by
  obtain ⟨read, hread, rfl⟩ := Option.map_eq_some_iff.mp h
  have hfits : ∀ l ∈ read, Fits l := by
    unfold presentationNameLabels at hread
    split at hread
    · obtain rfl := Option.some.inj hread
      simp
    · intro l hl
      obtain ⟨hne, hreads⟩ := (presentationLoop_sized hread (by simp) (Nat.zero_le _) rfl).1 l hl
      exact hreads.fits hne
  intro l hl
  obtain ⟨l', hl', rfl⟩ := List.mem_map.mp hl
  obtain ⟨hne, hlt⟩ := hfits l' hl'
  exact ⟨by simpa [asciiLowerLabel] using hne, by simpa [asciiLowerLabel] using hlt⟩

theorem canonicalName_ok {name : JsString} {owner : Bytes} (h : canonicalName name = .ok owner) :
    ∃ labels, labelsOf name = some labels ∧ owner = wire labels := by
  obtain ⟨labels, hlabels, rfl⟩ := map_eq_ok.mp h
  unfold nameLabels at hlabels
  split at hlabels
  · next read hread =>
      injection hlabels with hlabels
      exact ⟨_, by rw [labelsOf, hread, hlabels]; rfl, rfl⟩
  · cases hlabels

/-! ## What is checked of a link -/

/-- The digest of the DS is that of the zone and its key. -/
def Vouches (c : Crypto Key) (ds : Ds) (zone : JsString) (key : Bytes) : Prop :=
  ∃ hash owner, dsDigests ds.digestType = some hash ∧ canonicalName zone = .ok owner ∧
    c.digest hash (owner ++ key) = ds.digest

/-- A DS with an injective digest vouches for one key of one zone. -/
theorem Vouches.unique (hdigest : ∀ hash, Function.Injective (c.digest hash)) {ds : Ds}
    {zone zone' : JsString} {key key' : Bytes} (h : Vouches c ds zone key)
    (h' : Vouches c ds zone' key') : SameName zone zone' ∧ key = key' := by
  obtain ⟨hash, owner, hhash, howner, hds⟩ := h
  obtain ⟨hash', owner', hhash', howner', hds'⟩ := h'
  obtain rfl := Option.some.inj (hhash.symm.trans hhash')
  obtain ⟨labels, hlabels, rfl⟩ := canonicalName_ok howner
  obtain ⟨labels', hlabels', rfl⟩ := canonicalName_ok howner'
  obtain ⟨rfl, rfl⟩ := wire_append_inj (labelsOf_fits hlabels) (labelsOf_fits hlabels')
    (hdigest hash (hds.trans hds'.symm))
  exact ⟨⟨labels, hlabels, hlabels'⟩, rfl⟩

/-- The holder of the key made a signature over the RRset. -/
def Signed (c : Crypto Key) (made : Key → Bytes → Prop) (rd : Bytes) (rrset : Rrset)
    (rrsig : Rrsig) : Prop :=
  ∃ kp key data, dnskeyParts rd = .ok kp ∧ dnskeyToKey c kp.algorithm kp.publicKey = .ok key ∧
    signedData rrset.name rrset.typeNum 1 rrset.rdatas rrsig = .ok data ∧ made key data

/-- The signature verifies under the key. -/
def verifies (c : Crypto Key) (atMs : Int) (rrset : Rrset) (rrsig : Rrsig) (rd : Bytes) : Bool :=
  match dnskeyParts rd with
  | .ok kp => kp.algorithm = rrsig.algorithm &&
      (verifyRrset c atMs rrset.name rrset.typeNum 1 rrset.rdatas rrsig kp.algorithm
        kp.publicKey).isOk
  | .error _ => false

/-- The key of the zone that the link counts as signing its keys: the first with the
tag and the algorithm of the RRSIG under which that verifies. -/
def signingKey (c : Crypto Key) (atMs : Int) (link : Link) : Option Bytes :=
  link.dnskeyRrsig.bind fun rrsig => (keysByTag link.dnskeys rrsig.keyTag).find?
    (verifies c atMs ⟨link.zone, typeDnskey, link.dnskeys⟩ rrsig)

theorem verifyRrset_signed
    (hmade : ∀ hash data key p1363 signature, c.verify hash data key p1363 signature = .ok true →
      made key data)
    {rrset : Rrset} {rrsig : Rrsig} {rd : Bytes} {kp : DnskeyParts} {v : Verified}
    (hkp : dnskeyParts rd = .ok kp)
    (h : verifyRrset c atMs rrset.name rrset.typeNum 1 rrset.rdatas rrsig kp.algorithm
      kp.publicKey = .ok v) : Signed c made rd rrset rrsig := by
  unfold verifyRrset at h
  obtain ⟨-, -, h⟩ := bind_eq_ok.mp h
  obtain ⟨alg, -, h⟩ := bind_eq_ok.mp h
  obtain ⟨-, -, h⟩ := bind_eq_ok.mp h
  obtain ⟨-, -, h⟩ := bind_eq_ok.mp h
  obtain ⟨-, -, h⟩ := bind_eq_ok.mp h
  obtain ⟨-, -, h⟩ := bind_eq_ok.mp h
  obtain ⟨data, hdata, h⟩ := bind_eq_ok.mp h
  obtain ⟨key, hkey, h⟩ := bind_eq_ok.mp h
  obtain ⟨_, hcheck, -⟩ := bind_eq_ok.mp h
  refine ⟨kp, key, data, hkp, hkey, hdata, ?_⟩
  unfold checkSignature at hcheck
  split at hcheck
  · cases hcheck
  · next ok hverify =>
      rw [ensure_eq_ok.mp hcheck] at hverify
      exact hmade _ _ _ _ _ hverify

theorem verifies_signed
    (hmade : ∀ hash data key p1363 signature, c.verify hash data key p1363 signature = .ok true →
      made key data)
    {rrset : Rrset} {rrsig : Rrsig} {rd : Bytes} (h : verifies c atMs rrset rrsig rd = true) :
    Signed c made rd rrset rrsig := by
  unfold verifies at h
  split at h
  · next kp hkp =>
      rw [Bool.and_eq_true] at h
      cases hverify : verifyRrset c atMs rrset.name rrset.typeNum 1 rrset.rdatas rrsig kp.algorithm
          kp.publicKey with
      | ok v => exact verifyRrset_signed hmade hkp hverify
      | error e => simp [hverify, Except.isOk, Except.toBool] at h
  · cases h

/-- The loop answers the first candidate under which the signature verifies. -/
theorem tryKeys_find {rrset : Rrset} {rrsig : Rrsig} {candidates : List Bytes}
    {lastErr : DnssecError} {budget budget' : Nat} {rd : Bytes}
    (h : tryKeys c atMs rrset rrsig candidates lastErr budget = .ok (rd, budget')) :
    candidates.find? (verifies c atMs rrset rrsig) = some rd := by
  induction candidates generalizing lastErr budget with
  | nil => cases h
  | cons x xs ih =>
      rw [tryKeys] at h
      split at h
      · cases h
      · next kp hkp =>
          have hpass : ∀ {lastErr budget}, verifies c atMs rrset rrsig x = false →
              tryKeys c atMs rrset rrsig xs lastErr budget = .ok (rd, budget') →
              (x :: xs).find? (verifies c atMs rrset rrsig) = some rd :=
            fun hfalse hrest => by rw [List.find?_cons_of_neg (by simp [hfalse])]; exact ih hrest
          split at h
          · next hne => exact hpass (by simp [verifies, hkp, hne]) h
          · next heq =>
              split at h
              · cases h
              · split at h
                · next v hverify =>
                    injection h with h
                    injection h with hrd _
                    subst hrd
                    refine List.find?_cons_of_pos ?_
                    simp [verifies, hkp, not_not.mp heq, not_not.mp heq ▸ hverify, Except.isOk,
                      Except.toBool]
                · next e hverify =>
                    split at h
                    · refine hpass ?_ h
                      simp [verifies, hkp, hverify, Except.isOk, Except.toBool]
                    · cases h

theorem verifyRrsetWithAnyKey_find {rrset : Rrset} {rrsig : Rrsig} {candidates : List Bytes}
    {noKey : DnssecError} {budget budget' : Nat} {rd : Bytes}
    (h : verifyRrsetWithAnyKey c atMs rrset rrsig candidates noKey budget = .ok (rd, budget')) :
    candidates.find? (verifies c atMs rrset rrsig) = some rd := by
  unfold verifyRrsetWithAnyKey at h
  split at h
  · cases h
  · split at h
    · cases h
    · exact tryKeys_find h

theorem find_keysByTag {dnskeys : List Bytes} {tag : Nat} {p : Bytes → Bool} {rd : Bytes}
    (h : (keysByTag dnskeys tag).find? p = some rd) : rd ∈ dnskeys ∧ p rd = true :=
  ⟨(List.mem_filter.mp (List.mem_of_find?_eq_some h)).1, List.find?_some h⟩

theorem matchesDs_vouches {zone : JsString} {signer : Bytes} {ds : Ds}
    (h : matchesDs c zone signer ds = true) : Vouches c ds zone signer := by
  unfold matchesDs at h
  split at h
  · cases h
  · split at h
    · next hverify =>
        unfold verifyDs at hverify
        split at hverify
        · cases hverify
        · next hash hhash =>
            obtain ⟨-, -, hverify⟩ := bind_eq_ok.mp hverify
            obtain ⟨-, -, hverify⟩ := bind_eq_ok.mp hverify
            obtain ⟨owner, howner, hverify⟩ := bind_eq_ok.mp hverify
            obtain ⟨_, hdigest, -⟩ := bind_eq_ok.mp hverify
            exact ⟨hash, owner, hhash, howner, ensure_eq_ok.mp hdigest⟩
    · cases h

theorem matchDs_vouches {zone : JsString} {signer : Bytes} {rds : List Bytes}
    (h : matchDs c zone signer rds = .ok true) :
    ∃ rd ∈ rds, ∃ ds, parseDsRdata rd = .ok ds ∧ Vouches c ds zone signer := by
  induction rds with
  | nil => cases h
  | cons rd rds ih =>
      obtain ⟨ds, hds, h⟩ := bind_eq_ok.mp h
      split at h
      · next hmatch => exact ⟨rd, List.mem_cons_self, ds, hds, matchesDs_vouches hmatch⟩
      · obtain ⟨rd', hrd', hfound⟩ := ih h
        exact ⟨rd', List.mem_cons_of_mem _ hrd', hfound⟩

/-- The signing key of the link is one of its keys and signed them. -/
def KeysSigned (c : Crypto Key) (made : Key → Bytes → Prop) (atMs : Int) (link : Link) : Prop :=
  ∃ rrsig key, link.dnskeyRrsig = some rrsig ∧ signingKey c atMs link = some key ∧
    key ∈ link.dnskeys ∧ Signed c made key ⟨link.zone, typeDnskey, link.dnskeys⟩ rrsig

/-- A key of the link before signed the DS records, one of which vouches for the
signing key. -/
def DsSigned (c : Crypto Key) (made : Key → Bytes → Prop) (atMs : Int) (prev link : Link) : Prop :=
  ∃ rds rrsig, link.dsRdatas = some rds ∧ link.dsRrsig = some rrsig ∧
    (∃ key ∈ prev.dnskeys, Signed c made key ⟨link.zone, typeDs, rds⟩ rrsig) ∧
    ∃ key, signingKey c atMs link = some key ∧
      ∃ rd ∈ rds, ∃ ds, parseDsRdata rd = .ok ds ∧ Vouches c ds link.zone key

section accepted

variable (hmade : ∀ hash data key p1363 signature,
  c.verify hash data key p1363 signature = .ok true → made key data)

include hmade

theorem checkKeys_signed {i budget budget' : Nat} {link : Link} {signer : Bytes}
    (h : checkKeys c atMs i link budget = .ok (signer, budget')) :
    signingKey c atMs link = some signer ∧ KeysSigned c made atMs link := by
  unfold checkKeys at h
  obtain ⟨-, -, h⟩ := bind_eq_ok.mp h
  obtain ⟨-, -, h⟩ := bind_eq_ok.mp h
  obtain ⟨-, -, h⟩ := bind_eq_ok.mp h
  split at h
  · cases h
  · next rrsig hrrsig =>
      have hfind := verifyRrsetWithAnyKey_find h
      have hsigner : signingKey c atMs link = some signer := by
        rw [signingKey, hrrsig]
        exact hfind
      obtain ⟨hmem, hverifies⟩ := find_keysByTag hfind
      exact ⟨hsigner, rrsig, signer, hrrsig, hsigner, hmem, verifies_signed hmade hverifies⟩

theorem checkDelegation_signed {i budget budget' : Nat} {prev link : Link} {signer : Bytes}
    (hsigner : signingKey c atMs link = some signer)
    (h : checkDelegation c atMs i prev.dnskeys link signer budget = .ok budget') :
    DsSigned c made atMs prev link := by
  unfold checkDelegation at h
  split at h
  · next rd rds rrsig hrds hrrsig =>
      obtain ⟨-, -, h⟩ := bind_eq_ok.mp h
      obtain ⟨⟨key, left⟩, hkey, h⟩ := bind_eq_ok.mp h
      obtain ⟨matched, hmatched, h⟩ := bind_eq_ok.mp h
      obtain ⟨_, htrue, -⟩ := bind_eq_ok.mp h
      obtain ⟨hmem, hverifies⟩ := find_keysByTag (verifyRrsetWithAnyKey_find hkey)
      rw [ensure_eq_ok.mp htrue] at hmatched
      exact ⟨rd :: rds, rrsig, hrds, hrrsig, ⟨key, hmem, verifies_signed hmade hverifies⟩, signer,
        hsigner, matchDs_vouches hmatched⟩
  · cases h

theorem walk_signed {i budget : Nat} {prev : Link} {rest : List Link} {keys : List Bytes}
    (h : walk c atMs i prev.dnskeys budget rest = .ok keys) :
    (∀ link ∈ rest, KeysSigned c made atMs link) ∧
      (prev :: rest).IsChain (DsSigned c made atMs) := by
  induction rest generalizing i budget prev with
  | nil => exact ⟨by simp, List.isChain_singleton prev⟩
  | cons link rest ih =>
      obtain ⟨⟨signer, left⟩, hkeys, h⟩ := bind_eq_ok.mp h
      obtain ⟨left', hdelegation, h⟩ := bind_eq_ok.mp h
      obtain ⟨hsigner, hsigned⟩ := checkKeys_signed hmade hkeys
      obtain ⟨hrest, hchain⟩ := ih h
      refine ⟨fun l hl => ?_, List.isChain_cons_cons.mpr
        ⟨checkDelegation_signed hmade hsigner hdelegation, hchain⟩⟩
      rcases List.mem_cons.mp hl with rfl | hl
      · exact hsigned
      · exact hrest l hl

end accepted

/-! ## Chains -/

/-- The flags name a zone key. -/
def isZoneKey (rd : Bytes) : Bool :=
  match dnskeyParts rd with
  | .ok kp => kp.flags / 256 % 2 = 1
  | .error _ => false

/-- What the walk does not compare: the signer of a zone's keys is the zone and the
signing key a zone key; a zone lies below the one before it, which is the signer of
its DS records. -/
structure Named (c : Crypto Key) (atMs : Int) (links : List Link) : Prop where
  keys : ∀ link ∈ links, ∀ rrsig key, link.dnskeyRrsig = some rrsig →
    signingKey c atMs link = some key → SameName rrsig.signerName link.zone ∧ isZoneKey key = true
  delegations : links.IsChain fun prev link => BelowName link.zone prev.zone ∧
    ∀ rrsig, link.dsRrsig = some rrsig → SameName rrsig.signerName prev.zone

/-- Trust flows from a pinned anchor down one branch of the name tree. -/
structure TrustFlows (c : Crypto Key) (made : Key → Bytes → Prop) (anchors : List Ds) (atMs : Int)
    (links : List Link) : Prop where
  anchor : ∀ first ∈ links.head?, ∃ key, signingKey c atMs first = some key ∧
    ∃ ds ∈ anchors, Vouches c ds first.zone key
  keys : ∀ link ∈ links, ∃ rrsig key, link.dnskeyRrsig = some rrsig ∧
    signingKey c atMs link = some key ∧ key ∈ link.dnskeys ∧ isZoneKey key = true ∧
    SameName rrsig.signerName link.zone ∧
    Signed c made key ⟨link.zone, typeDnskey, link.dnskeys⟩ rrsig
  delegations : links.IsChain fun prev link => BelowName link.zone prev.zone ∧
    DsSigned c made atMs prev link ∧
    ∀ rrsig, link.dsRrsig = some rrsig → SameName rrsig.signerName prev.zone

theorem isChain_and {α : Type} {R S : α → α → Prop} {l : List α} (hR : l.IsChain R)
    (hS : l.IsChain S) : l.IsChain fun a b => R a b ∧ S a b := by
  induction hR with
  | nil => exact .nil
  | singleton a => exact .singleton a
  | cons_cons hab _ ih =>
      obtain ⟨hab', hS⟩ := List.isChain_cons_cons.mp hS
      exact .cons_cons ⟨hab, hab'⟩ (ih hS)

theorem verifyChain_signed
    (hmade : ∀ hash data key p1363 signature, c.verify hash data key p1363 signature = .ok true →
      made key data)
    {trusted : Trusted} (h : verifyChain c anchors atMs links = .ok trusted) :
    (∀ first ∈ links.head?, ∃ key, signingKey c atMs first = some key ∧
      ∃ ds ∈ anchors, Vouches c ds first.zone key) ∧
    (∀ link ∈ links, KeysSigned c made atMs link) ∧ links.IsChain (DsSigned c made atMs) := by
  cases links with
  | nil => cases h
  | cons first rest =>
      obtain ⟨-, -, h⟩ := bind_eq_ok.mp h
      obtain ⟨-, -, h⟩ := bind_eq_ok.mp h
      obtain ⟨⟨signer, left⟩, hkeys, h⟩ := bind_eq_ok.mp h
      obtain ⟨_, hanchor, h⟩ := bind_eq_ok.mp h
      obtain ⟨keys, hwalk, -⟩ := bind_eq_ok.mp h
      obtain ⟨hsigner, hsigned⟩ := checkKeys_signed hmade hkeys
      obtain ⟨hrest, hchain⟩ := walk_signed hmade hwalk
      refine ⟨fun l hl => ?_, fun l hl => ?_, hchain⟩
      · obtain rfl := Option.some.inj hl
        obtain ⟨ds, hds, hmatch⟩ := List.any_eq_true.mp (ensure_eq_ok.mp hanchor)
        exact ⟨signer, hsigner, ds, hds, matchesDs_vouches hmatch⟩
      · rcases List.mem_cons.mp hl with rfl | hl
        · exact hsigned
        · exact hrest l hl

/-- An accepted list of links has trust flow down one branch exactly when the names
and the flags are as they should be, and then every zone is in the subtree of each
before it. A DS with an injective digest vouches for one key of one zone. -/
theorem trust_flows
    (hmade : ∀ hash data key p1363 signature, c.verify hash data key p1363 signature = .ok true →
      made key data)
    (hdigest : ∀ hash, Function.Injective (c.digest hash)) {trusted : Trusted}
    (h : verifyChain c anchors atMs links = .ok trusted) :
    (TrustFlows c made anchors atMs links ↔ Named c atMs links) ∧
    (TrustFlows c made anchors atMs links →
      links.Pairwise fun a b => BelowName b.zone a.zone) ∧
    ∀ ds zone zone' key key', Vouches c ds zone key → Vouches c ds zone' key' →
      SameName zone zone' ∧ key = key' := by
  obtain ⟨hanchor, hkeys, hchain⟩ := verifyChain_signed hmade h
  refine ⟨⟨fun hflows => ⟨fun link hl rrsig key hrrsig hkey => ?_, ?_⟩, fun hnamed =>
    ⟨hanchor, fun link hl => ?_, ?_⟩⟩, fun hflows => ?_, fun _ _ _ _ _ => Vouches.unique hdigest⟩
  · obtain ⟨rrsig', key', hrrsig', hkey', -, hzone, hname, -⟩ := hflows.keys link hl
    obtain rfl := Option.some.inj (hrrsig.symm.trans hrrsig')
    obtain rfl := Option.some.inj (hkey.symm.trans hkey')
    exact ⟨hname, hzone⟩
  · exact hflows.delegations.imp fun _ _ hd => ⟨hd.1, hd.2.2⟩
  · obtain ⟨rrsig, key, hrrsig, hkey, hmem, hsigned⟩ := hkeys link hl
    obtain ⟨hname, hzone⟩ := hnamed.keys link hl rrsig key hrrsig hkey
    exact ⟨rrsig, key, hrrsig, hkey, hmem, hzone, hname, hsigned⟩
  · exact (isChain_and hnamed.delegations hchain).imp fun _ _ hd => ⟨hd.1.1, hd.2, hd.1.2⟩
  · have : Trans (fun a b : Link => BelowName b.zone a.zone)
        (fun a b : Link => BelowName b.zone a.zone) (fun a b : Link => BelowName b.zone a.zone) :=
      ⟨fun hab hbd => BelowName.trans hbd hab⟩
    exact (hflows.delegations.imp fun _ _ hd => hd.1).pairwise

/-! ## Two chains of two links -/

/-- A digest that keeps everything, and signatures that are the key and the data. -/
def plain : Crypto Bytes where
  importPublicJwk
    | .okp x => .ok x
    | .rsa n e => .ok (n ++ e)
    | .ec _ x y => .ok (x ++ y)
  verify _ data key _ signature := .ok (decide (signature = key ++ data))
  digest _ data := data

/-- The signatures that anybody made. -/
def plainMade (key data : Bytes) : Prop :=
  ∃ signature, plain.verify none data key false signature = .ok true

theorem plain_made (hash : Option Hash) (data : Bytes) (key : Bytes) (p1363 : Bool)
    (signature : Bytes) (h : plain.verify hash data key p1363 signature = .ok true) :
    plainMade key data := ⟨signature, h⟩

theorem plain_injective (hash : Hash) : Function.Injective (plain.digest hash) := fun _ _ h => h

def keyBytes (b : UInt8) : Bytes := List.replicate 32 b

def zoneKey (b : UInt8) : Bytes := [1, 0, 3, 15] ++ keyBytes b

def signedBy (b : UInt8) (signer zone : JsString) (typeNum : Nat) (rds : List Bytes) : Rrsig :=
  let rrsig : Rrsig := ⟨15, 1, 0, 0, 0, keyTag (zoneKey b), signer, []⟩
  match signedData zone typeNum 1 rds rrsig with
  | .ok data => { rrsig with signature := keyBytes b ++ data }
  | .error _ => rrsig

def dsOf (zone : JsString) (b : UInt8) : Ds :=
  ⟨keyTag (zoneKey b), 15, 2, (canonicalName zone).toOption.getD [] ++ zoneKey b⟩

def dsRdata (zone : JsString) (b : UInt8) : Bytes :=
  beBytes 2 (keyTag (zoneKey b)) ++ [15, 2] ++ (dsOf zone b).digest

/-- A zone with one key, and its DS record signed by the key of the parent. -/
def linkOf (zone : JsString) (b : UInt8) (parent : JsString) (parentKey : UInt8) : Link where
  zone := zone
  dnskeys := [zoneKey b]
  dnskeyRrsig := some (signedBy b zone zone typeDnskey [zoneKey b])
  dsRdatas := some [dsRdata zone b]
  dsRrsig := some (signedBy parentKey parent zone typeDs [dsRdata zone b])

/-- The anchored zone `a.`, whose key signs the DS record of the other. -/
def twoLinks (zone : JsString) : List Link :=
  [linkOf (units "a.") 1 (units ".") 0, linkOf zone 2 (units "a.") 1]

theorem signer_linkOf {zone parent : JsString} {b b' : UInt8} {link : Link} {rrsig : Rrsig}
    {key : Bytes} (hlink : link = linkOf zone b parent b') (hrrsig : link.dnskeyRrsig = some rrsig)
    (hname : SameName (signedBy b zone zone typeDnskey [zoneKey b]).signerName zone)
    (hkey : signingKey plain 0 link = some key)
    (hsigner : signingKey plain 0 (linkOf zone b parent b') = some (zoneKey b)) :
    SameName rrsig.signerName link.zone ∧ isZoneKey key = true := by
  subst hlink
  obtain rfl := Option.some.inj hrrsig
  obtain rfl := Option.some.inj (hsigner.symm.trans hkey)
  exact ⟨hname, by simp [isZoneKey, zoneKey, dnskeyParts, beValue]⟩

theorem trust_flows_delegation :
    verifyChain plain [dsOf (units "a.") 1] 0 (twoLinks (units "b.a.")) =
      .ok ⟨units "b.a.", [zoneKey 2], [units "a.", units "b.a."]⟩ ∧
    TrustFlows plain plainMade [dsOf (units "a.") 1] 0 (twoLinks (units "b.a.")) := by
  have haccepted : verifyChain plain [dsOf (units "a.") 1] 0 (twoLinks (units "b.a.")) =
      .ok ⟨units "b.a.", [zoneKey 2], [units "a.", units "b.a."]⟩ := by decide +kernel
  refine ⟨haccepted, (trust_flows plain_made plain_injective haccepted).1.mpr ⟨?_, ?_⟩⟩
  · intro link hlink rrsig key hrrsig hkey
    rcases List.mem_cons.mp hlink with hlink | hlink
    · exact signer_linkOf hlink hrrsig ⟨[[97]], by decide +kernel, by decide⟩ hkey
        (by decide +kernel)
    · exact signer_linkOf (List.mem_singleton.mp hlink) hrrsig
        ⟨[[98], [97]], by decide +kernel, by decide⟩ hkey (by decide +kernel)
  · refine List.isChain_cons_cons.mpr ⟨⟨⟨[[98], [97]], [[97]], by decide, by decide, by decide⟩,
      fun rrsig hrrsig => ?_⟩, .singleton _⟩
    obtain rfl := Option.some.inj hrrsig
    exact ⟨[[97]], by decide +kernel, by decide⟩

/-- The keys of `a.` vouch for the keys of `b.`, and the chain is accepted. -/
theorem sibling_accepted :
    (∀ hash data key p1363 signature, plain.verify hash data key p1363 signature = .ok true →
      plainMade key data) ∧
    (∀ hash, Function.Injective (plain.digest hash)) ∧
    verifyChain plain [dsOf (units "a.") 1] 0 (twoLinks (units "b.")) =
      .ok ⟨units "b.", [zoneKey 2], [units "a.", units "b."]⟩ ∧
    ¬ TrustFlows plain plainMade [dsOf (units "a.") 1] 0 (twoLinks (units "b.")) := by
  refine ⟨plain_made, plain_injective, by decide +kernel, fun hflows => ?_⟩
  obtain ⟨⟨labels, labels', hb, ha, hbelow⟩, -⟩ :=
    (List.isChain_cons_cons.mp hflows.delegations).1
  have hb' : labelsOf (units "b.") = some [[98]] := by decide
  have ha' : labelsOf (units "a.") = some [[97]] := by decide
  obtain rfl := Option.some.inj (hb'.symm.trans hb)
  obtain rfl := Option.some.inj (ha'.symm.trans ha)
  exact absurd hbelow (by decide)

end Blamejs.Dnssec
