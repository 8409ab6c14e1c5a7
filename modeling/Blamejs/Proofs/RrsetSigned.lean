import Blamejs.Proofs.Dnssec
import Blamejs.Js.LowerCase
import Mathlib.Data.List.Sort

/-!
# What an RRSIG is checked over

The bytes that are checked against the signed data of RFC 4034, section 3.1.8.1. The fields
of a record end where their lengths say, so the bytes give back the owner, the type, the
class and the records; what they leave out is the wildcard form of an owner with more labels
than the RRSIG counts.
-/

namespace Blamejs.Dnssec

open Blamejs.Js Checked LabelName

/-! ## The form of the standard -/

/-- The owner as it was signed: itself, or the wildcard over as many labels as the RRSIG
counts. -/
def signedOwner (count : Nat) (labels : List Bytes) : List Bytes :=
  if labels.length ≤ count then labels
  else [0x2A] :: labels.drop (labels.length - count)

/-- A record of the set, with the owner and the TTL it was signed with. -/
def signedRecord (owner : Bytes) (typeNum klass ttl : Nat) (rd : Bytes) : Bytes :=
  owner ++ beBytes 2 typeNum ++ beBytes 2 klass ++ beBytes 4 ttl ++ beBytes 2 rd.length ++ rd

/-- The RDATA of an RRSIG without its signature. -/
def rrsigRdata (typeNum : Nat) (rrsig : Rrsig) (signer : Bytes) : Bytes :=
  beBytes 2 typeNum ++ beBytes 1 rrsig.algorithm ++ beBytes 1 rrsig.labels ++
    beBytes 4 rrsig.originalTtl ++ beBytes 4 rrsig.expiration ++ beBytes 4 rrsig.inception ++
    beBytes 2 rrsig.keyTag ++ signer

/-- The data an RRSIG signs: its own RDATA, then the records in canonical order. -/
def IsSignedData (labels signer : List Bytes) (typeNum klass : Nat) (rdatas : List Bytes)
    (rrsig : Rrsig) (data : Bytes) : Prop :=
  ∃ sorted : List Bytes, sorted.Perm rdatas ∧ sorted.Pairwise bytesLE ∧
    data = rrsigRdata typeNum rrsig (wire signer) ++ sorted.flatMap
      (signedRecord (wire (signedOwner rrsig.labels labels)) typeNum klass rrsig.originalTtl)

/-! ## Sorted records -/

theorem bytesLE_antisymm {a b : Bytes} (h : bytesLE a b) (h' : bytesLE b a) : a = b := by
  have heq : a.map UInt8.toNat = b.map UInt8.toNat := le_antisymm h h'
  exact List.map_injective_iff.mpr (fun _ _ => UInt8.toNat_inj.mp) heq

theorem sorted_unique {a b : List Bytes} (hp : a.Perm b) (ha : a.Pairwise bytesLE)
    (hb : b.Pairwise bytesLE) : a = b :=
  hp.eq_of_pairwise (fun _ _ _ _ h h' => bytesLE_antisymm h h') ha hb

theorem signedData_ok {name : JsString} {typeNum klass : Nat} {rdatas : List Bytes} {rrsig : Rrsig}
    {data : Bytes} (h : signedData name typeNum klass rdatas rrsig = .ok data) :
    ∃ labels signer, labelsOf name = some labels ∧ labelsOf rrsig.signerName = some signer ∧
      data = rrsigRdata typeNum rrsig (wire signer) ++ (rdatas.insertionSort bytesLE).flatMap
        (signedRecord (wire labels) typeNum klass rrsig.originalTtl) := by
  obtain ⟨owner, howner, h⟩ := bind_eq_ok.mp h
  obtain ⟨signerWire, hsigner, h⟩ := bind_eq_ok.mp h
  obtain ⟨labels, hlabels, rfl⟩ := canonicalName_ok howner
  obtain ⟨signer, hsignerLabels, rfl⟩ := canonicalName_ok hsigner
  exact ⟨labels, signer, hlabels, hsignerLabels, (Except.ok.inj h).symm⟩

/-! ## Reading the bytes back -/

theorem beBytes_two_inj {m n : Nat} (hm : m < 65536) (hn : n < 65536)
    (h : beBytes 2 m = beBytes 2 n) : m = n := beBytes_inj (k := 2) (by omega) (by omega) h

variable {labels labels' : List Bytes} {typeNum typeNum' klass klass' ttl : Nat}

/-- What a record holds, and what follows it. -/
theorem signedRecord_inj (hl : ∀ l ∈ labels, Fits l) (hl' : ∀ l ∈ labels', Fits l)
    (ht : typeNum < 65536) (ht' : typeNum' < 65536) (hk : klass < 65536) (hk' : klass' < 65536)
    {rd rd' rest rest' : Bytes} (hrd : rd.length < 65536) (hrd' : rd'.length < 65536)
    (h : signedRecord (wire labels) typeNum klass ttl rd ++ rest =
      signedRecord (wire labels') typeNum' klass' ttl rd' ++ rest') :
    (labels = labels' ∧ typeNum = typeNum' ∧ klass = klass' ∧ rd = rd') ∧ rest = rest' := by
  simp only [signedRecord, List.append_assoc] at h
  obtain ⟨howner, h⟩ := wire_append_inj hl hl' h
  obtain ⟨htype, h⟩ := List.append_inj h (length_beBytes_eq 2 _ _)
  obtain ⟨hclass, h⟩ := List.append_inj h (length_beBytes_eq 2 _ _)
  obtain ⟨-, h⟩ := List.append_inj h rfl
  obtain ⟨hlen, h⟩ := List.append_inj h (length_beBytes_eq 2 _ _)
  obtain ⟨hbytes, hrest⟩ := List.append_inj h (beBytes_two_inj hrd hrd' hlen)
  exact ⟨⟨howner, beBytes_two_inj ht ht' htype, beBytes_two_inj hk hk' hclass, hbytes⟩, hrest⟩

theorem signedRecord_ne_nil (owner : Bytes) (rd : Bytes) :
    signedRecord owner typeNum klass ttl rd ≠ [] := by
  intro h
  have := congrArg List.length h
  simp [signedRecord] at this

/-- The records a run of bytes holds. -/
theorem records_inj (hl : ∀ l ∈ labels, Fits l) (hl' : ∀ l ∈ labels', Fits l)
    (ht : typeNum < 65536) (ht' : typeNum' < 65536) (hk : klass < 65536) (hk' : klass' < 65536) :
    ∀ {rds rds' : List Bytes}, (∀ r ∈ rds, r.length < 65536) → (∀ r ∈ rds', r.length < 65536) →
      rds.flatMap (signedRecord (wire labels) typeNum klass ttl) =
        rds'.flatMap (signedRecord (wire labels') typeNum' klass' ttl) →
      rds = rds' ∧ (rds ≠ [] → labels = labels' ∧ klass = klass')
  | [], [], _, _, _ => ⟨rfl, fun h => absurd rfl h⟩
  | [], rd :: rds, _, _, h => by
      rw [List.flatMap_nil, List.flatMap_cons] at h
      exact absurd (List.append_eq_nil_iff.mp h.symm).1 (signedRecord_ne_nil _ _)
  | rd :: rds, [], _, _, h => by
      rw [List.flatMap_nil, List.flatMap_cons] at h
      exact absurd (List.append_eq_nil_iff.mp h).1 (signedRecord_ne_nil _ _)
  | rd :: rds, rd' :: rds', hr, hr', h => by
      obtain ⟨hrd, hrds⟩ := List.forall_mem_cons.mp hr
      obtain ⟨hrd', hrds'⟩ := List.forall_mem_cons.mp hr'
      rw [List.flatMap_cons, List.flatMap_cons] at h
      obtain ⟨⟨howner, -, hclass, rfl⟩, hrest⟩ := signedRecord_inj hl hl' ht ht' hk hk' hrd hrd' h
      obtain ⟨rfl, -⟩ := records_inj hl hl' ht ht' hk hk' hrds hrds' hrest
      exact ⟨rfl, fun _ => ⟨howner, hclass⟩⟩

/-! ## Letter case -/

theorem asciiLowerLabel_append (a b : Bytes) :
    asciiLowerLabel (a ++ b) = asciiLowerLabel a ++ asciiLowerLabel b := List.map_append

theorem length_asciiLowerLabel (a : Bytes) : (asciiLowerLabel a).length = a.length :=
  List.length_map _

theorem smallUnit_eq_iff {u v : UInt16} (hv : v.toNat < 0x41) : smallUnit u = v ↔ u = v := by
  unfold smallUnit
  split
  · next hu =>
      rw [← UInt16.toNat_inj, ← UInt16.toNat_inj, UInt16.toNat_ofNat']
      omega
  · rfl

theorem smallUnit_slash {u : UInt16} (h : smallUnit u = unit '\\') : u = unit '\\' := by
  unfold smallUnit at h
  split at h
  · next hu =>
      have hn := congrArg UInt16.toNat h
      rw [UInt16.toNat_ofNat', show (unit '\\').toNat = 0x5C from rfl] at hn
      omega
  · exact h

theorem isDigitUnit_smallUnit (u : UInt16) : isDigitUnit (smallUnit u) = isDigitUnit u := by
  unfold smallUnit
  split
  · next hu =>
      have hlarge : ∀ w : UInt16, 0x41 ≤ w.toNat → isDigitUnit w = false := by
        intro w hw
        simp only [isDigitUnit, Bool.and_eq_false_iff, decide_eq_false_iff_not]
        omega
      rw [hlarge u hu.1, hlarge _ (by rw [UInt16.toNat_ofNat']; omega)]
  · rfl

theorem smallUnit_digit {u : UInt16} (h : isDigitUnit u = true) : smallUnit u = u := by
  simp only [isDigitUnit, Bool.and_eq_true, decide_eq_true_eq] at h
  rw [smallUnit, if_neg (by omega)]

theorem smallUnit_large {u : UInt16} : (smallUnit u).toNat > 0xFF ↔ u.toNat > 0xFF := by
  unfold smallUnit
  split
  · rw [UInt16.toNat_ofNat']
    omega
  · rfl

/-- A character and its small letter stand for bytes with one small letter. -/
theorem lower_smallUnit (u : UInt16) (h : ¬u.toNat > 0xFF) :
    asciiLowerLabel [UInt8.ofNat (smallUnit u).toNat] = asciiLowerLabel [UInt8.ofNat u.toNat] := by
  have hall : ∀ n : Fin 256,
      asciiLowerLabel [UInt8.ofNat (smallUnit (UInt16.ofNat n)).toNat] =
        asciiLowerLabel [UInt8.ofNat (UInt16.ofNat n).toNat] := by decide +kernel
  have := hall ⟨u.toNat, by omega⟩
  rwa [UInt16.ofNat_toNat] at this

theorem presentationLoop_small {name : JsString} {labels : List Bytes} {cur : Bytes}
    {wireLen : Nat} {labels' : List Bytes} {cur' : Bytes}
    (hlabels : labels.map asciiLowerLabel = labels'.map asciiLowerLabel)
    (hcur : asciiLowerLabel cur = asciiLowerLabel cur') :
    (presentationLoop (name.map smallUnit) labels' cur' wireLen).map (List.map asciiLowerLabel) =
      (presentationLoop name labels cur wireLen).map (List.map asciiLowerLabel) := by
  have hlen : ∀ {a b : Bytes}, asciiLowerLabel a = asciiLowerLabel b → a.length = b.length := by
    intro a b h
    rw [← length_asciiLowerLabel a, h, length_asciiLowerLabel]
  have hnil : ∀ {a b : Bytes}, asciiLowerLabel a = asciiLowerLabel b → (a = [] ↔ b = []) := by
    intro a b h
    rw [← List.length_eq_zero_iff, hlen h, List.length_eq_zero_iff]
  have hdot : ∀ u, smallUnit u = unit '.' ↔ u = unit '.' := fun u => smallUnit_eq_iff (by decide)
  have hslash : smallUnit (unit '\\') = unit '\\' := by decide
  have hpush : ∀ {value value' : Nat} {a b : Bytes} {r r' : Option (List Bytes)},
      asciiLowerLabel a = asciiLowerLabel b → (value > 0xFF ↔ value' > 0xFF) →
      (¬value > 0xFF → r'.map (List.map asciiLowerLabel) = r.map (List.map asciiLowerLabel)) →
      (if value' > 0xFF then none else if b.length + 1 > maxLabelOctets then none else r').map
          (List.map asciiLowerLabel) =
        (if value > 0xFF then none else if a.length + 1 > maxLabelOctets then none else r).map
          (List.map asciiLowerLabel) := by
    intro value value' a b r r' hab hvalue hr
    rw [← hlen hab]
    by_cases hv : value > 0xFF
    · rw [if_pos hv, if_pos (hvalue.mp hv)]
    · rw [if_neg hv, if_neg (mt hvalue.mpr hv)]
      split
      · rfl
      · exact hr hv
  have hbyte : ∀ {a b : Bytes} {u v : UInt8}, asciiLowerLabel a = asciiLowerLabel b →
      asciiLowerLabel [u] = asciiLowerLabel [v] →
      asciiLowerLabel (a ++ [u]) = asciiLowerLabel (b ++ [v]) := by
    intro a b u v hab huv
    rw [asciiLowerLabel_append, asciiLowerLabel_append, hab, huv]
  induction name, labels, cur, wireLen using presentationLoop.induct generalizing labels' cur' with
  | case1 labels wireLen hlong =>
      obtain rfl := (hnil hcur).mp rfl
      simp [presentationLoop.eq_def, hlong]
  | case2 labels wireLen hshort =>
      obtain rfl := (hnil hcur).mp rfl
      simp [presentationLoop.eq_def, hshort, hlabels]
  | case3 labels cur wireLen hne hlong =>
      have hne' : cur' ≠ [] := fun h => hne ((hnil hcur).mpr h)
      rw [hlen hcur] at hlong
      simp [presentationLoop.eq_def, hne, hne', hlong, hlen hcur]
  | case4 labels cur wireLen hne hshort =>
      have hne' : cur' ≠ [] := fun h => hne ((hnil hcur).mpr h)
      rw [hlen hcur] at hshort
      simp [presentationLoop.eq_def, hne, hne', hshort, hlen hcur, hlabels, hcur]
  | case5 rest labels wireLen =>
      obtain rfl := (hnil hcur).mp rfl
      simp [presentationLoop.eq_def, (hdot (unit '.')).mpr rfl]
  | case6 rest labels cur wireLen hne ih =>
      have hne' : cur' ≠ [] := fun h => hne ((hnil hcur).mpr h)
      rw [presentationLoop.eq_def, presentationLoop.eq_def (unit '.' :: rest)]
      simp only [List.map_cons, (hdot (unit '.')).mpr rfl, if_true, hne, hne', if_false]
      rw [← hlen hcur]
      refine ih ?_ rfl
      rw [List.map_append, List.map_append, hlabels, List.map_singleton, List.map_singleton, hcur]
  | case7 labels cur wireLen hd =>
      rw [presentationLoop.eq_def, presentationLoop.eq_def [unit '\\']]
      simp only [List.map_cons, List.map_nil, hslash, hd, if_true, if_false]
  | case8 =>
      rename_i labels cur wireLen d1 hd1 d2 d3 rest hd v hd' ih
      obtain ⟨hd2, hd3⟩ := Bool.and_eq_true_iff.mp hd
      have hname : (unit '\\' :: d1 :: d2 :: d3 :: rest).map smallUnit =
          unit '\\' :: d1 :: d2 :: d3 :: rest.map smallUnit := by
        rw [List.map_cons, List.map_cons, List.map_cons, List.map_cons, smallUnit_digit hd1,
          smallUnit_digit hd2, smallUnit_digit hd3, hslash]
      rw [hname, presentationLoop.eq_def, presentationLoop.eq_def (_ :: d1 :: d2 :: d3 :: rest)]
      simp only [hd', hd1, hd, if_true, if_false]
      exact hpush hcur Iff.rfl fun _ => ih hlabels (hbyte hcur rfl)
  | case9 labels cur wireLen d1 hd1 d2 d3 rest hd hd' =>
      have hd2 : ¬(isDigitUnit (smallUnit d2) && isDigitUnit (smallUnit d3)) = true := by
        rwa [isDigitUnit_smallUnit, isDigitUnit_smallUnit]
      rw [List.map_cons, hslash, List.map_cons, List.map_cons, List.map_cons, smallUnit_digit hd1,
        presentationLoop.eq_def, presentationLoop.eq_def (_ :: d1 :: d2 :: d3 :: rest)]
      simp only [hd', hd1, hd, hd2, if_true, if_false, Bool.false_eq_true]
  | case10 labels cur wireLen d1 rest hd1 hrest hd' =>
      have hshort : ∀ d2 d3 r, rest.map smallUnit = d2 :: d3 :: r → False := by
        intro d2 d3 r h
        match rest, h, hrest with
        | e2 :: e3 :: r', _, hrest => exact hrest e2 e3 r' rfl
      rw [List.map_cons, hslash, List.map_cons, smallUnit_digit hd1, presentationLoop.eq_def,
        presentationLoop.eq_def (_ :: d1 :: rest)]
      simp only [hd', hd1, if_true, if_false]
  | case11 labels cur wireLen d1 rest hd1 hd' ih =>
      have hd1' : ¬isDigitUnit (smallUnit d1) = true := by rwa [isDigitUnit_smallUnit]
      rw [List.map_cons, hslash, List.map_cons, presentationLoop.eq_def,
        presentationLoop.eq_def (_ :: d1 :: rest)]
      simp only [hd', hd1, hd1', if_true, if_false]
      exact hpush hcur smallUnit_large.symm fun hsmall =>
        ih hlabels (hbyte hcur (lower_smallUnit d1 hsmall).symm)
  | case12 ch rest labels cur wireLen hd hslash' ih =>
      have hd' : smallUnit ch ≠ unit '.' := mt (hdot ch).mp hd
      have hback : smallUnit ch ≠ unit '\\' := fun h => hslash' (smallUnit_slash h)
      rw [presentationLoop.eq_def, presentationLoop.eq_def (ch :: rest)]
      simp only [List.map_cons, hd, hd', hslash', hback, if_false]
      exact hpush hcur smallUnit_large.symm fun hsmall =>
        ih hlabels (hbyte hcur (lower_smallUnit ch hsmall).symm)

/-- Names that differ in letter case alone have the same labels. -/
theorem labelsOf_small (name : JsString) : labelsOf (name.map smallUnit) = labelsOf name := by
  have hroot : name.map smallUnit = [] ∨ name.map smallUnit = units "." ↔
      name = [] ∨ name = units "." := by
    have hdot : ∀ u, smallUnit u = unit '.' ↔ u = unit '.' := fun u => smallUnit_eq_iff (by decide)
    match name with
    | [] => simp
    | [u] => simpa [units] using hdot u
    | u :: v :: rest => simp [units]
  rw [labelsOf, labelsOf, presentationNameLabels, presentationNameLabels]
  by_cases hname : name = [] ∨ name = units "."
  · rw [if_pos hname, if_pos (hroot.mpr hname)]
  · rw [if_neg hname, if_neg (mt hroot.mp hname)]
    exact presentationLoop_small rfl rfl

/-! ## The owner -/

theorem signedOwner_eq_iff {count : Nat} (hcount : count ≤ labels.length) :
    signedOwner count labels = labels ↔
      count = labels.length ∨ (count + 1 = labels.length ∧ labels.head? = some [0x2A]) := by
  unfold signedOwner
  split
  · next hle => exact ⟨fun _ => Or.inl (by omega), fun _ => rfl⟩
  · next hlt =>
      refine ⟨fun h => Or.inr ⟨?_, h ▸ rfl⟩, ?_⟩
      · have := congrArg List.length h
        simp only [List.length_cons, List.length_drop] at this
        omega
      · rintro (heq | ⟨hsucc, hhead⟩)
        · omega
        · cases labels with
          | nil => cases hhead
          | cons l ls =>
              obtain rfl := Option.some.inj hhead
              rw [← hsucc, Nat.add_sub_cancel_left]
              rfl

section rrset

variable {name : JsString} {rdatas : List Bytes} {rrsig : Rrsig} {data : Bytes}

theorem isSignedData_iff (h : signedData name typeNum klass rdatas rrsig = .ok data)
    (hlabels : labelsOf name = some labels) (ht : typeNum < 65536) (hk : klass < 65536)
    (hne : rdatas ≠ []) (hlen : ∀ rd ∈ rdatas, rd.length < 65536) :
    (∃ signer, labelsOf rrsig.signerName = some signer ∧
      IsSignedData labels signer typeNum klass rdatas rrsig data) ↔
        signedOwner rrsig.labels labels = labels := by
  obtain ⟨read, signer, hread, hsigner, hdata⟩ := signedData_ok h
  obtain rfl := Option.some.inj (hlabels.symm.trans hread)
  have hperm := List.perm_insertionSort bytesLE rdatas
  constructor
  · rintro ⟨signer', hsigner', sorted, hp, hsorted, heq⟩
    obtain rfl := Option.some.inj (hsigner.symm.trans hsigner')
    rw [hdata] at heq
    have hrecords := List.append_cancel_left heq
    have hfits := labelsOf_fits hlabels
    have hsmall : ∀ (l : List Bytes), l.Perm rdatas → ∀ rd ∈ l, rd.length < 65536 :=
      fun l hl rd hrd => hlen rd (hl.mem_iff.mp hrd)
    have howner : ∀ l ∈ signedOwner rrsig.labels labels, Fits l := by
      unfold signedOwner
      split
      · exact hfits
      · refine List.forall_mem_cons.mpr ⟨⟨by decide, by decide⟩, fun l hl => ?_⟩
        exact hfits l (List.mem_of_mem_drop hl)
    obtain ⟨-, hsame⟩ := records_inj hfits howner ht ht hk hk (hsmall _ hperm) (hsmall _ hp)
      hrecords
    refine ((hsame fun hnil => hne ?_).1).symm
    exact List.perm_nil.mp (hnil ▸ hperm.symm)
  · intro howner
    exact ⟨signer, hsigner, _, hperm, List.pairwise_insertionSort bytesLE rdatas,
      by rw [howner]; exact hdata⟩

/-- The bytes give back what was signed. -/
theorem signedData_inj {name' : JsString} {rdatas' : List Bytes}
    (h : signedData name typeNum klass rdatas rrsig = .ok data)
    (h' : signedData name' typeNum' klass' rdatas' rrsig = .ok data)
    (hlabels : labelsOf name = some labels) (hlabels' : labelsOf name' = some labels')
    (ht : typeNum < 65536) (ht' : typeNum' < 65536) (hk : klass < 65536) (hk' : klass' < 65536)
    (hne : rdatas ≠ []) (hlen : ∀ rd ∈ rdatas, rd.length < 65536)
    (hlen' : ∀ rd ∈ rdatas', rd.length < 65536) :
    labels' = labels ∧ typeNum' = typeNum ∧ klass' = klass ∧ rdatas'.Perm rdatas := by
  obtain ⟨read, signer, hread, hsigner, hdata⟩ := signedData_ok h
  obtain ⟨read', signer', hread', hsigner', hdata'⟩ := signedData_ok h'
  obtain rfl := Option.some.inj (hlabels.symm.trans hread)
  obtain rfl := Option.some.inj (hlabels'.symm.trans hread')
  obtain rfl := Option.some.inj (hsigner.symm.trans hsigner')
  rw [hdata] at hdata'
  have htype : typeNum = typeNum' := by
    simp only [rrsigRdata, List.append_assoc] at hdata'
    exact beBytes_two_inj ht ht' (List.append_inj hdata' (length_beBytes_eq 2 _ _)).1
  subst htype
  have hperm := List.perm_insertionSort bytesLE rdatas
  have hperm' := List.perm_insertionSort bytesLE rdatas'
  obtain ⟨hsorted, hsame⟩ := records_inj (labelsOf_fits hlabels) (labelsOf_fits hlabels') ht ht hk
    hk' (fun rd hrd => hlen rd (hperm.mem_iff.mp hrd))
    (fun rd hrd => hlen' rd (hperm'.mem_iff.mp hrd)) (List.append_cancel_left hdata')
  obtain ⟨howner, hclass⟩ := hsame fun hnil => hne (List.perm_nil.mp (hnil ▸ hperm.symm))
  exact ⟨howner.symm, rfl, hclass.symm,
    (hperm'.symm.trans (hsorted ▸ List.Perm.refl _)).trans hperm⟩

theorem canonicalName_of_labels (h : labelsOf name = some labels) :
    canonicalName name = .ok (wire labels) := by
  obtain ⟨read, hread, rfl⟩ := Option.map_eq_some_iff.mp h
  rw [canonicalName, nameLabels, hread]
  rfl

/-- The bytes do not depend on the order of the records. -/
theorem signedData_perm {name' : JsString} {rdatas' : List Bytes}
    (h : signedData name typeNum klass rdatas rrsig = .ok data)
    (hname : labelsOf name' = labelsOf name) (hp : rdatas'.Perm rdatas) :
    signedData name' typeNum klass rdatas' rrsig = .ok data := by
  obtain ⟨labels, signer, hlabels, hsigner, hdata⟩ := signedData_ok h
  have hsorted : rdatas'.insertionSort bytesLE = rdatas.insertionSort bytesLE :=
    sorted_unique (((List.perm_insertionSort bytesLE rdatas').trans hp).trans
      (List.perm_insertionSort bytesLE rdatas).symm) (List.pairwise_insertionSort bytesLE _)
      (List.pairwise_insertionSort bytesLE _)
  rw [signedData, canonicalName_of_labels (hname.trans hlabels), canonicalName_of_labels hsigner]
  exact congrArg Except.ok ((by rw [hsorted]; rfl : _ = _).trans hdata.symm)

end rrset

/-- What `verifyRrset` checks: the signature, over the signed data. -/
theorem verifyRrset_checks {Key : Type} {c : Crypto Key} {atMs : Int} {name : JsString}
    {rdatas : List Bytes} {rrsig : Rrsig} {algorithm : Nat} {publicKey : Bytes} {v : Verified}
    (h : verifyRrset c atMs name typeNum klass rdatas rrsig algorithm publicKey = .ok v) :
    ∃ alg data key, algs rrsig.algorithm = some alg ∧
      signedData name typeNum klass rdatas rrsig = .ok data ∧
      dnskeyToKey c algorithm publicKey = .ok key ∧
      c.verify alg.hash data key alg.kind.isEc rrsig.signature = .ok true := by
  unfold verifyRrset at h
  obtain ⟨-, -, h⟩ := bind_eq_ok.mp h
  obtain ⟨alg, halg, h⟩ := bind_eq_ok.mp h
  obtain ⟨-, -, h⟩ := bind_eq_ok.mp h
  obtain ⟨-, -, h⟩ := bind_eq_ok.mp h
  obtain ⟨-, -, h⟩ := bind_eq_ok.mp h
  obtain ⟨-, -, h⟩ := bind_eq_ok.mp h
  obtain ⟨data, hdata, h⟩ := bind_eq_ok.mp h
  obtain ⟨key, hkey, h⟩ := bind_eq_ok.mp h
  obtain ⟨_, hcheck, -⟩ := bind_eq_ok.mp h
  have halg' : algs rrsig.algorithm = some alg := by
    unfold requireAlg at halg
    split at halg
    · next found hfound => rw [hfound, Except.ok.inj halg]
    · cases halg
  unfold checkSignature at hcheck
  split at hcheck
  · cases hcheck
  · next ok hverify =>
      rw [ensure_eq_ok.mp hcheck] at hverify
      exact ⟨alg, data, key, halg', hdata, hkey, hverify⟩

/-- The types whose records are signed as they stand. -/
theorem nameFree_lt {t : Nat} (h : t ∈ nameFreeTypeNums) : t < 65536 := by
  have hall : ∀ t ∈ nameFreeTypeNums, t < 65536 := by decide
  exact hall t h

/-- The data an RRset is checked over is the signed data of the standard exactly when the owner
is the one that was signed: it has the labels the RRSIG counts, or is itself the wildcard over
them. It depends on neither the order of the records nor the letter case of the owner, and
gives the owner that was signed, the type, the class and the records back. -/
theorem rrset_signed {name : JsString} {rdatas : List Bytes} {rrsig : Rrsig} {data : Bytes}
    (h : signedData name typeNum klass rdatas rrsig = .ok data)
    (hlabels : labelsOf name = some labels) (ht : typeNum ∈ nameFreeTypeNums)
    (hk : klass < 65536) (hne : rdatas ≠ []) (hlen : ∀ rd ∈ rdatas, rd.length < 65536)
    (hcount : rrsig.labels ≤ labels.length) :
    ((∃ signer, labelsOf rrsig.signerName = some signer ∧
        IsSignedData labels signer typeNum klass rdatas rrsig data) ↔
      rrsig.labels = labels.length ∨
        (rrsig.labels + 1 = labels.length ∧ labels.head? = some [0x2A])) ∧
    (∀ name' rdatas', name'.map smallUnit = name.map smallUnit → rdatas'.Perm rdatas →
      signedData name' typeNum klass rdatas' rrsig = .ok data) ∧
    (∀ name' typeNum' klass' rdatas' labels',
      signedData name' typeNum' klass' rdatas' rrsig = .ok data → labelsOf name' = some labels' →
      typeNum' ∈ nameFreeTypeNums → klass' < 65536 → (∀ rd ∈ rdatas', rd.length < 65536) →
      signedOwner rrsig.labels labels' = signedOwner rrsig.labels labels ∧ typeNum' = typeNum ∧
        klass' = klass ∧ rdatas'.Perm rdatas) ∧
    ∀ {Key : Type} (c : Crypto Key) (atMs : Int) (algorithm : Nat) (publicKey : Bytes)
      (v : Verified),
      verifyRrset c atMs name typeNum klass rdatas rrsig algorithm publicKey = .ok v →
      ∃ alg key, algs rrsig.algorithm = some alg ∧ dnskeyToKey c algorithm publicKey = .ok key ∧
        c.verify alg.hash data key alg.kind.isEc rrsig.signature = .ok true := by
  have htype := nameFree_lt ht
  refine ⟨?_, fun name' rdatas' hname hp => ?_, ?_, ?_⟩
  · rw [isSignedData_iff h hlabels htype hk hne hlen, signedOwner_eq_iff hcount]
  · refine signedData_perm h ?_ hp
    rw [← labelsOf_small, hname, labelsOf_small]
  · intro name' typeNum' klass' rdatas' labels' h' hlabels' ht' hk' hlen'
    obtain ⟨rfl, hsame⟩ := signedData_inj h h' hlabels hlabels' htype (nameFree_lt ht') hk hk' hne
      hlen hlen'
    exact ⟨rfl, hsame⟩
  · intro Key c atMs algorithm publicKey v hv
    obtain ⟨alg, data', key, halg, hdata, hkey, hverify⟩ := verifyRrset_checks hv
    obtain rfl := Except.ok.inj (h.symm.trans hdata)
    exact ⟨alg, key, halg, hkey, hverify⟩

/-- An RRSIG over addresses, with as many labels as it says. -/
def countedRrsig (count : Nat) : Rrsig := ⟨15, count, 300, 200, 100, 7, units "b", []⟩

/-- The bytes for the address of a name. -/
def addressBytes (name : String) (count : Nat) : Bytes :=
  match signedData (units name) 1 1 [[1, 2, 3, 4]] (countedRrsig count) with
  | .ok data => data
  | .error _ => []

theorem addressBytes_ok (count : Nat) : signedData (units "a.b") 1 1 [[1, 2, 3, 4]]
    (countedRrsig count) = .ok (addressBytes "a.b" count) := rfl

/-- Two records that are not in order, under an owner with a capital letter. -/
theorem rrset_signed_address : ∃ data,
    signedData (units "A.b") 1 1 [[9, 2, 3, 4], [1, 2, 3, 4]] (countedRrsig 2) = .ok data ∧
    signedData (units "a.B") 1 1 [[1, 2, 3, 4], [9, 2, 3, 4]] (countedRrsig 2) = .ok data ∧
    ∃ signer, labelsOf (units "b") = some signer ∧
      IsSignedData [[0x61], [0x62]] signer 1 1 [[9, 2, 3, 4], [1, 2, 3, 4]] (countedRrsig 2)
        data := by
  obtain ⟨data, hdata⟩ : ∃ data, signedData (units "A.b") 1 1 [[9, 2, 3, 4], [1, 2, 3, 4]]
      (countedRrsig 2) = .ok data := ⟨_, rfl⟩
  have hlabels : labelsOf (units "A.b") = some [[0x61], [0x62]] := by decide
  obtain ⟨hiff, hsame, -, -⟩ := rrset_signed hdata hlabels (by decide) (by decide) (by decide)
    (by decide) (by decide)
  exact ⟨data, hdata, hsame _ _ (by decide) (.swap _ _ _), hiff.mpr (Or.inl rfl)⟩

/-- An answer from the wildcard `*.b` to the name `a.b`: the bytes are not those that were
signed. -/
theorem wildcard_unsigned : signedOwner 1 [[0x61], [0x62]] = [[0x2A], [0x62]] ∧
    ¬∃ signer, labelsOf (units "b") = some signer ∧
      IsSignedData [[0x61], [0x62]] signer 1 1 [[1, 2, 3, 4]] (countedRrsig 1)
        (addressBytes "a.b" 1) := by
  refine ⟨by decide, ?_⟩
  rw [show units "b" = (countedRrsig 1).signerName from rfl,
    isSignedData_iff (addressBytes_ok 1) (by decide) (by decide) (by decide) (by decide)
      (by decide)]
  decide

end Blamejs.Dnssec
