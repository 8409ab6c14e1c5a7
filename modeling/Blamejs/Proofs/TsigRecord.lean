import Blamejs.Proofs.TsigNames
import Mathlib.Algebra.Order.Floor.Ring

/-!
# The digest of a TSIG

A digest is a message and its variables with nothing between them. Where the message ends
follows from its own counts: two messages that begin one digest, and that their records fill, are
the same. The variables are told apart by their own lengths, and so are the parts of the record.
-/

namespace Blamejs.Tsig

open Blamejs.Js LabelName Checked
open Blamejs.Dnssec (presentationNameLabels asciiLowerLabel)
open Blamejs.SafeDns (Bytes slice uint16 uint32 GoodLabel drop_of_drop slice_of_drop
  beValue_written)

variable {buf buf' : Bytes} {off n : Nat} {labels : List Bytes}

/-! ## Fields -/

theorem field_ok {k : Nat} {v : Rat} {bytes : Bytes} (h : field k v = .ok bytes) :
    bytes = beBytes k ⌊v⌋.toNat ∧ ⌊v⌋.toNat < 256 ^ k ∧ (⌊v⌋.toNat : Int) = ⌊v⌋ := by
  rw [field] at h
  split at h
  · next hin =>
      have hfloor : 0 ≤ ⌊v⌋ := Int.floor_nonneg.mpr hin.1
      have hle : ⌊v⌋ ≤ ((256 ^ k - 1 : Nat) : Int) := by
        exact_mod_cast (Int.floor_le v).trans hin.2
      have hpos : 0 < 256 ^ k := Nat.pow_pos (by decide)
      exact ⟨(Except.ok.inj h).symm, by omega, Int.toNat_of_nonneg hfloor⟩
  · cases h

theorem field_nat {k v : Nat} (hv : v < 256 ^ k) : field k (v : Rat) = .ok (beBytes k v) := by
  have hle : v ≤ 256 ^ k - 1 := by omega
  rw [field, if_pos ⟨by positivity, by exact_mod_cast hle⟩]
  change Except.ok (beBytes k ⌊(v : Rat)⌋.toNat) = _
  rw [Int.floor_natCast, Int.toNat_natCast]

theorem field_nat_ok {k v : Nat} {bytes : Bytes} (h : field k (v : Rat) = .ok bytes) :
    bytes = beBytes k v ∧ v < 256 ^ k := by
  obtain ⟨hbytes, hlt, -⟩ := field_ok h
  rw [Int.floor_natCast, Int.toNat_natCast] at hbytes hlt
  exact ⟨hbytes, hlt⟩

/-! ## Algorithms -/

/-- An algorithm of the registry. -/
def Known (alg : Alg) : Prop := (alg.name, alg.hash) ∈ algorithms ++ legacyAlgorithms

theorem mem_of_lookup {table : List (JsString × String)} {key : JsString} {hash : String}
    (h : table.lookup key = some hash) : (key, hash) ∈ table := by
  obtain ⟨front, rest, rfl, -⟩ := List.lookup_eq_some_iff.mp h
  exact List.mem_append_right _ List.mem_cons_self

/-- An algorithm is known, its own name names it, and so it does where legacy ones are allowed. -/
theorem normAlg_ok {name : Option JsString} {legacy : Bool} {alg : Alg}
    (h : normAlg name legacy = .ok alg) :
    Known alg ∧ normAlg (some alg.name) legacy = .ok alg ∧ normAlg name true = .ok alg := by
  have hcurrent : ∀ p ∈ algorithms, ∀ legacy, normAlg (some p.1) legacy = .ok ⟨p.1, p.2⟩ := by
    decide +kernel
  have hlegacy : ∀ p ∈ legacyAlgorithms, normAlg (some p.1) true = .ok ⟨p.1, p.2⟩ := by
    decide +kernel
  rw [normAlg] at h
  split at h
  · next hash hlook =>
      obtain rfl := Except.ok.inj h
      have hmem := mem_of_lookup hlook
      refine ⟨List.mem_append_left _ hmem, hcurrent _ hmem legacy, ?_⟩
      rw [normAlg, hlook]
  · next hnone =>
      split at h
      · next hash hlook =>
          split at h
          · next hallowed =>
              obtain rfl := Except.ok.inj h
              have hmem := mem_of_lookup hlook
              refine ⟨List.mem_append_right _ hmem, hallowed ▸ hlegacy _ hmem, ?_⟩
              rw [normAlg, hnone]
              dsimp only
              rw [hlook]
              rfl
          · cases h
      · cases h

/-- Where legacy algorithms may be refused, allowing them changes no algorithm. -/
theorem normAlg_mono {name : Option JsString} {legacy legacy' : Bool} {alg : Alg}
    (h : normAlg name legacy = .ok alg) (hle : legacy = true → legacy' = true) :
    normAlg name legacy' = .ok alg := by
  cases legacy with
  | false =>
      cases legacy' with
      | false => exact h
      | true => exact (normAlg_ok h).2.2
  | true =>
      rw [hle rfl]
      exact h

/-- What the name of a known algorithm is on the wire. -/
theorem Known.name {alg : Alg} (h : Known alg) :
    ∃ labels, presentationNameLabels (alg.name ++ units ".") = some labels ∧
      dropDot (fullText labels) = alg.name ∧ alg.name.map smallUnit = alg.name := by
  have hall : ∀ p ∈ algorithms ++ legacyAlgorithms,
      (presentationNameLabels (p.1 ++ units ".")).any
          (fun labels => dropDot (fullText labels) = p.1) = true ∧
        p.1.map smallUnit = p.1 := by decide +kernel
  obtain ⟨hname, hsmall⟩ := hall _ h
  obtain ⟨labels, hlabels, htext⟩ := (Option.any_eq_true _ _).mp hname
  exact ⟨labels, hlabels, of_decide_eq_true htext, hsmall⟩

/-! ## Overwriting the header -/

/-- A message in parts: its ID, what stands between, a count, and what follows the header. -/
structure Header (id mid count : Bytes) : Prop where
  id : id.length = 2
  mid : mid.length = 8
  count : count.length = 2

theorem exists_header {message : Bytes} (h : 12 ≤ message.length) : ∃ id mid count body,
    Header id mid count ∧ message = id ++ (mid ++ (count ++ body)) := by
  refine ⟨message.take 2, (message.drop 2).take 8, (message.drop 10).take 2, message.drop 12,
    ⟨?_, ?_, ?_⟩, ?_⟩
  · rw [List.length_take]; omega
  · rw [List.length_take, List.length_drop]; omega
  · rw [List.length_take, List.length_drop]; omega
  · have hcount : (message.drop 10).take 2 ++ message.drop 12 = message.drop 10 := by
      rw [show 12 = 10 + 2 from rfl, ← List.drop_drop, List.take_append_drop]
    have hmid : (message.drop 2).take 8 ++ message.drop 10 = message.drop 2 := by
      rw [show 10 = 2 + 8 from rfl, ← List.drop_drop, List.take_append_drop]
    rw [hcount, hmid, List.take_append_drop]

namespace Header

variable {id mid count body two : Bytes}

theorem write_id (h : Header id mid count) :
    write16 (id ++ (mid ++ (count ++ body))) 0 two = two ++ (mid ++ (count ++ body)) := by
  rw [write16, List.take_zero, List.nil_append, Nat.zero_add, ← h.id, List.drop_left]

theorem write_count (h : Header id mid count) :
    write16 (id ++ (mid ++ (count ++ body))) 10 two = id ++ (mid ++ (two ++ body)) := by
  have hfront : (id ++ mid).length = 10 := by rw [List.length_append, h.id, h.mid]
  have hwhole : (id ++ (mid ++ count)).length = 10 + 2 := by
    rw [List.length_append, List.length_append, h.id, h.mid, h.count]
  have htake : (id ++ (mid ++ (count ++ body))).take 10 = id ++ mid := by
    rw [← List.append_assoc, ← hfront, List.take_left]
  have hdrop : (id ++ (mid ++ (count ++ body))).drop (10 + 2) = body := by
    have hjoin : id ++ (mid ++ (count ++ body)) = (id ++ (mid ++ count)) ++ body := by
      simp only [List.append_assoc]
    rw [hjoin, ← hwhole, List.drop_left]
  rw [write16, htake, hdrop, List.append_assoc, List.append_assoc]

theorem count_eq (h : Header id mid count) :
    uint16 (id ++ (mid ++ (count ++ body))) 10 = beValue count := by
  have hfront : (id ++ mid).length = 10 := by rw [List.length_append, h.id, h.mid]
  rw [uint16, slice, ← List.append_assoc, ← hfront, List.drop_left, ← h.count, List.take_left]

theorem mid_eq (h : Header id mid count) {i : Nat} (hi : i + 2 ≤ 8) :
    uint16 (id ++ (mid ++ (count ++ body))) (2 + i) = uint16 mid i := by
  have hmid := h.mid
  rw [uint16, uint16, slice, slice, ← List.drop_drop, ← h.id, List.drop_left,
    List.drop_append_of_le_length (by omega),
    List.take_append_of_le_length (by rw [List.length_drop, hmid]; have := h.id; omega)]

theorem length_eq (h : Header id mid count) :
    (id ++ (mid ++ (count ++ body))).length = 12 + body.length := by
  rw [List.length_append, List.length_append, List.length_append, h.id, h.mid, h.count]
  omega

/-- What follows the header is the same behind another one. -/
theorem agree {id' mid' count' tail : Bytes} (h : Header id mid count)
    (h' : Header id' mid' count') : Agree (12 + body.length) (id ++ (mid ++ (count ++ body)))
      (id' ++ (mid' ++ (count' ++ (body ++ tail)))) where
  length := by
    rw [h'.length_eq, List.length_append]
    omega
  same := by
    intro j hj hlt
    have hbehind : ∀ {id mid count body : Bytes}, Header id mid count →
        (id ++ (mid ++ (count ++ body)))[j]? = body[j - 12]? := by
      intro id mid count body h
      have hwhole : (id ++ (mid ++ count)).length = 12 := by
        rw [List.length_append, List.length_append, h.id, h.mid, h.count]
      rw [← List.append_assoc mid, ← List.append_assoc, List.getElem?_append_right (by omega),
        hwhole]
    rw [hbehind h', hbehind h, List.getElem?_append_left (by omega)]

end Header

/-! ## The record -/

/-- What a record holds fits into its fields. -/
structure TsigRr.InRange (rr : TsigRr) : Prop where
  time : rr.timeSigned < 256 ^ 6
  fudge : rr.fudge < 256 ^ 2
  mac : rr.mac.length < 256 ^ 2
  id : rr.originalId < 256 ^ 2
  error : rr.error < 256 ^ 2
  other : rr.otherData.length < 256 ^ 2

def rdataOf (algLabels : List Bytes) (rr : TsigRr) : Bytes :=
  wire algLabels ++ (beBytes 6 rr.timeSigned ++ (beBytes 2 rr.fudge ++ (beBytes 2 rr.mac.length ++
    (rr.mac ++ (beBytes 2 rr.originalId ++ (beBytes 2 rr.error ++ (beBytes 2 rr.otherData.length ++
      rr.otherData)))))))

/-- A record as it is written. -/
def recordOf (labels algLabels : List Bytes) (rr : TsigRr) : Bytes :=
  wire labels ++ (beBytes 2 250 ++ (beBytes 2 255 ++ (beBytes 4 0 ++
    (beBytes 2 (rdataOf algLabels rr).length ++ rdataOf algLabels rr))))

/-- Behind a number that was written. -/
theorem drop_beBytes {k v stop : Nat} {rest : Bytes} (h : buf.drop off = beBytes k v ++ rest)
    (hstop : off + k = stop) : buf.drop stop = rest := by
  have := drop_of_drop h
  rwa [length_beBytes, hstop] at this

variable {algLabels : List Bytes} {rr : TsigRr} {start : Nat}

theorem parseTsigRr_recordOf (hlabels : ∀ l ∈ labels, GoodLabel l)
    (halg : ∀ l ∈ algLabels, GoodLabel l) (hrr : rr.InRange)
    (hlen : (rdataOf algLabels rr).length < 256 ^ 2) (hkeyName : rr.keyName = fullText labels)
    (halgName : rr.algName = dropDot (fullText algLabels))
    (hdrop : buf.drop start = recordOf labels algLabels rr) : parseTsigRr buf start = .ok rr := by
  generalize hoff : start + (wire labels).length = off
  have htype := drop_of_drop hdrop
  rw [hoff] at htype
  have hclass := drop_beBytes htype rfl
  have httl : buf.drop (off + 4) = _ := drop_beBytes hclass rfl
  have hrdlen : buf.drop (off + 8) = _ := drop_beBytes httl rfl
  have hrdata : buf.drop (off + 10) = rdataOf algLabels rr := drop_beBytes hrdlen rfl
  have hsum : (rdataOf algLabels rr).length =
      (wire algLabels).length + 10 + rr.mac.length + 6 + rr.otherData.length := by
    simp only [rdataOf, List.length_append, length_beBytes]
    omega
  have hend : off + 10 + (rdataOf algLabels rr).length = buf.length := by
    have := congrArg List.length hrdata
    rw [List.length_drop] at this
    omega
  generalize hfields : off + 10 + (wire algLabels).length = at0
  have htime := drop_of_drop hrdata
  rw [hfields] at htime
  have hfudge := drop_beBytes htime rfl
  have hsize : buf.drop (at0 + 8) = _ := drop_beBytes hfudge rfl
  have hmac : buf.drop (at0 + 10) = _ := drop_beBytes hsize rfl
  generalize hafter : at0 + 10 + rr.mac.length = after
  have hid := drop_of_drop hmac
  rw [hafter] at hid
  have herror := drop_beBytes hid rfl
  have hother : buf.drop (after + 4) = _ := drop_beBytes herror rfl
  have hrest : buf.drop (after + 6) = rr.otherData := drop_beBytes hother rfl
  have hmacSize : uint16 buf (at0 + 8) = rr.mac.length := beValue_written hrr.mac hsize
  have hotherLen : uint16 buf (after + 4) = rr.otherData.length := beValue_written hrr.other hother
  have hotherData : slice buf (after + 6) rr.otherData.length = rr.otherData := by
    rw [slice, hrest, List.take_length]
  rw [parseTsigRr]
  refine bind_eq_ok.mpr ⟨_, readName_wire hlabels hdrop, ?_⟩
  dsimp only
  rw [hoff]
  refine bind_eq_ok.mpr ⟨(), ensure_eq_ok.mpr (beValue_written (by decide) htype),
    bind_eq_ok.mpr ⟨(), ensure_eq_ok.mpr (beValue_written (by decide) hclass),
      bind_eq_ok.mpr ⟨(), ensure_eq_ok.mpr (beValue_written (by decide) httl), ?_⟩⟩⟩
  have hrdLen : uint16 buf (off + 8) = (rdataOf algLabels rr).length := beValue_written hlen hrdlen
  refine bind_eq_ok.mpr ⟨_, readName_wire halg hrdata, ?_⟩
  dsimp only
  rw [hrdLen, hfields, hmacSize, hafter, hotherLen, hotherData]
  refine bind_eq_ok.mpr ⟨(), ensure_eq_ok.mpr (by omega), bind_eq_ok.mpr ⟨(),
    ensure_eq_ok.mpr (by omega), bind_eq_ok.mpr ⟨(), ensure_eq_ok.mpr (by omega),
      bind_eq_ok.mpr ⟨(), ensure_eq_ok.mpr (by omega), ?_⟩⟩⟩⟩
  have htimeValue : beValue (slice buf at0 6) = rr.timeSigned := beValue_written hrr.time htime
  have hfudgeValue : uint16 buf (at0 + 6) = rr.fudge := beValue_written hrr.fudge hfudge
  have hmacValue : slice buf (at0 + 10) rr.mac.length = rr.mac := slice_of_drop hmac
  have hidValue : uint16 buf after = rr.originalId := beValue_written hrr.id hid
  have herrorValue : uint16 buf (after + 2) = rr.error := beValue_written hrr.error herror
  rw [htimeValue, hfudgeValue, hmacValue, hidValue, herrorValue, ← hkeyName, ← halgName]

/-- The walk ends behind a record that is written last. -/
theorem skipRecords_recordOf {s : Nat} (hlabels : ∀ l ∈ labels, GoodLabel l)
    (hlen : (rdataOf algLabels rr).length < 256 ^ 2)
    (hdrop : buf.drop start = recordOf labels algLabels rr) :
    skipRecords buf 1 s start = .ok (start, buf.length) := by
  have htype := drop_of_drop hdrop
  have hrdlen := drop_beBytes (drop_beBytes (drop_beBytes htype rfl) rfl) rfl
  have hrdata := congrArg List.length (drop_beBytes hrdlen rfl)
  rw [List.length_drop] at hrdata
  have hpos : 0 < (rdataOf algLabels rr).length := by
    have := length_lt_wire algLabels
    rw [rdataOf, List.length_append]
    omega
  refine bind_eq_ok.mpr ⟨_, skipName_wire hlabels hdrop,
    bind_eq_ok.mpr ⟨(), ensure_eq_ok.mpr ?_, ?_⟩⟩
  · omega
  · rw [uint16, beValue_written hlen hrdlen]
    exact congrArg (fun e => Except.ok (start, e)) (by omega)

/-! ## Messages that their records fill -/

section Fills

variable {id id' mid count count' body tail : Bytes}

theorem Header.fills_iff (h : Header id mid count) : Fills (id ++ (mid ++ (count ++ body))) ↔
    EndsAt (id ++ (mid ++ (count ++ body))) (uint16 mid 2)
      (uint16 mid 4 + uint16 mid 6 + beValue count) (12 + body.length) := by
  have h4 : uint16 (id ++ (mid ++ (count ++ body))) 4 = uint16 mid 2 := h.mid_eq (i := 2) (by omega)
  have h6 : uint16 (id ++ (mid ++ (count ++ body))) 6 = uint16 mid 4 := h.mid_eq (i := 4) (by omega)
  have h8 : uint16 (id ++ (mid ++ (count ++ body))) 8 = uint16 mid 6 := h.mid_eq (i := 6) (by omega)
  rw [Fills, h4, h6, h8, h.count_eq, h.length_eq]

/-- The ID of a message has no part in where its records end. -/
theorem Header.fills (h : Header id mid count) (h' : Header id' mid count)
    (hfills : Fills (id ++ (mid ++ (count ++ body)))) :
    Fills (id' ++ (mid ++ (count ++ body))) := by
  have hagree := @Header.agree id mid count body id' mid count [] h h'
  rw [List.append_nil] at hagree
  exact h'.fills_iff.mpr ((h.fills_iff.mp hfills).agree hagree)

/-- A message that begins some bytes: where its records end can be told from these. -/
theorem Fills.endsAt (h : Header id mid count) (hfills : Fills (id ++ (mid ++ (count ++ body)))) :
    EndsAt (id ++ (mid ++ (count ++ (body ++ tail)))) (uint16 mid 2)
      (uint16 mid 4 + uint16 mid 6 + beValue count) (12 + body.length) :=
  (h.fills_iff.mp hfills).agree (h.agree h)

/-- Two messages that begin the same bytes are the same. -/
theorem Fills.append_inj {m m' rest rest' : Bytes} (hm : 12 ≤ m.length) (hm' : 12 ≤ m'.length)
    (hfills : Fills m) (hfills' : Fills m') (h : m ++ rest = m' ++ rest') :
    m = m' ∧ rest = rest' := by
  obtain ⟨id, mid, count, body, hhead, rfl⟩ := exists_header hm
  obtain ⟨id', mid', count', body', hhead', rfl⟩ := exists_header hm'
  simp only [List.append_assoc] at h
  obtain ⟨rfl, hmid⟩ := List.append_inj h (hhead.id.trans hhead'.id.symm)
  obtain ⟨rfl, hcount⟩ := List.append_inj hmid (hhead.mid.trans hhead'.mid.symm)
  obtain ⟨rfl, hbody⟩ := List.append_inj hcount (hhead.count.trans hhead'.count.symm)
  have hend := @Fills.endsAt _ _ _ _ rest hhead hfills
  have hend' := @Fills.endsAt _ _ _ _ rest' hhead hfills'
  rw [hbody] at hend
  have hlen := hend.unique hend'
  obtain ⟨rfl, hrest⟩ := List.append_inj hbody (by omega)
  exact ⟨rfl, hrest⟩

end Fills

/-! ## The digest -/

/-- The variables of a record. -/
def variableBytes (labels algLabels : List Bytes) (time fudge error : Nat) (other : Bytes) :
    Bytes :=
  wire (labels.map asciiLowerLabel) ++ (beBytes 2 255 ++ (beBytes 4 0 ++
    (wire (algLabels.map asciiLowerLabel) ++ (beBytes 6 time ++ (beBytes 2 fudge ++
      (beBytes 2 error ++ (beBytes 2 other.length ++ other)))))))

/-- The whole numbers that are written for some numbers. -/
structure Whole (time fudge error : Rat) (t f e : Nat) (other : Bytes) : Prop where
  time : (t : Int) = ⌊time⌋
  fudge : (f : Int) = ⌊fudge⌋
  error : (e : Int) = ⌊error⌋
  timeRange : t < 256 ^ 6
  fudgeRange : f < 256 ^ 2
  errorRange : e < 256 ^ 2
  otherRange : other.length < 256 ^ 2

theorem encodeName_ok {name : JsString} {lower : Bool} {bytes : Bytes}
    (h : encodeName name lower = .ok bytes) : ∃ labels, presentationNameLabels name = some labels ∧
      bytes = wire (if lower then labels.map asciiLowerLabel else labels) := by
  obtain ⟨labels, hlabels, h⟩ := bind_eq_ok.mp h
  rw [nameLabels] at hlabels
  split at hlabels
  · next read hread =>
      obtain rfl := Except.ok.inj hlabels
      exact ⟨read, hread, (Except.ok.inj h).symm⟩
  · cases hlabels

theorem encodeName_of {name : JsString} (lower : Bool)
    (h : presentationNameLabels name = some labels) : encodeName name lower =
      .ok (wire (if lower then labels.map asciiLowerLabel else labels)) := by
  refine bind_eq_ok.mpr ⟨labels, ?_, rfl⟩
  rw [nameLabels, h]

theorem tsigVariables_ok {keyName algName : JsString} {time fudge error : Rat} {other vars : Bytes}
    (h : tsigVariables keyName algName time fudge error other = .ok vars) :
    ∃ labels algLabels t f e, presentationNameLabels keyName = some labels ∧
      presentationNameLabels algName = some algLabels ∧ Whole time fudge error t f e other ∧
      vars = variableBytes labels algLabels t f e other := by
  obtain ⟨_, htime, h⟩ := bind_eq_ok.mp h
  obtain ⟨_, hfudge, h⟩ := bind_eq_ok.mp h
  obtain ⟨_, herror, h⟩ := bind_eq_ok.mp h
  obtain ⟨_, hother, h⟩ := bind_eq_ok.mp h
  obtain ⟨_, hkey, h⟩ := bind_eq_ok.mp h
  obtain ⟨_, halg, h⟩ := bind_eq_ok.mp h
  obtain ⟨rfl, htimeRange, htimeFloor⟩ := field_ok htime
  obtain ⟨rfl, hfudgeRange, hfudgeFloor⟩ := field_ok hfudge
  obtain ⟨rfl, herrorRange, herrorFloor⟩ := field_ok herror
  obtain ⟨rfl, hotherRange⟩ := field_nat_ok hother
  obtain ⟨labels, hlabels, rfl⟩ := encodeName_ok hkey
  obtain ⟨algLabels, halgLabels, rfl⟩ := encodeName_ok halg
  refine ⟨labels, algLabels, _, _, _, hlabels, halgLabels, ⟨htimeFloor, hfudgeFloor, herrorFloor,
    htimeRange, hfudgeRange, herrorRange, hotherRange⟩, ?_⟩
  rw [← Except.ok.inj h]
  simp only [variableBytes, List.append_assoc, if_true]

theorem tsigVariables_nat {keyName algName : JsString} {t f e : Nat} {other : Bytes}
    (hkey : presentationNameLabels keyName = some labels)
    (halg : presentationNameLabels algName = some algLabels)
    (ht : t < 256 ^ 6) (hf : f < 256 ^ 2) (he : e < 256 ^ 2) (ho : other.length < 256 ^ 2) :
    tsigVariables keyName algName t f e other =
      .ok (variableBytes labels algLabels t f e other) := by
  refine bind_eq_ok.mpr ⟨_, field_nat ht, bind_eq_ok.mpr ⟨_, field_nat hf, bind_eq_ok.mpr ⟨_,
    field_nat he, bind_eq_ok.mpr ⟨_, field_nat ho, bind_eq_ok.mpr ⟨_, encodeName_of true hkey,
      bind_eq_ok.mpr ⟨_, encodeName_of true halg, ?_⟩⟩⟩⟩⟩⟩
  simp only [variableBytes, List.append_assoc, if_true]

/-- What a digest is of. -/
def DigestOf (requestMac : Option Bytes) (message : Bytes) (keyName algName : JsString)
    (time fudge error : Rat) (other digest : Bytes) : Prop :=
  ∃ start vars, requestMacPrefix requestMac = .ok start ∧
    tsigVariables keyName algName time fudge error other = .ok vars ∧
    digest = start ++ (message ++ vars)

theorem requestMacPrefix_inj {mac mac' : Option Bytes} {start start' rest rest' : Bytes}
    (h : requestMacPrefix mac = .ok start) (h' : requestMacPrefix mac' = .ok start')
    (hsome : mac.isSome = mac'.isSome) (heq : start ++ rest = start' ++ rest') :
    mac = mac' ∧ rest = rest' := by
  cases mac with
  | none =>
      cases mac' with
      | none =>
          obtain rfl := Except.ok.inj h
          obtain rfl := Except.ok.inj h'
          exact ⟨rfl, heq⟩
      | some mac' => cases hsome
  | some mac =>
      cases mac' with
      | none => cases hsome
      | some mac' =>
          obtain ⟨len, hlen, h⟩ := bind_eq_ok.mp h
          obtain ⟨len', hlen', h'⟩ := bind_eq_ok.mp h'
          obtain ⟨rfl, hrange⟩ := field_nat_ok hlen
          obtain ⟨rfl, hrange'⟩ := field_nat_ok hlen'
          rw [← Except.ok.inj h, ← Except.ok.inj h', List.append_assoc, List.append_assoc] at heq
          obtain ⟨hsize, heq⟩ := List.append_inj heq (by rw [length_beBytes, length_beBytes])
          obtain ⟨rfl, hrest⟩ := List.append_inj heq (Dnssec.beBytes_inj hrange hrange' hsize)
          exact ⟨rfl, hrest⟩

theorem fits_lower (hgood : ∀ l ∈ labels, GoodLabel l) :
    ∀ l ∈ labels.map asciiLowerLabel, Fits l := by
  intro l hl
  obtain ⟨l', hl', rfl⟩ := List.mem_map.mp hl
  obtain ⟨hne, hlen⟩ := hgood l' hl'
  have hlt := Nat.lt_of_le_of_lt hlen (show SafeDns.dnsMaxLabelBytes < 256 from by decide)
  exact ⟨by simpa [asciiLowerLabel] using hne, by simpa [asciiLowerLabel] using hlt⟩

/-- What a record says is read from its variables. -/
theorem tsigVariables_inj {keyName keyName' algName algName' : JsString}
    {time time' fudge fudge' error error' : Rat} {other other' vars : Bytes}
    (h : tsigVariables keyName algName time fudge error other = .ok vars)
    (h' : tsigVariables keyName' algName' time' fudge' error' other' = .ok vars) :
    canonicalKey keyName = canonicalKey keyName' ∧ ⌊time⌋ = ⌊time'⌋ ∧ ⌊fudge⌋ = ⌊fudge'⌋ ∧
      ⌊error⌋ = ⌊error'⌋ ∧ other = other' := by
  obtain ⟨labels, algs, t, f, e, hlabels, halgs, hw, rfl⟩ := tsigVariables_ok h
  obtain ⟨labels', algs', t', f', e', hlabels', halgs', hw', heq⟩ := tsigVariables_ok h'
  have hgood := fits_lower (presentationNameLabels_good hlabels).1
  have hgood' := fits_lower (presentationNameLabels_good hlabels').1
  have hgoodAlg := fits_lower (presentationNameLabels_good halgs).1
  have hgoodAlg' := fits_lower (presentationNameLabels_good halgs').1
  obtain ⟨hkey, heq⟩ := wire_append_inj hgood hgood' heq
  obtain ⟨-, heq⟩ := List.append_inj heq (Dnssec.length_beBytes_eq 2 _ _)
  obtain ⟨-, heq⟩ := List.append_inj heq (Dnssec.length_beBytes_eq 4 _ _)
  obtain ⟨-, heq⟩ := wire_append_inj hgoodAlg hgoodAlg' heq
  obtain ⟨htime, heq⟩ := List.append_inj heq (Dnssec.length_beBytes_eq 6 _ _)
  obtain ⟨hfudge, heq⟩ := List.append_inj heq (Dnssec.length_beBytes_eq 2 _ _)
  obtain ⟨herror, heq⟩ := List.append_inj heq (Dnssec.length_beBytes_eq 2 _ _)
  obtain ⟨-, hother⟩ := List.append_inj heq (Dnssec.length_beBytes_eq 2 _ _)
  refine ⟨?_, ?_, ?_, ?_, hother⟩
  · rw [canonicalKey, canonicalKey, hlabels, hlabels', Option.map_some, Option.map_some, hkey]
  · rw [← hw.time, ← hw'.time, Dnssec.beBytes_inj hw.timeRange hw'.timeRange htime]
  · rw [← hw.fudge, ← hw'.fudge, Dnssec.beBytes_inj hw.fudgeRange hw'.fudgeRange hfudge]
  · rw [← hw.error, ← hw'.error, Dnssec.beBytes_inj hw.errorRange hw'.errorRange herror]

/-- A digest is of one message and of one record, when it is known whether it answers a request. -/
theorem DigestOf.inj {mac mac' : Option Bytes} {m m' : Bytes}
    {keyName keyName' algName algName' : JsString} {time time' fudge fudge' error error' : Rat}
    {other other' digest : Bytes}
    (h : DigestOf mac m keyName algName time fudge error other digest)
    (h' : DigestOf mac' m' keyName' algName' time' fudge' error' other' digest)
    (hsome : mac.isSome = mac'.isSome) (hm : 12 ≤ m.length) (hm' : 12 ≤ m'.length)
    (hfills : Fills m) (hfills' : Fills m') :
    (mac = mac' ∧ m = m') ∧ canonicalKey keyName = canonicalKey keyName' ∧ ⌊time⌋ = ⌊time'⌋ ∧
      ⌊fudge⌋ = ⌊fudge'⌋ ∧ ⌊error⌋ = ⌊error'⌋ ∧ other = other' := by
  obtain ⟨start, vars, hstart, hvars, rfl⟩ := h
  obtain ⟨start', vars', hstart', hvars', heq⟩ := h'
  obtain ⟨hmac, heq⟩ := requestMacPrefix_inj hstart hstart' hsome heq
  obtain ⟨hmessage, hsame⟩ := Fills.append_inj hm hm' hfills hfills' heq
  exact ⟨⟨hmac, hmessage⟩, tsigVariables_inj hvars (hsame ▸ hvars')⟩

end Blamejs.Tsig
