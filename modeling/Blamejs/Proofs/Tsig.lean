import Blamejs.Proofs.TsigRecord

/-!
# What a TSIG signs

What `sign` gives is what `verify` accepts under the same key. And where only signing calls take
MACs under a key, what `verify` accepts is a message that one of them signed, with what its record
says, when both sides know whether the message answers a request.
-/

namespace Blamejs.Tsig

open Blamejs.Js LabelName Checked
open Blamejs.Dnssec (presentationNameLabels)
open Blamejs.SafeDns (Bytes uint16 GoodLabel)

variable {buf : Bytes} {labels algLabels : List Bytes} {rr : TsigRr}

/-! ## What is verified was signed -/

theorem signDigest_ok {clock : Int} {message digest : Bytes} {opts : SignOpts} {alg : Alg}
    (h : signDigest clock message opts alg = .ok digest) : ∃ id, id.length = 2 ∧
      field 2 (opts.originalId.getD (uint16 message 0)) = .ok id ∧
      DigestOf opts.requestMac (write16 message 0 id) opts.keyName (alg.name ++ units ".")
        (opts.time.getD clock) (opts.fudge.getD 300) (opts.error.getD 0) (opts.otherData.getD [])
        digest := by
  obtain ⟨start, hstart, h⟩ := bind_eq_ok.mp h
  obtain ⟨id, hid, h⟩ := bind_eq_ok.mp h
  obtain ⟨vars, hvars, h⟩ := bind_eq_ok.mp h
  refine ⟨id, by rw [(field_ok hid).1, length_beBytes], hid, start, vars, hstart, hvars, ?_⟩
  rw [← Except.ok.inj h, List.append_assoc]

theorem verifyDigest_ok {rrStart : Nat} {mac : Option Bytes} {digest : Bytes}
    (h : verifyDigest buf rrStart rr mac = .ok digest) : ∃ id count, id.length = 2 ∧
      field 2 ((uint16 (write16 (buf.take rrStart) 0 id) 10 : Rat) - 1) = .ok count ∧
      DigestOf mac (write16 (write16 (buf.take rrStart) 0 id) 10 count) rr.keyName
        (rr.algName ++ units ".") rr.timeSigned rr.fudge rr.error rr.otherData digest := by
  obtain ⟨start, hstart, h⟩ := bind_eq_ok.mp h
  obtain ⟨id, hid, h⟩ := bind_eq_ok.mp h
  obtain ⟨count, hcount, h⟩ := bind_eq_ok.mp h
  obtain ⟨vars, hvars, h⟩ := bind_eq_ok.mp h
  refine ⟨id, count, by rw [(field_ok hid).1, length_beBytes], hcount, start, vars, hstart, hvars,
    ?_⟩
  rw [← Except.ok.inj h, List.append_assoc]

/-- Where the last record of a message begins: behind all others. -/
theorem findTsigRr_ok {rrStart : Nat} (h : findTsigRr buf = .ok rrStart) : 12 ≤ buf.length ∧
    1 ≤ uint16 buf 10 ∧ EndsAt buf (uint16 buf 4)
      (uint16 buf 6 + uint16 buf 8 + (uint16 buf 10 - 1)) rrStart ∧
    12 ≤ rrStart ∧ rrStart < buf.length := by
  obtain ⟨_, hlen, h⟩ := bind_eq_ok.mp h
  obtain ⟨_, hcount, h⟩ := bind_eq_ok.mp h
  obtain ⟨off, hoff, h⟩ := bind_eq_ok.mp h
  obtain ⟨⟨start, last⟩, hlast, h⟩ := bind_eq_ok.mp h
  obtain ⟨_, hend, h⟩ := bind_eq_ok.mp h
  obtain rfl := Except.ok.inj h
  obtain rfl := ensure_eq_ok.mp hend
  have hcount := ensure_eq_ok.mp hcount
  rw [show uint16 buf 6 + uint16 buf 8 + uint16 buf 10 =
    uint16 buf 6 + uint16 buf 8 + (uint16 buf 10 - 1) + 1 from by omega] at hlast
  obtain ⟨s, mid, hfront, hlast⟩ := skipRecords_snoc.mp hlast
  obtain ⟨behind, hname, hlast⟩ := bind_eq_ok.mp hlast
  obtain ⟨-, -, hlast⟩ := bind_eq_ok.mp hlast
  obtain ⟨rfl, hstop⟩ := Prod.mk.inj (Except.ok.inj hlast)
  have hlt := skipLoop_lt hname
  have hle := skipRecords_le hfront
  have hle' := skipQuestions_le hoff
  exact ⟨ensure_eq_ok.mp hlen, hcount, ⟨off, s, hoff, hfront⟩, by omega, by omega⟩

/-- A call of `sign`. -/
structure Call where
  clock : Int
  message : Bytes
  opts : SignOpts

/-- A call that signed a message that its records fill. -/
def Call.Signs (c : Call) (hmac : Hmac) : Prop :=
  Fills c.message ∧ ∃ signed, sign hmac c.clock c.message c.opts = .ok signed

/-- A call that took the MAC of a digest under a hash and a secret. -/
def Call.Digests (c : Call) (hash : String) (secret digest : Bytes) : Prop :=
  ∃ alg, normAlg c.opts.algorithm c.opts.allowLegacy = .ok alg ∧ alg.hash = hash ∧
    c.opts.secret = secret ∧ signDigest c.clock c.message c.opts alg = .ok digest

/-- What an ideal HMAC promises: only digests of the calls have this MAC under a key. -/
def Unforged (hmac : Hmac) (calls : List Call) (hash : String) (secret mac : Bytes) : Prop :=
  ∀ digest, hmac hash secret digest = mac → ∃ c ∈ calls, c.Digests hash secret digest

/-- A message that `verify` reports with a valid MAC of full length, its record and its key. -/
structure Accepted (hmac : Hmac) (clock : Int) (buf : Bytes) (opts : VerifyOpts) (rrStart : Nat)
    (rr : TsigRr) (key : Key) (alg : Alg) : Prop where
  ok : ∃ r, verify hmac clock buf opts = .ok r ∧ r.macValid = true
  start : findTsigRr buf = .ok rrStart
  record : parseTsigRr buf rrStart = .ok rr
  keyFound : findKey opts rr.keyName = some key
  algFound : normAlg (if key.algorithm.getD [] = [] then some rr.algName else key.algorithm)
    opts.allowLegacy = .ok alg
  whole : ∀ digest, verifyDigest buf rrStart rr opts.requestMac = .ok digest →
    rr.mac.length = (hmac alg.hash key.secret digest).length

/-- What stands before the record of a message is what a call signed, up to the ID, and the
record says the same. -/
structure Carries (c : Call) (buf : Bytes) (rrStart : Nat) (rr : TsigRr)
    (requestMac : Option Bytes) : Prop where
  message : (write16 (buf.take rrStart) 10 (beBytes 2 (uint16 buf 10 - 1))).drop 2 =
    c.message.drop 2
  key : canonicalKey rr.keyName = canonicalKey c.opts.keyName
  time : (rr.timeSigned : Int) = ⌊c.opts.time.getD c.clock⌋
  fudge : (rr.fudge : Int) = ⌊c.opts.fudge.getD 300⌋
  error : (rr.error : Int) = ⌊c.opts.error.getD 0⌋
  other : rr.otherData = c.opts.otherData.getD []
  requestMac : requestMac = c.opts.requestMac

variable {hmac : Hmac} {clock : Int} {opts : VerifyOpts} {rrStart : Nat} {key : Key} {alg : Alg}

theorem Accepted.digest (h : Accepted hmac clock buf opts rrStart rr key alg) :
    ∃ digest, verifyDigest buf rrStart rr opts.requestMac = .ok digest ∧
      hmac alg.hash key.secret digest = rr.mac := by
  obtain ⟨r, hr, hvalid⟩ := h.ok
  obtain ⟨_, -, hr⟩ := bind_eq_ok.mp hr
  obtain ⟨start, hstart, hr⟩ := bind_eq_ok.mp hr
  obtain rfl := Except.ok.inj (h.start.symm.trans hstart)
  obtain ⟨record, hrecord, hr⟩ := bind_eq_ok.mp hr
  obtain rfl := Except.ok.inj (h.record.symm.trans hrecord)
  dsimp only at hr
  rw [h.keyFound] at hr
  dsimp only at hr
  obtain ⟨found, hfound, hr⟩ := bind_eq_ok.mp hr
  obtain rfl := Except.ok.inj (h.algFound.symm.trans hfound)
  split at hr
  · rw [← Except.ok.inj hr] at hvalid
    cases hvalid
  · obtain ⟨digest, hdigest, hr⟩ := bind_eq_ok.mp hr
    rw [← Except.ok.inj hr] at hvalid
    refine ⟨digest, hdigest, ?_⟩
    have hmatches : macMatches rr.mac (hmac alg.hash key.secret digest) = true := hvalid
    rw [macMatches, if_pos (h.whole digest hdigest)] at hmatches
    exact (of_decide_eq_true hmatches).symm

theorem Call.Signs.length {c : Call} (h : c.Signs hmac) : 12 ≤ c.message.length := by
  obtain ⟨-, signed, hsign⟩ := h
  obtain ⟨_, hlen, -⟩ := bind_eq_ok.mp hsign
  exact ensure_eq_ok.mp hlen

/-- The message that a verifier takes the digest of. -/
theorem verified_message {two count : Bytes} (hstart : findTsigRr buf = .ok rrStart)
    (htwo : two.length = 2)
    (hcount : field 2 ((uint16 (write16 (buf.take rrStart) 0 two) 10 : Rat) - 1) = .ok count) :
    ∃ mid body, 12 ≤ (write16 (write16 (buf.take rrStart) 0 two) 10 count).length ∧
      Fills (write16 (write16 (buf.take rrStart) 0 two) 10 count) ∧
      write16 (write16 (buf.take rrStart) 0 two) 10 count = two ++ (mid ++ (count ++ body)) ∧
      (write16 (buf.take rrStart) 10 (beBytes 2 (uint16 buf 10 - 1))).drop 2 =
        mid ++ (count ++ body) := by
  obtain ⟨-, hpos, hends, hlow, hhigh⟩ := findTsigRr_ok hstart
  have hlen : (buf.take rrStart).length = rrStart := by
    rw [List.length_take]
    omega
  obtain ⟨id, mid, old, body, hhead, hmessage⟩ := exists_header (hlow.trans_eq hlen.symm)
  have hbuf : buf = id ++ (mid ++ (old ++ (body ++ buf.drop rrStart))) := by
    conv_lhs => rw [← List.take_append_drop rrStart buf, hmessage]
    simp only [List.append_assoc]
  have hsize : rrStart = 12 + body.length := by
    rw [← hlen, hmessage, hhead.length_eq]
  have hhead' : Header two mid old := ⟨htwo, hhead.mid, hhead.count⟩
  have hold : uint16 buf 10 = beValue old := by
    rw [hbuf]
    exact hhead.count_eq
  rw [hmessage, hhead.write_id, hhead'.count_eq, ← hold] at hcount
  have hcast : (uint16 buf 10 : Rat) - 1 = ((uint16 buf 10 - 1 : Nat) : Rat) := by
    rw [Nat.cast_sub hpos, Nat.cast_one]
  obtain ⟨rfl, hrange⟩ := field_nat_ok (hcast ▸ hcount)
  have hnew : Header two mid (beBytes 2 (uint16 buf 10 - 1)) :=
    ⟨htwo, hhead.mid, length_beBytes 2 _⟩
  have h4 : uint16 buf 4 = uint16 mid 2 := by
    rw [hbuf]
    exact hhead.mid_eq (i := 2) (by omega)
  have h6 : uint16 buf 6 = uint16 mid 4 := by
    rw [hbuf]
    exact hhead.mid_eq (i := 4) (by omega)
  have h8 : uint16 buf 8 = uint16 mid 6 := by
    rw [hbuf]
    exact hhead.mid_eq (i := 6) (by omega)
  have hagree := @Header.agree _ _ _ body _ _ _ (buf.drop rrStart) hnew hhead
  rw [← hbuf] at hagree
  have hfills := hends.agree (hsize ▸ hagree.symm (hnew.length_eq ▸ Nat.le_refl _))
  rw [h4, h6, h8, hsize] at hfills
  have hfilled := hnew.fills_iff.mpr (by rwa [beValue_beBytes hrange])
  rw [hmessage, hhead.write_id, hhead'.write_count, hhead.write_count]
  refine ⟨mid, body, ?_, hfilled, rfl, ?_⟩
  · rw [hnew.length_eq]
    omega
  · rw [← hhead.id, List.drop_left]

/-- A message that is accepted carries what one of the calls signed. -/
theorem Accepted.carries {calls : List Call} (h : Accepted hmac clock buf opts rrStart rr key alg)
    (hcalls : ∀ c ∈ calls, c.Signs hmac)
    (hideal : Unforged hmac calls alg.hash key.secret rr.mac) :
    ∃ c ∈ calls, (∃ digest, c.Digests alg.hash key.secret digest ∧
        hmac alg.hash key.secret digest = rr.mac) ∧
      (c.opts.requestMac.isSome = opts.requestMac.isSome →
        Carries c buf rrStart rr opts.requestMac) := by
  obtain ⟨digest, hdigest, hmac⟩ := h.digest
  obtain ⟨c, hc, hcall⟩ := hideal digest hmac
  refine ⟨c, hc, ⟨digest, hcall, hmac⟩, fun hsome => ?_⟩
  obtain ⟨alg', -, -, -, hsigned⟩ := hcall
  obtain ⟨two, htwo, -, hof⟩ := signDigest_ok hsigned
  obtain ⟨two', count, htwo', hcount, hof'⟩ := verifyDigest_ok hdigest
  obtain ⟨mid, body, hlen', hfills', hmessage, hdrop⟩ := verified_message h.start htwo' hcount
  obtain ⟨id, mid0, count0, body0, hhead, hcm⟩ := exists_header (hcalls c hc).length
  have hhead0 : Header two mid0 count0 := ⟨htwo, hhead.mid, hhead.count⟩
  have hfills : Fills (write16 c.message 0 two) := by
    have := (hcalls c hc).1
    rw [hcm] at this ⊢
    rw [hhead.write_id]
    exact hhead.fills hhead0 this
  have hlen : 12 ≤ (write16 c.message 0 two).length := by
    rw [hcm, hhead.write_id, hhead0.length_eq]
    omega
  obtain ⟨⟨hreq, hsame⟩, hkey, htime, hfudge, herror, hother⟩ :=
    hof.inj hof' hsome hlen hlen' hfills hfills'
  rw [Int.floor_natCast] at htime hfudge herror
  refine ⟨?_, hkey.symm, htime.symm, hfudge.symm, herror.symm, hother.symm, hreq.symm⟩
  rw [hmessage, hcm, hhead.write_id] at hsame
  obtain ⟨-, hrest⟩ := List.append_inj hsame (htwo.trans htwo'.symm)
  rw [hdrop, hcm, ← hhead.id, List.drop_left, hrest]

/-! ## What was signed is verified -/

/-- What `sign` appends, and to what. -/
structure Wrote (hmac : Hmac) (clock : Int) (message : Bytes) (opts : SignOpts) (signed : Signed)
    (alg : Alg) (labels algLabels : List Bytes) (rr : TsigRr) (start : Bytes) : Prop where
  length : 12 ≤ message.length
  algFound : normAlg opts.algorithm opts.allowLegacy = .ok alg
  keyLabels : presentationNameLabels opts.keyName = some labels
  algNameLabels : presentationNameLabels (alg.name ++ units ".") = some algLabels
  range : rr.InRange
  keyName : rr.keyName = fullText labels
  algName : rr.algName = alg.name
  time : (rr.timeSigned : Int) = ⌊opts.time.getD clock⌋
  fudge : (rr.fudge : Int) = ⌊opts.fudge.getD 300⌋
  requestMac : requestMacPrefix opts.requestMac = .ok start
  mac : rr.mac = hmac alg.hash opts.secret (start ++ write16 message 0 (beBytes 2 rr.originalId) ++
    variableBytes labels algLabels rr.timeSigned rr.fudge rr.error rr.otherData)
  rdataRange : (rdataOf algLabels rr).length < 256 ^ 2
  countRange : uint16 message 10 + 1 < 256 ^ 2
  wire : signed.wire = write16 message 10 (beBytes 2 (uint16 message 10 + 1)) ++
    recordOf labels algLabels rr

theorem sign_ok {message : Bytes} {opts : SignOpts} {signed : Signed}
    (h : sign hmac clock message opts = .ok signed) : ∃ alg labels algLabels rr start,
      Wrote hmac clock message opts signed alg labels algLabels rr start := by
  obtain ⟨_, hlength, h⟩ := bind_eq_ok.mp h
  obtain ⟨_, -, h⟩ := bind_eq_ok.mp h
  obtain ⟨alg, halg, h⟩ := bind_eq_ok.mp h
  obtain ⟨_, -, h⟩ := bind_eq_ok.mp h
  obtain ⟨_, -, h⟩ := bind_eq_ok.mp h
  obtain ⟨digest, hdigest, h⟩ := bind_eq_ok.mp h
  obtain ⟨_, htime, h⟩ := bind_eq_ok.mp h
  obtain ⟨_, hfudge, h⟩ := bind_eq_ok.mp h
  obtain ⟨_, hmacLen, h⟩ := bind_eq_ok.mp h
  obtain ⟨id, hid, h⟩ := bind_eq_ok.mp h
  obtain ⟨_, herror, h⟩ := bind_eq_ok.mp h
  obtain ⟨_, hother, h⟩ := bind_eq_ok.mp h
  obtain ⟨_, halgName, h⟩ := bind_eq_ok.mp h
  obtain ⟨_, hrdata, h⟩ := bind_eq_ok.mp h
  obtain ⟨_, hkeyName, h⟩ := bind_eq_ok.mp h
  obtain ⟨_, hcount, h⟩ := bind_eq_ok.mp h
  obtain ⟨start, hstart, hdigest⟩ := bind_eq_ok.mp hdigest
  obtain ⟨id', hid', hdigest⟩ := bind_eq_ok.mp hdigest
  obtain ⟨vars, hvars, hdigest⟩ := bind_eq_ok.mp hdigest
  obtain rfl := Except.ok.inj (hid.symm.trans hid')
  obtain rfl := Except.ok.inj h
  obtain rfl := Except.ok.inj hdigest
  obtain ⟨rfl, htimeRange, htimeFloor⟩ := field_ok htime
  obtain ⟨rfl, hfudgeRange, hfudgeFloor⟩ := field_ok hfudge
  obtain ⟨rfl, hmacRange⟩ := field_nat_ok hmacLen
  obtain ⟨rfl, hidRange, -⟩ := field_ok hid
  obtain ⟨rfl, herrorRange, herrorFloor⟩ := field_ok herror
  obtain ⟨rfl, hotherRange⟩ := field_nat_ok hother
  obtain ⟨algLabels, halgLabels, rfl⟩ := encodeName_ok halgName
  obtain ⟨labels, hlabels, rfl⟩ := encodeName_ok hkeyName
  obtain ⟨rfl, hrdataRange⟩ := field_nat_ok hrdata
  have hcast : (uint16 message 10 : Rat) + 1 = ((uint16 message 10 + 1 : Nat) : Rat) := by
    rw [Nat.cast_add, Nat.cast_one]
  obtain ⟨rfl, hcountRange⟩ := field_nat_ok (hcast ▸ hcount)
  obtain ⟨labels', algLabels', t, f, e, hlabels', halgLabels', hw, rfl⟩ := tsigVariables_ok hvars
  obtain rfl := Option.some.inj (hlabels.symm.trans hlabels')
  obtain rfl := Option.some.inj (halgLabels.symm.trans halgLabels')
  have ht : ⌊opts.time.getD clock⌋.toNat = t := by rw [← hw.time, Int.toNat_natCast]
  have hf : ⌊opts.fudge.getD 300⌋.toNat = f := by rw [← hw.fudge, Int.toNat_natCast]
  have he : ⌊opts.error.getD 0⌋.toNat = e := by rw [← hw.error, Int.toNat_natCast]
  rw [ht, hf, he] at hrdataRange ⊢
  generalize hmacEq : hmac alg.hash opts.secret _ = mac at hmacRange hrdataRange ⊢
  refine ⟨alg, labels, algLabels, ⟨fullText labels, alg.name, t, f, mac,
    ⌊opts.originalId.getD (uint16 message 0)⌋.toNat, e, opts.otherData.getD []⟩, start,
    ⟨ensure_eq_ok.mp hlength, halg, hlabels, halgLabels, ⟨hw.timeRange, hw.fudgeRange, hmacRange,
      hidRange, hw.errorRange, hotherRange⟩, rfl, rfl, hw.time, hw.fudge, hstart, hmacEq.symm, ?_,
      hcountRange, ?_⟩⟩
  · simpa only [rdataOf, List.append_assoc, Bool.false_eq_true, if_false] using hrdataRange
  · simp only [recordOf, rdataOf, List.append_assoc, Bool.false_eq_true, if_false]

/-- The key of a name does not depend on how the name is written. -/
theorem findKey_fullText {name : JsString} {labels : List Bytes} (opts : VerifyOpts)
    (h : presentationNameLabels name = some labels) :
    findKey opts (fullText labels) = findKey opts name := by
  obtain ⟨hgood, hshort⟩ := presentationNameLabels_good h
  have hsame : canonicalKey (fullText labels) = canonicalKey name := by
    rw [canonicalKey, canonicalKey, presentationNameLabels_fullText hgood hshort, h]
  rw [findKey, findKey, hsame]

theorem beBytes_beValue {bytes : Bytes} (h : bytes.length = 2) :
    beBytes 2 (beValue bytes) = bytes := by
  obtain ⟨a, b, rfl⟩ := List.length_eq_two.mp h
  have ha := UInt8.toNat_lt a
  have hb := UInt8.toNat_lt b
  have hvalue : beValue [a, b] = a.toNat * 256 + b.toNat := by simp [beValue]
  have hhigh : (a.toNat * 256 + b.toNat) / 256 % 256 = a.toNat := by omega
  have hlow : (a.toNat * 256 + b.toNat) % 256 = b.toNat := by omega
  rw [hvalue, beBytes, beBytes, beBytes, hhigh, hlow, UInt8.ofNat_toNat, UInt8.ofNat_toNat]
  rfl

theorem findTsigRr_recordOf {id mid count new body : Bytes} (h : Header id mid count)
    (hfills : Fills (id ++ (mid ++ (count ++ body)))) (hnew : new.length = 2)
    (hcount : beValue new = beValue count + 1) (hlabels : ∀ l ∈ labels, GoodLabel l)
    (hlen : (rdataOf algLabels rr).length < 256 ^ 2)
    (hdrop : (id ++ (mid ++ (new ++ (body ++ recordOf labels algLabels rr)))).drop
      (12 + body.length) = recordOf labels algLabels rr) :
    findTsigRr (id ++ (mid ++ (new ++ (body ++ recordOf labels algLabels rr)))) =
      .ok (12 + body.length) := by
  have hhead : Header id mid new := ⟨h.id, h.mid, hnew⟩
  have hends := (h.fills_iff.mp hfills).agree
    (@Header.agree _ _ _ body _ _ _ (recordOf labels algLabels rr) h hhead)
  have hlast := fun s => @skipRecords_recordOf _ _ _ _ _ s hlabels hlen hdrop
  have hsize := @Header.length_eq _ _ _ (body ++ recordOf labels algLabels rr) hhead
  generalize hbuf : id ++ (mid ++ (new ++ (body ++ recordOf labels algLabels rr))) = buf at *
  have h10 : uint16 buf 10 = beValue count + 1 := by
    rw [← hbuf, hhead.count_eq, hcount]
  have h4 : uint16 buf 4 = uint16 mid 2 := by
    rw [← hbuf]
    exact hhead.mid_eq (i := 2) (by omega)
  have h6 : uint16 buf 6 = uint16 mid 4 := by
    rw [← hbuf]
    exact hhead.mid_eq (i := 4) (by omega)
  have h8 : uint16 buf 8 = uint16 mid 6 := by
    rw [← hbuf]
    exact hhead.mid_eq (i := 6) (by omega)
  obtain ⟨off, s, hquestions, hrecords⟩ := hends
  refine bind_eq_ok.mpr ⟨(), ensure_eq_ok.mpr (by omega), bind_eq_ok.mpr ⟨(),
    ensure_eq_ok.mpr (by omega), bind_eq_ok.mpr ⟨off, h4 ▸ hquestions, bind_eq_ok.mpr
      ⟨(12 + body.length, buf.length), ?_, bind_eq_ok.mpr ⟨(), ensure_eq_ok.mpr rfl, rfl⟩⟩⟩⟩⟩
  rw [h6, h8, h10, ← Nat.add_assoc]
  exact skipRecords_snoc.mpr ⟨s, _, hrecords, hlast s⟩

/-- What `verify` reports of a record under the key and the algorithm that it names. -/
theorem verify_of {digest : Bytes} (hlen : 12 ≤ buf.length) (hstart : findTsigRr buf = .ok rrStart)
    (hparse : parseTsigRr buf rrStart = .ok rr) (hkey : findKey opts rr.keyName = some key)
    (halg : normAlg (if key.algorithm.getD [] = [] then some rr.algName else key.algorithm)
      opts.allowLegacy = .ok alg)
    (hname : alg.name = rr.algName.map smallUnit)
    (hdigest : verifyDigest buf rrStart rr opts.requestMac = .ok digest) :
    ∃ r, verify hmac clock buf opts = .ok r ∧
      r.macValid = macMatches rr.mac (hmac alg.hash key.secret digest) ∧
      r.timeValid = decide (|opts.now.getD clock - (rr.timeSigned : Rat)| ≤ (rr.fudge : Rat)) := by
  have hrest : ∃ r, verify hmac clock buf opts = .ok r ∧ r = ⟨rr.keyName, rr.algName, rr.timeSigned,
      rr.fudge, if macMatches rr.mac (hmac alg.hash key.secret digest) then
        (if |opts.now.getD clock - (rr.timeSigned : Rat)| ≤ (rr.fudge : Rat) then rr.error else 18)
        else 16, macMatches rr.mac (hmac alg.hash key.secret digest),
      decide (|opts.now.getD clock - (rr.timeSigned : Rat)| ≤ (rr.fudge : Rat))⟩ := by
    refine ⟨_, bind_eq_ok.mpr ⟨(), ensure_eq_ok.mpr hlen, bind_eq_ok.mpr ⟨rrStart, hstart,
      bind_eq_ok.mpr ⟨rr, hparse, ?_⟩⟩⟩, rfl⟩
    dsimp only
    rw [hkey]
    refine bind_eq_ok.mpr ⟨alg, halg, ?_⟩
    rw [if_neg (not_not_intro hname)]
    refine bind_eq_ok.mpr ⟨digest, hdigest, ?_⟩
    simp only [decide_eq_true_eq]
  obtain ⟨r, hr, rfl⟩ := hrest
  exact ⟨_, hr, rfl, rfl⟩

/-- A message that was signed is verified under its key. -/
theorem verify_signed {message : Bytes} {opts : SignOpts} {signed : Signed} {vopts : VerifyOpts}
    {now : Int} (hfills : Fills message) (hsign : sign hmac clock message opts = .ok signed)
    (hkey : findKey vopts opts.keyName = some ⟨opts.secret, opts.algorithm⟩)
    (hrequest : vopts.requestMac = opts.requestMac)
    (hlegacy : opts.allowLegacy = true → vopts.allowLegacy = true) :
    ∃ r, verify hmac now signed.wire vopts = .ok r ∧ r.macValid = true ∧
      (r.timeValid = true ↔ |vopts.now.getD now - (⌊opts.time.getD clock⌋ : Rat)| ≤
        (⌊opts.fudge.getD 300⌋ : Rat)) := by
  obtain ⟨alg, labels, algLabels, rr, start, w⟩ := sign_ok hsign
  obtain ⟨hgood, hshort⟩ := presentationNameLabels_good w.keyLabels
  obtain ⟨hgoodAlg, -⟩ := presentationNameLabels_good w.algNameLabels
  obtain ⟨hknown, hagain, -⟩ := normAlg_ok w.algFound
  obtain ⟨algLabels', halgLabels', htext, hsmall⟩ := hknown.name
  obtain rfl := Option.some.inj (w.algNameLabels.symm.trans halgLabels')
  obtain ⟨id, mid, count, body, hhead, rfl⟩ := exists_header w.length
  have hcountRange := w.countRange
  rw [hhead.count_eq] at hcountRange
  have hnew : (beBytes 2 (beValue count + 1)).length = 2 := length_beBytes 2 _
  have hhead' : Header id mid (beBytes 2 (beValue count + 1)) := ⟨hhead.id, hhead.mid, hnew⟩
  have hout : signed.wire = (id ++ (mid ++ (beBytes 2 (beValue count + 1) ++ body))) ++
      recordOf labels algLabels rr := by
    rw [w.wire, hhead.count_eq, hhead.write_count]
  have htake : signed.wire.take (12 + body.length) =
      id ++ (mid ++ (beBytes 2 (beValue count + 1) ++ body)) := by
    rw [hout, ← hhead'.length_eq, List.take_left]
  have hdrop : signed.wire.drop (12 + body.length) = recordOf labels algLabels rr := by
    rw [hout, ← hhead'.length_eq, List.drop_left]
  have hstart : findTsigRr signed.wire = .ok (12 + body.length) := by
    rw [hout] at hdrop ⊢
    simp only [List.append_assoc] at hdrop ⊢
    exact findTsigRr_recordOf hhead hfills hnew (beValue_beBytes hcountRange) hgood w.rdataRange
      hdrop
  have hparse : parseTsigRr signed.wire (12 + body.length) = .ok rr :=
    parseTsigRr_recordOf hgood hgoodAlg w.range w.rdataRange w.keyName
      (w.algName.trans htext.symm) hdrop
  have halg : normAlg (if opts.algorithm.getD [] = [] then some rr.algName else opts.algorithm)
      vopts.allowLegacy = .ok alg := by
    refine normAlg_mono ?_ hlegacy
    split
    · rw [w.algName]
      exact hagain
    · exact w.algFound
  have hcountValue : beBytes 2 (beValue count) = count := beBytes_beValue hhead.count
  have hid : (beBytes 2 rr.originalId).length = 2 := length_beBytes 2 _
  have hsigned : Header (beBytes 2 rr.originalId) mid (beBytes 2 (beValue count + 1)) :=
    ⟨hid, hhead.mid, hnew⟩
  have hdigest : verifyDigest signed.wire (12 + body.length) rr vopts.requestMac = .ok
      (start ++ write16 (id ++ (mid ++ (count ++ body))) 0 (beBytes 2 rr.originalId) ++
        variableBytes labels algLabels rr.timeSigned rr.fudge rr.error rr.otherData) := by
    have hfield : field 2 ((uint16 (write16 (signed.wire.take (12 + body.length)) 0
        (beBytes 2 rr.originalId)) 10 : Rat) - 1) = .ok count := by
      rw [htake, hhead'.write_id, hsigned.count_eq, beValue_beBytes hcountRange, Nat.cast_add,
        Nat.cast_one, add_sub_cancel_right, field_nat (by omega), hcountValue]
    have hvars : tsigVariables rr.keyName (rr.algName ++ units ".") rr.timeSigned rr.fudge rr.error
        rr.otherData =
          .ok (variableBytes labels algLabels rr.timeSigned rr.fudge rr.error rr.otherData) := by
      refine tsigVariables_nat ?_ ?_ w.range.time w.range.fudge w.range.error w.range.other
      · rw [w.keyName, presentationNameLabels_fullText hgood hshort]
      · rw [w.algName, w.algNameLabels]
    refine bind_eq_ok.mpr ⟨start, hrequest ▸ w.requestMac, bind_eq_ok.mpr ⟨_,
      field_nat w.range.id, bind_eq_ok.mpr ⟨count, hfield, bind_eq_ok.mpr ⟨_, hvars, ?_⟩⟩⟩⟩
    rw [htake, hhead'.write_id, hsigned.write_count, hhead.write_id]
  have hlen : 12 ≤ signed.wire.length := by
    rw [hout, List.length_append, hhead'.length_eq]
    omega
  have hname : alg.name = rr.algName.map smallUnit := by rw [w.algName, hsmall]
  have hkeyFound : findKey vopts rr.keyName = some ⟨opts.secret, opts.algorithm⟩ := by
    rw [w.keyName, findKey_fullText vopts w.keyLabels, hkey]
  obtain ⟨r, hr, hvalid, htime⟩ :=
    @verify_of _ _ hmac now vopts _ _ alg _ hlen hstart hparse hkeyFound halg hname hdigest
  refine ⟨r, hr, ?_, ?_⟩
  · rw [hvalid, ← w.mac, macMatches, if_pos rfl]
    exact decide_eq_true rfl
  · rw [htime, decide_eq_true_iff, ← w.time, ← w.fudge, Int.cast_natCast, Int.cast_natCast]

/-- What is signed is verified, and what is verified was signed: with the whole numbers that a
record holds, and when it is known whether a message answers a request. -/
theorem signed_verified (hmac : Hmac) :
    (∀ (clock now : Int) (message : Bytes) (opts : SignOpts) (signed : Signed) (vopts : VerifyOpts),
      Fills message → sign hmac clock message opts = .ok signed →
      findKey vopts opts.keyName = some ⟨opts.secret, opts.algorithm⟩ →
      vopts.requestMac = opts.requestMac → (opts.allowLegacy = true → vopts.allowLegacy = true) →
      ∃ r, verify hmac now signed.wire vopts = .ok r ∧ r.macValid = true ∧
        (r.timeValid = true ↔ |vopts.now.getD now - (⌊opts.time.getD clock⌋ : Rat)| ≤
          (⌊opts.fudge.getD 300⌋ : Rat))) ∧
    ∀ (calls : List Call) (clock : Int) (buf : Bytes) (vopts : VerifyOpts) (rrStart : Nat)
      (rr : TsigRr) (key : Key) (alg : Alg), (∀ c ∈ calls, c.Signs hmac) →
      Unforged hmac calls alg.hash key.secret rr.mac →
      Accepted hmac clock buf vopts rrStart rr key alg →
      ∃ c ∈ calls, (∃ digest, c.Digests alg.hash key.secret digest ∧
          hmac alg.hash key.secret digest = rr.mac) ∧
        (c.opts.requestMac.isSome = vopts.requestMac.isSome →
          Carries c buf rrStart rr vopts.requestMac) :=
  ⟨fun _ _ _ _ _ _ hfills hsign hkey hrequest hlegacy =>
      verify_signed hfills hsign hkey hrequest hlegacy,
    fun _ _ _ _ _ _ _ _ hcalls hideal haccepted => haccepted.carries hcalls hideal⟩

/-- A MAC that is the digest itself. -/
def echo : Hmac := fun _ _ digest => digest

def sha256 : Alg := ⟨units "hmac-sha256", "sha256"⟩

/-- No section, and no record. -/
def emptyMessage : Bytes := List.replicate 12 0

def updateOpts : SignOpts :=
  ⟨units "Update.key.", [1], none, none, none, none, none, none, none, false⟩

def updateKey : VerifyOpts := ⟨none, some (units "update.key"), ⟨[1], none⟩, none, none, false⟩

def wireOf (clock : Int) (message : Bytes) (opts : SignOpts) : Bytes :=
  ((sign echo clock message opts).toOption.map Signed.wire).getD []

def rrOf (clock : Int) (message : Bytes) (opts : SignOpts) : TsigRr :=
  ⟨opts.keyName, sha256.name, 100, 300, (signDigest clock message opts sha256).toOption.getD [],
    uint16 message 0, 0, []⟩

theorem ok_of_isSome {α : Type} {x : Except TsigError α} (h : x.toOption.isSome = true) :
    ∃ a, x = .ok a := by
  cases x with
  | error e => cases h
  | ok a => exact ⟨a, rfl⟩

theorem sign_wireOf {message : Bytes} {opts : SignOpts}
    (h : (sign echo clock message opts).toOption.isSome = true) :
    ∃ signed, sign echo clock message opts = .ok signed ∧
      signed.wire = wireOf clock message opts := by
  obtain ⟨signed, hsigned⟩ := ok_of_isSome h
  refine ⟨signed, hsigned, ?_⟩
  rw [wireOf, hsigned]
  rfl

theorem unforged_echo {c : Call} {hash : String} {secret mac : Bytes}
    (h : c.Digests hash secret mac) : Unforged echo [c] hash secret mac := by
  intro digest hmac
  have hsame : digest = mac := hmac
  exact ⟨c, List.mem_singleton.mpr rfl, hsame ▸ h⟩

theorem accepted_echo (hok : (verify echo clock buf opts).toOption.any Result.macValid = true)
    (hstart : findTsigRr buf = .ok rrStart) (hparse : parseTsigRr buf rrStart = .ok rr)
    (hkey : findKey opts rr.keyName = some key)
    (halg : normAlg (if key.algorithm.getD [] = [] then some rr.algName else key.algorithm)
      opts.allowLegacy = .ok alg)
    (hdigest : verifyDigest buf rrStart rr opts.requestMac = .ok rr.mac) :
    Accepted echo clock buf opts rrStart rr key alg := by
  refine ⟨?_, hstart, hparse, hkey, halg, fun digest h => ?_⟩
  · obtain ⟨r, hr, hvalid⟩ := (Option.any_eq_true _ _).mp hok
    obtain ⟨r', hr'⟩ := ok_of_isSome (Option.isSome_iff_exists.mpr ⟨r, hr⟩)
    rw [hr'] at hr
    exact ⟨r, hr'.trans (congrArg Except.ok (Option.some.inj hr)), hvalid⟩
  · rw [← Except.ok.inj (hdigest.symm.trans h)]
    rfl

/-- A request that is signed at one time and verified within the fudge. -/
theorem signed_verified_update : ∃ signed r, sign echo 100 emptyMessage updateOpts = .ok signed ∧
    verify echo 400 signed.wire updateKey = .ok r ∧ (r.macValid = true ∧ r.timeValid = true) ∧
    Carries ⟨100, emptyMessage, updateOpts⟩ signed.wire 12 (rrOf 100 emptyMessage updateOpts)
      none := by
  obtain ⟨signed, hsign, hwire⟩ :=
    @sign_wireOf 100 emptyMessage updateOpts (by decide +kernel)
  have hfills : Fills emptyMessage := ⟨12, 0, by decide +kernel, by decide +kernel⟩
  obtain ⟨r, hr, hvalid, htime⟩ := (signed_verified echo).1 100 400 emptyMessage updateOpts signed
    updateKey hfills hsign (by decide +kernel) rfl id
  have hcall : Call.Digests ⟨100, emptyMessage, updateOpts⟩ sha256.hash [1]
      (rrOf 100 emptyMessage updateOpts).mac :=
    ⟨sha256, by decide +kernel, rfl, rfl, by decide +kernel⟩
  have haccepted : Accepted echo 400 signed.wire updateKey 12 (rrOf 100 emptyMessage updateOpts)
      ⟨[1], none⟩ sha256 := by
    rw [hwire]
    exact accepted_echo (by decide +kernel) (by decide +kernel) (by decide +kernel)
      (by decide +kernel) (by decide +kernel) (by decide +kernel)
  have hcalls : ∀ c ∈ [Call.mk 100 emptyMessage updateOpts], c.Signs echo := by
    intro c hc
    rw [List.mem_singleton.mp hc]
    exact ⟨hfills, signed, hsign⟩
  obtain ⟨c, hc, -, hcarries⟩ := (signed_verified echo).2 [⟨100, emptyMessage, updateOpts⟩] 400
    signed.wire updateKey 12 (rrOf 100 emptyMessage updateOpts) ⟨[1], none⟩ sha256 hcalls
    (unforged_echo hcall) haccepted
  rw [List.mem_singleton.mp hc] at hcarries
  exact ⟨signed, r, hsign, hr, ⟨hvalid, htime.mpr (by decide +kernel)⟩, hcarries rfl⟩

/-- Half a second past a full one, and no fudge. -/
def halfOpts : SignOpts := { updateOpts with time := some (1 / 2), fudge := some 0 }

/-- The MAC of a request that looks like a header with one record. -/
def requestMac : Bytes := [0, 0, 0, 0, 0, 0, 0, 0, 0, 1]

/-- An empty message whose ID looks like a pointer. -/
def answerMessage : Bytes := 0xC0 :: List.replicate 11 0

def answerOpts : SignOpts := { updateOpts with requestMac := some requestMac }

/-- The MAC of the request and the answer, read as one message. -/
def shiftedMessage : Bytes := [0, 10] ++ requestMac ++ answerMessage

/-- Half a second is lost; and an answer's digest is that of a request nobody signed. -/
theorem half_and_shifted :
    ((verify echo 0 (wireOf 0 emptyMessage halfOpts) updateKey).toOption.any
        (fun r => r.macValid && r.timeValid) = true ∧
      (sign echo 0 emptyMessage halfOpts).toOption.isSome = true ∧ ¬ |(0 : Rat) - 1 / 2| ≤ 0) ∧
    (Call.mk 100 answerMessage answerOpts).Signs echo ∧
    Unforged echo [⟨100, answerMessage, answerOpts⟩] sha256.hash [1]
      (rrOf 100 shiftedMessage updateOpts).mac ∧
    Accepted echo 100 (wireOf 100 shiftedMessage updateOpts) updateKey 24
      (rrOf 100 shiftedMessage updateOpts) ⟨[1], none⟩ sha256 ∧
    ¬ Carries ⟨100, answerMessage, answerOpts⟩ (wireOf 100 shiftedMessage updateOpts) 24
      (rrOf 100 shiftedMessage updateOpts) none := by
  have hfills : Fills answerMessage := ⟨12, 0, by decide +kernel, by decide +kernel⟩
  refine ⟨⟨by decide +kernel, by decide +kernel, by decide +kernel⟩,
    ⟨hfills, ok_of_isSome (by decide +kernel)⟩,
    unforged_echo ⟨sha256, by decide +kernel, rfl, rfl, by decide +kernel⟩, ?_,
    fun h => absurd h.message (by decide +kernel)⟩
  exact accepted_echo (by decide +kernel) (by decide +kernel) (by decide +kernel)
    (by decide +kernel) (by decide +kernel) (by decide +kernel)

end Blamejs.Tsig
