import Blamejs.Js.Bytes
import Blamejs.Js.LossyText
import Blamejs.Js.NumberText
import Blamejs.Lib.LabelName

/-!
# Reading a DNS message (`parseResponse` of `lib/safe-dns.js`)

A reader gets the offset it begins at and returns the one it ends at. Offsets inside
RDATA are counted from its start. A name is read with a bound on the pointers that may
still be followed, and its labels with the length of the message as fuel.
-/

namespace Blamejs.SafeDns

open Blamejs.Js

abbrev Bytes := List UInt8

structure Caps where
  maxResponseBytes : Nat
  maxEdns0Bytes : Nat
  maxLabels : Nat
  maxPointerDepth : Nat
  maxAnswerRrs : Nat
  maxAuthorityRrs : Nat
  maxAdditionalRrs : Nat
  maxTxtRdata : Nat
  deriving DecidableEq, Repr

inductive Err where
  | oversizeResponse
  | truncatedHeader
  | oversizeAnswerRrs
  | oversizeAuthorityRrs
  | oversizeAdditionalRrs
  | truncatedRr
  | malformedRdlength
  | oversizePointerDepth
  | truncatedName
  | oversizeName
  | oversizeLabel
  | oversizeLabels
  | oversizeTxtRdata
  | oversizeEdns0
  /-- The bound on the labels that are left, which is never reached. -/
  | outOfFuel
  deriving DecidableEq, Repr

def dnsMaxLabelBytes : Nat := 63

def dnsMaxNameBytes : Nat := 255

def dnsHeaderBytes : Nat := 12

def dnsRrFixedBytes : Nat := 10

/-- `buf.slice(start, start + n)`. -/
def slice (buf : Bytes) (start n : Nat) : Bytes := (buf.drop start).take n

def uint8 (buf : Bytes) (off : Nat) : Nat := beValue (slice buf off 1)

def uint16 (buf : Bytes) (off : Nat) : Nat := beValue (slice buf off 2)

def uint32 (buf : Bytes) (off : Nat) : Nat := beValue (slice buf off 4)

/-! ## Names -/

/-- `_presentationLabel`. -/
def presentationLabel (label : Bytes) : JsString :=
  label.flatMap fun c =>
    let n := c.toNat
    if 0x20 < n ∧ n < 0x7F ∧ n ≠ 0x2E ∧ n ≠ 0x5C then [UInt16.ofNat n]
    else if n = 0x2E ∨ n = 0x5C then [unit '\\', UInt16.ofNat n]
    else
      unit '\\' ::
        ((if n < 10 then units "00" else if n < 100 then units "0" else []) ++ natText n)

def joinDots (labels : List JsString) : JsString := [unit '.'].intercalate labels

/-- The bytes and labels of a name so far. -/
structure Acc where
  bytes : Nat
  labels : Nat
  deriving DecidableEq, Repr

/-- The loop of `_readName`: the parts of the name and the offset behind it. -/
def walk (caps : Caps) (buf : Bytes) (follow : Nat → Acc → Except Err (JsString × Acc)) :
    Nat → Nat → Acc → Except Err (List JsString × Nat × Acc)
  | 0, _, _ => .error .outOfFuel
  | fuel + 1, off, acc =>
      match buf[off]? with
      | none => .error .truncatedName
      | some byte =>
          if byte = 0 then
            if dnsMaxNameBytes < acc.bytes + 1 then .error .oversizeName
            else .ok ([], off + 1, ⟨acc.bytes + 1, acc.labels⟩)
          else if 0xC0 ≤ byte.toNat then
            match buf[off + 1]? with
            | none => .error .truncatedName
            | some low =>
                let ptrOff := byte.toNat % 0x40 * 256 + low.toNat
                if buf.length ≤ ptrOff then .error .truncatedName
                else do
                  let (tailName, acc) ← follow ptrOff acc
                  .ok (if tailName = [] then [] else [tailName], off + 2, acc)
          else if dnsMaxLabelBytes < byte.toNat then .error .oversizeLabel
          else if buf.length < off + 1 + byte.toNat then .error .truncatedName
          else if caps.maxLabels < acc.labels + 1 then .error .oversizeLabels
          else if dnsMaxNameBytes < acc.bytes + (1 + byte.toNat) then .error .oversizeName
          else do
            let (labels, next, acc) ← walk caps buf follow fuel (off + 1 + byte.toNat)
              ⟨acc.bytes + (1 + byte.toNat), acc.labels + 1⟩
            .ok (presentationLabel (slice buf (off + 1) byte.toNat) :: labels, next, acc)

/-- `_readName`, with the names that may still be begun. -/
def readFrom (caps : Caps) (buf : Bytes) : Nat → Nat → Acc → Except Err (JsString × Nat × Acc)
  | 0, _, _ => .error .oversizePointerDepth
  | left + 1, off, acc => do
      let follow := fun ptrOff acc => do
        let (name, _, acc) ← readFrom caps buf left ptrOff acc
        .ok (name, acc)
      let (labels, next, acc) ← walk caps buf follow (buf.length + 1) off acc
      .ok (joinDots labels, next, acc)

/-- `_readName(state, 0)`: the name and the offset behind it. -/
def readName (caps : Caps) (buf : Bytes) (off : Nat) : Except Err (JsString × Nat) := do
  let (name, next, _) ← readFrom caps buf (caps.maxPointerDepth + 1) off ⟨0, 0⟩
  .ok (name, next)

/-! ## Records -/

inductive Decoded where
  | null
  | address (text : JsString)
  | name (text : JsString)
  | mx (preference : Nat) (exchange : JsString)
  | txt (strings : List JsString)
  | soa (mname rname : JsString) (serial refresh retry expire minimum : Nat)
  | srv (priority weight port : Nat) (target : JsString)
  | ds (keyTag algorithm digestType : Nat) (digest : Bytes)
  | dnskey (flags protocol algorithm : Nat) (publicKey : Bytes)
  | rrsig (typeCovered algorithm labels originalTtl sigExpiry sigInception keyTag : Nat)
      (signerName : JsString) (signature : Bytes)
  | tlsa (usage selector matchingType : Nat) (certData : Bytes)
  deriving DecidableEq, Repr

structure Rr where
  name : JsString
  type : Nat
  rclass : Nat
  ttl : Nat
  rdata : Bytes
  decoded : Decoded
  deriving DecidableEq, Repr

def dotted (bytes : Bytes) : JsString := joinDots (bytes.map fun b => natText b.toNat)

/-- The longest run of zero groups so far, and the one under way. -/
structure ZeroRuns where
  bestStart : Nat
  bestLen : Nat
  curStart : Nat
  curLen : Nat

def ZeroRuns.next (s : ZeroRuns) (group i : Nat) : ZeroRuns :=
  if group = 0 then
    let curStart := if s.curLen = 0 then i else s.curStart
    let curLen := s.curLen + 1
    if s.bestLen < curLen then ⟨curStart, curLen, curStart, curLen⟩
    else { s with curStart, curLen }
  else { s with curLen := 0 }

def hexText (n : Nat) : JsString := (Nat.toDigits 16 n).map unit

/-- `_formatIpv6`. -/
def formatIpv6 (rdata : Bytes) : JsString :=
  let groups := (List.range 8).map fun g => uint16 rdata (g * 2)
  if groups.take 6 = [0, 0, 0, 0, 0, 0xFFFF] then units "::ffff:" ++ dotted (rdata.drop 12)
  else
    let runs := groups.zipIdx.foldl (fun (s : ZeroRuns) p => s.next p.1 p.2) ⟨0, 0, 0, 0⟩
    let colons := fun groups => [unit ':'].intercalate (groups.map hexText)
    if runs.bestLen < 2 then colons groups
    else colons (groups.take runs.bestStart) ++ units "::" ++
      colons (groups.drop (runs.bestStart + runs.bestLen))

/-- The loop of `_decodeTxt`. -/
def txtStrings : Bytes → Except Err (List JsString)
  | [] => .ok []
  | len :: rest =>
      if rest.length < len.toNat then .error .malformedRdlength
      else do
        let strings ← txtStrings (rest.drop len.toNat)
        .ok (utf8Text (rest.take len.toNat) :: strings)
termination_by rdata => rdata.length
decreasing_by simp only [List.length_drop, List.length_cons]; omega

/-- `_decodeTxt`. -/
def decodeTxt (caps : Caps) (rdata : Bytes) : Except Err (List JsString) :=
  if caps.maxTxtRdata < rdata.length then .error .oversizeTxtRdata else txtStrings rdata

/-- `_decodeSoa`; the numbers lie inside RDATA, since that was checked. -/
def decodeSoa (names : Nat → Except Err (JsString × Nat)) (rdata : Bytes) : Except Err Decoded := do
  let (mname, off) ← names 0
  let (rname, off) ← names off
  if rdata.length < off + 20 then .error .malformedRdlength
  else .ok (.soa mname rname (uint32 rdata off) (uint32 rdata (off + 4)) (uint32 rdata (off + 8))
    (uint32 rdata (off + 12)) (uint32 rdata (off + 16)))

/-- The value of `decoded`; `names` reads a name at an offset of RDATA, in the whole
message. -/
def decodeRdata (caps : Caps) (names : Nat → Except Err (JsString × Nat)) (rtype : Nat)
    (rdata : Bytes) : Except Err Decoded :=
  let rdlen := rdata.length
  if rtype = 1 ∧ rdlen = 4 then .ok (.address (dotted rdata))
  else if rtype = 28 ∧ rdlen = 16 then .ok (.address (formatIpv6 rdata))
  else if rtype = 5 ∨ rtype = 2 ∨ rtype = 12 then do
    let (target, _) ← names 0
    .ok (.name target)
  else if rtype = 15 ∧ 3 ≤ rdlen then do
    let (exchange, _) ← names 2
    .ok (.mx (uint16 rdata 0) exchange)
  else if rtype = 16 then do
    let strings ← decodeTxt caps rdata
    .ok (.txt strings)
  else if rtype = 6 then decodeSoa names rdata
  else if rtype = 33 ∧ 7 ≤ rdlen then do
    let (target, _) ← names 6
    .ok (.srv (uint16 rdata 0) (uint16 rdata 2) (uint16 rdata 4) target)
  else if rtype = 43 ∧ 4 ≤ rdlen then
    .ok (.ds (uint16 rdata 0) (uint8 rdata 2) (uint8 rdata 3) (rdata.drop 4))
  else if rtype = 48 ∧ 4 ≤ rdlen then
    .ok (.dnskey (uint16 rdata 0) (uint8 rdata 2) (uint8 rdata 3) (rdata.drop 4))
  else if rtype = 46 ∧ 18 ≤ rdlen then do
    let (signer, next) ← names 18
    .ok (.rrsig (uint16 rdata 0) (uint8 rdata 2) (uint8 rdata 3) (uint32 rdata 4) (uint32 rdata 8)
      (uint32 rdata 12) (uint16 rdata 16) signer (rdata.drop next))
  else if rtype = 52 ∧ 3 ≤ rdlen then
    .ok (.tlsa (uint8 rdata 0) (uint8 rdata 1) (uint8 rdata 2) (rdata.drop 3))
  else .ok .null

/-- A name at an offset of RDATA. -/
def namesAt (caps : Caps) (buf : Bytes) (rdataStart k : Nat) : Except Err (JsString × Nat) := do
  let (name, next) ← readName caps buf (rdataStart + k)
  .ok (name, next - rdataStart)

/-- `_readRr`. -/
def readRr (caps : Caps) (buf : Bytes) (off : Nat) : Except Err (Rr × Nat) := do
  let (name, off) ← readName caps buf off
  if buf.length < off + dnsRrFixedBytes then .error .truncatedRr
  else
    let rtype := uint16 buf off
    let rclass := uint16 buf (off + 2)
    let ttl := uint32 buf (off + 4)
    let rdlen := uint16 buf (off + 8)
    let rdataStart := off + dnsRrFixedBytes
    if buf.length < rdataStart + rdlen then .error .malformedRdlength
    else do
      let rdata := slice buf rdataStart rdlen
      let decoded ← decodeRdata caps (namesAt caps buf rdataStart) rtype rdata
      .ok (⟨name, rtype, rclass, ttl, rdata, decoded⟩, rdataStart + rdlen)

/-! ## Messages -/

structure Question where
  name : JsString
  type : Nat
  qclass : Nat
  deriving DecidableEq, Repr

def readQuestion (caps : Caps) (buf : Bytes) (off : Nat) : Except Err (Question × Nat) := do
  let (qname, off) ← readName caps buf off
  if buf.length < off + 4 then .error .truncatedRr
  else .ok (⟨qname, uint16 buf off, uint16 buf (off + 2)⟩, off + 4)

structure Edns0 where
  advertisedUdpSize : Nat
  extendedRcode : Nat
  version : Nat
  dnssecOk : Bool
  rdata : Bytes
  deriving DecidableEq, Repr

/-- `_decodeOpt`. -/
def decodeOpt (caps : Caps) (rr : Rr) : Except Err Edns0 :=
  if caps.maxEdns0Bytes < rr.rclass then .error .oversizeEdns0
  else
    .ok ⟨rr.rclass, rr.ttl / 2 ^ 24 % 256, rr.ttl / 2 ^ 16 % 256, rr.ttl / 2 ^ 15 % 2 = 1,
      rr.rdata⟩

/-- A record of the additional section, with what it says if it is an OPT. -/
def readAdditional (caps : Caps) (buf : Bytes) (off : Nat) :
    Except Err ((Rr × Option Edns0) × Nat) := do
  let (rr, off) ← readRr caps buf off
  if rr.type = 41 then do
    let edns0 ← decodeOpt caps rr
    .ok ((rr, some edns0), off)
  else .ok ((rr, none), off)

/-- A loop over a section. -/
def readMany {α : Type} (read : Nat → Except Err (α × Nat)) : Nat → Nat → Except Err (List α × Nat)
  | 0, off => .ok ([], off)
  | n + 1, off => do
      let (x, off) ← read off
      let (xs, off) ← readMany read n off
      .ok (x :: xs, off)

structure Response where
  id : Nat
  rcode : Nat
  flags : Nat
  question : List Question
  answer : List Rr
  authority : List Rr
  additional : List Rr
  edns0 : Option Edns0
  deriving DecidableEq, Repr

/-- `parseResponse`. -/
def parseResponse (caps : Caps) (buf : Bytes) : Except Err Response :=
  let ancount := uint16 buf 6
  let nscount := uint16 buf 8
  let arcount := uint16 buf 10
  if caps.maxResponseBytes < buf.length then .error .oversizeResponse
  else if buf.length < dnsHeaderBytes then .error .truncatedHeader
  else if caps.maxAnswerRrs < ancount then .error .oversizeAnswerRrs
  else if caps.maxAuthorityRrs < nscount then .error .oversizeAuthorityRrs
  else if caps.maxAdditionalRrs < arcount then .error .oversizeAdditionalRrs
  else do
    let (question, off) ← readMany (readQuestion caps buf) (uint16 buf 4) dnsHeaderBytes
    let (answer, off) ← readMany (readRr caps buf) ancount off
    let (authority, off) ← readMany (readRr caps buf) nscount off
    let (additional, _) ← readMany (readAdditional caps buf) arcount off
    .ok ⟨uint16 buf 0, uint16 buf 2 % 16, uint16 buf 2, question, answer, authority,
      (additional.filter fun x => x.2.isNone).map Prod.fst,
      (additional.filterMap Prod.snd).getLast?⟩

end Blamejs.SafeDns
