import Blamejs.Ref.SafeDns

/-!
# Names as text (`_presentationName` and `_presentationNameLabels` of `lib/safe-dns.js`)

The scanner walks along the text with the labels so far, the octets of the label it is in
and the length the labels have on the wire. What cannot be read is `none`, the `null` of
the source.
-/

namespace Blamejs.SafeDns

open Blamejs.Js

/-- `_presentationName`. -/
def presentationName (labels : List Bytes) : JsString :=
  if labels.isEmpty then units "." else joinDots (labels.map presentationLabel)

/-- What is returned at the end of the text. -/
def endLabels (labels : List Bytes) (cur : Bytes) (wireLen : Nat) : Option (List Bytes) :=
  if cur.length > 0 then
    if wireLen + (cur.length + 1) > dnsMaxNameBytes then none else some (labels ++ [cur])
  else if wireLen > dnsMaxNameBytes then none
  else some labels

/-- The loop of `_presentationNameLabels`. -/
def scanLabels : JsString → List Bytes → Bytes → Nat → Option (List Bytes)
  | [], labels, cur, wireLen => endLabels labels cur wireLen
  | ch :: rest, labels, cur, wireLen =>
      if ch = unit '.' then
        if cur.length = 0 then none
        else scanLabels rest (labels ++ [cur]) [] (wireLen + (cur.length + 1))
      else if ch = unit '\\' then
        match rest with
        | [] => none
        | d1 :: tail =>
            if isDigitUnit d1 then
              match tail with
              | d2 :: d3 :: after =>
                  if isDigitUnit d2 = false ∨ isDigitUnit d3 = false then none
                  else
                    let v := (d1.toNat - 0x30) * 100 + (d2.toNat - 0x30) * 10 + (d3.toNat - 0x30)
                    if v > 0xFF then none
                    else if (cur ++ [UInt8.ofNat v]).length > dnsMaxLabelBytes then none
                    else scanLabels after labels (cur ++ [UInt8.ofNat v]) wireLen
              | _ => none
            else if d1.toNat > 0xFF then none
            else if (cur ++ [UInt8.ofNat d1.toNat]).length > dnsMaxLabelBytes then none
            else scanLabels tail labels (cur ++ [UInt8.ofNat d1.toNat]) wireLen
      else if ch.toNat > 0xFF then none
      else if (cur ++ [UInt8.ofNat ch.toNat]).length > dnsMaxLabelBytes then none
      else scanLabels rest labels (cur ++ [UInt8.ofNat ch.toNat]) wireLen

/-- `_presentationNameLabels`. -/
def presentationNameLabels (name : JsString) : Option (List Bytes) :=
  if name = [] ∨ name = units "." then some []
  else scanLabels name [] [] 1

end Blamejs.SafeDns
