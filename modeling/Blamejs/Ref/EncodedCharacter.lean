import Blamejs.Js.LossyText
import Blamejs.Js.Search

/-!
# Encoded characters of Sieve strings (`_decodeEncodedCharacters` of `lib/safe-sieve.js`)

The scan goes over the openers of the text from left to right. It collects octets and not
characters, for a character's octets may be written as two runs, and it keeps the place of
the closing brace it found last. An index that is `-1` in the source is `none`.
-/

namespace Blamejs.EncodedCharacter

open Blamejs.Js

/-- What a text is refused for. -/
inductive Refusal where
  | nonScalar
  | nul
  | notUtf8
  deriving DecidableEq, Repr

/-- `ENCODED_KEYWORDS`. -/
inductive Keyword where
  | hex
  | unicode
  deriving DecidableEq, Repr

def Keyword.word : Keyword → JsString
  | .hex => units "hex"
  | .unicode => units "unicode"

def opener : JsString := units "$\x7b"

def closer : UInt16 := unit '\x7d'

/-- `_foldAscii`. -/
def foldAscii (c : UInt16) : UInt16 :=
  if 0x41 ≤ c.toNat ∧ c.toNat ≤ 0x5A then UInt16.ofNat (c.toNat + 0x20) else c

/-- `s.indexOf(pat, start)`. -/
def indexOf (s pat : JsString) (start : Nat) : Option Nat :=
  (search pat (s.drop start)).map (start + ·)

/-- `s.slice(start, stop)`. -/
def slice (s : JsString) (start stop : Nat) : JsString := (s.take stop).drop start

/-- `_hexDigitValue`. -/
def hexDigitValue (code : UInt16) : Option Nat :=
  let n := code.toNat
  if 0x30 ≤ n ∧ n ≤ 0x39 then some (n - 0x30)
  else if 0x41 ≤ n ∧ n ≤ 0x46 then some (n - 0x41 + 10)
  else if 0x61 ≤ n ∧ n ≤ 0x66 then some (n - 0x61 + 10)
  else none

/-- `_isBlank`. -/
def isBlank (code : UInt16) : Bool := code == 0x20 || code == 0x09

/-- One value of a run: the inner loop of `_hexRunValues`. `maxDigits` is `none` for
`Infinity`. -/
def readDigits (maxDigits : Option Nat) (value digits : Nat) :
    JsString → Option (Nat × Nat × JsString)
  | [] => some (value, digits, [])
  | c :: rest =>
      match hexDigitValue c with
      | none => some (value, digits, c :: rest)
      | some digit =>
          if maxDigits.any (· ≤ digits) then none
          else readDigits maxDigits (value * 16 + digit) (digits + 1) rest

/-- The values of a run behind its leading blanks: the outer loop of `_hexRunValues`. -/
def readValues (maxDigits : Option Nat) : Nat → JsString → Option (List Nat)
  | 0, _ => none
  | fuel + 1, body =>
      match readDigits maxDigits 0 0 body with
      | none => none
      | some (value, digits, rest) =>
          if digits = 0 then none
          else
            match rest with
            | [] => some [value]
            | c :: _ =>
                if isBlank c = false then none
                else if rest.dropWhile isBlank = [] then some [value]
                else (readValues maxDigits fuel (rest.dropWhile isBlank)).map (value :: ·)

/-- `_hexRunValues`. -/
def hexRunValues (maxDigits : Option Nat) (body : JsString) : Option (List Nat) :=
  if body.dropWhile isBlank = [] then none
  else readValues maxDigits body.length (body.dropWhile isBlank)

/-- `_hexRunOctets`. -/
def hexRunOctets (body : JsString) : Option (List UInt8) :=
  (hexRunValues (some 2) body).map fun values => values.map UInt8.ofNat

/-- The octets of the scalars of a run. -/
def scalarOctets : List Nat → Except Refusal (List UInt8)
  | [] => .ok []
  | scalar :: rest =>
      if scalar > 0x10FFFF ∨ (0xD800 ≤ scalar ∧ scalar ≤ 0xDFFF) then .error .nonScalar
      else (scalarOctets rest).map (String.utf8EncodeChar (Char.ofNat scalar) ++ ·)

/-- `_unicodeRunOctets`. -/
def unicodeRunOctets (body : JsString) : Except Refusal (Option (List UInt8)) :=
  match hexRunValues none body with
  | none => .ok none
  | some values => (scalarOctets values).map some

/-- `codepointClass.matchesAtFolded`. -/
def matchesAtFolded (text : JsString) (start : Nat) (needle : JsString) : Bool :=
  ((text.drop start).take needle.length).map foldAscii == needle.map foldAscii

/-- `_encodedKeywordAt`. -/
def encodedKeywordAt (s : JsString) (start : Nat) : Option Keyword :=
  [Keyword.hex, Keyword.unicode].find? fun k =>
    s[start + k.word.length]? == some (unit ':') && matchesAtFolded s start k.word

/-- The octets a payload stands for. -/
def runOctets : Keyword → JsString → Except Refusal (Option (List UInt8))
  | .hex, payload => .ok (hexRunOctets payload)
  | .unicode, payload => unicodeRunOctets payload

/-- The loop of `_decodeEncodedCharacters`, from the index `i` on. -/
def scan (s : JsString) : Nat → Nat → Option Nat → List UInt8 → Except Refusal (List UInt8)
  | 0, _, _, octets => .ok octets
  | fuel + 1, i, closeAt, octets =>
      if s.length ≤ i then .ok octets
      else
        match indexOf s opener i with
        | none => .ok (octets ++ utf8 (s.drop i))
        | some openAt =>
            match encodedKeywordAt s (openAt + 2) with
            | none => scan s fuel (openAt + 2) closeAt (octets ++ utf8 (slice s i (openAt + 2)))
            | some keyword =>
                let closeAt :=
                  if closeAt.all (· ≤ openAt) then indexOf s [closer] (openAt + 2) else closeAt
                match closeAt with
                | none => .ok (octets ++ utf8 (s.drop i))
                | some close =>
                    let payload := slice s (openAt + 2 + keyword.word.length + 1) close
                    match runOctets keyword payload with
                    | .error e => .error e
                    | .ok none =>
                        scan s fuel (openAt + 2) closeAt (octets ++ utf8 (slice s i (openAt + 2)))
                    | .ok (some decoded) =>
                        if 0 ∈ decoded then .error .nul
                        else
                          scan s fuel (close + 1) closeAt
                            (octets ++ utf8 (slice s i openAt) ++ decoded)

/-- The octets as text, when they are UTF-8. -/
def textOf (octets : List UInt8) : Except Refusal JsString :=
  let text := utf8Text octets
  if utf8 text = octets then .ok text else .error .notUtf8

/-- `_decodeEncodedCharacters`. -/
def decodeEncodedCharacters (s : JsString) : Except Refusal JsString :=
  if indexOf s opener 0 = none then .ok s
  else (scan s (s.length + 1) 0 none []).bind textOf

end Blamejs.EncodedCharacter
