import Blamejs.Spec.MailText

/-!
# The canonical forms of DKIM (`lib/mail-dkim.js`)

A message is taken as its wire text, one character a byte. What is here is the way from a
message to the text that is hashed and signed: the split into fields and body, the two
forms of either, and the choice between them that a `c=` tag makes. Patterns that are
replaced through a text are written as the walk over it.
-/

namespace Blamejs.Dkim

open MailText

/-! ## Replacing through a text -/

/-- `s.replace(/\r?\n/g, "\r\n")`. -/
def normalizeCrlf : Text → Text
  | [] => []
  | u :: rest =>
      if u = cr ∧ rest.head? = some lf then normalizeCrlf rest
      else if u = lf then cr :: lf :: normalizeCrlf rest
      else u :: normalizeCrlf rest

/-- `s.split("\r\n")`. -/
def splitCrlf : Text → List Text
  | [] => [[]]
  | [u] => [[u]]
  | u :: v :: rest =>
      if u = cr ∧ v = lf then [] :: splitCrlf rest
      else (splitCrlf (v :: rest)).modifyHead (u :: ·)

/-- `s.replace(/[ \t]+/g, " ")`, told whether a blank was just replaced. -/
def collapseFrom (after : Bool) : Text → Text
  | [] => []
  | u :: rest =>
      if isBlank u then if after then collapseFrom true rest else sp :: collapseFrom true rest
      else u :: collapseFrom false rest

def collapse (s : Text) : Text := collapseFrom false s

/-- `s.replace(/\r?\n[ \t]+/g, " ")`, told whether the blanks after a line end are being
passed over. -/
def unfoldFrom (skip : Bool) : Text → Text
  | [] => []
  | u :: rest =>
      if skip ∧ isBlank u then unfoldFrom true rest
      else if u = cr ∧ rest.head? = some lf ∧ beginsBlank rest.tail then unfoldFrom false rest
      else if u = lf ∧ beginsBlank rest then sp :: unfoldFrom true rest
      else u :: unfoldFrom false rest

/-- `unfoldHeaderContinuations(value)`. -/
def unfoldHeaderContinuations (value : Text) : Text := unfoldFrom false value

/-- `stripTrailingHspace(s)`. -/
def stripTrailingHspace (s : Text) : Text := s.rdropWhile isBlank

/-- `s.toLowerCase()`, on the characters of the wire. -/
def toLowerCase (s : Text) : Text := s.map lowerUnit

/-! ## The canonical forms -/

/-- `s.replace(/^ | $/g, "")`. -/
def trimOne (s : Text) : Text :=
  let s := if s.head? = some sp then s.tail else s
  if s.getLast? = some sp then s.dropLast else s

/-- `_canonHeaderRelaxed(name, value)`. -/
def canonHeaderRelaxed (name value : Text) : Text :=
  let unfolded := unfoldHeaderContinuations value
  let trimmed := trimOne (collapse unfolded)
  toLowerCase name ++ [colon] ++ trimmed ++ crlf

/-- `_canonHeaderSimple(name, value)`. -/
def canonHeaderSimple (name value : Text) : Text := name ++ [colon] ++ value ++ crlf

/-- `_canonBodyRelaxed(body)`. -/
def canonBodyRelaxed (body : Text) : Text :=
  if body = [] then crlf
  else
    let normalized := normalizeCrlf body
    let lines := (splitCrlf normalized).map fun line => stripTrailingHspace (collapse line)
    let lines := lines.rdropWhile (· = [])
    if lines = [] then crlf else crlf.intercalate lines ++ crlf

/-- `while (s.endsWith("\r\n\r\n")) s = s.slice(0, -2)`. -/
def trimCrlf (s : Text) : Text :=
  if crlf ++ crlf <:+ s then trimCrlf (s.take (s.length - 2)) else s
termination_by s.length
decreasing_by
  rename_i h
  have := h.length_le
  simp only [crlf, List.length_append, List.length_cons, List.length_nil] at this
  simp only [List.length_take]
  omega

/-- `_canonBodySimple(body)`. -/
def canonBodySimple (body : Text) : Text :=
  if body = [] then crlf
  else
    let normalized := trimCrlf (normalizeCrlf body)
    if crlf <:+ normalized then normalized else normalized ++ crlf

/-! ## From a message to what is hashed -/

/-- `s.indexOf("\r\n\r\n")`. -/
def indexOfSeparator : Text → Option Nat
  | [] => none
  | u :: rest =>
      if (crlf ++ crlf).isPrefixOf (u :: rest) then some 0
      else (indexOfSeparator rest).map (· + 1)

/-- `_splitHeadersBody(rfc822)`: the fields and the body, or nothing where the separator is
missing. -/
def splitHeadersBody (rfc822 : Text) : Option (Text × Text) :=
  let text := normalizeCrlf rfc822
  (indexOfSeparator text).map fun sep => (text.take (sep + 2), text.drop (sep + 4))

structure Header where
  name : Text
  value : Text
deriving DecidableEq, Repr

/-- One line of `_parseHeaders`, over the fields read so far, the newest first. -/
def parseLine (out : List Header) (line : Text) : List Header :=
  if line = [] then out
  else if beginsBlank line then
    match out with
    | [] => []
    | h :: earlier => { h with value := h.value ++ crlf ++ line } :: earlier
  else if colon ∈ line then
    ⟨line.takeWhile (· != colon), (line.dropWhile (· != colon)).tail⟩ :: out
  else out

/-- `_parseHeaders(rawHeaders)`. -/
def parseHeaders (rawHeaders : Text) : List Header :=
  ((splitCrlf rawHeaders).foldl parseLine []).reverse

/-- The two halves of `sigTags.c || "simple/simple"`. -/
def canonicalizationOf (c : Option Text) : Option Text × Option Text :=
  let canonicalization := if c.getD [] = [] then ascii "simple/simple" else c.getD []
  ((canonicalization.splitOn slash)[0]?, (canonicalization.splitOn slash)[1]?)

/-- What `_bodyHashB64(body, algorithm, canonBody, lcap)` hashes. -/
def bodyHashInput (body : Text) (canonBody : Option Text) (lcap : Option Nat) : Text :=
  let canonicalized :=
    if canonBody = some (ascii "simple") then canonBodySimple body else canonBodyRelaxed body
  canonicalized.take (lcap.getD canonicalized.length)

end Blamejs.Dkim
