import Blamejs.Js.LossyText
import Blamejs.Js.ToNumber

/-!
# The XML reader of the canonicalization (`lib/xml-c14n.js`)

`parse` with its helpers, and the element lookup of `canonicalizeElementById`. The code
moves one position over the text; here each helper gets the text from the position on
and gives what it read with the text behind it. `total` is the length of the whole text,
which turns a remaining text back into the offset that an error names.

The serializer that the lookup ends in is not part of this model.
-/

namespace Blamejs.XmlC14n

open Blamejs.Js

/-- `XmlC14nError`. -/
structure Err where
  code : String
  message : JsString
  deriving DecidableEq, Repr

structure Attr where
  name : JsString
  value : JsString
  deriving DecidableEq, Repr

/-- A node of the tree, without the link to its parent. -/
inductive Node where
  | element (name : JsString) (attrs : List Attr) (children : List Node)
  | text (text : JsString) (isCdata : Bool)
  | comment (text : JsString)

/-- What `parse` may be called with. -/
inductive Input where
  | text (s : JsString)
  | buffer (bytes : List UInt8)
  | other
  deriving DecidableEq, Repr

def maxInputBytes : Nat := 8 * 1024 * 1024

def maxDepth : Nat := 200

/-! ## Text -/

/-- `s.indexOf(pat)`. -/
def indexOf (pat : JsString) : JsString → Option Nat
  | [] => if pat = [] then some 0 else none
  | u :: s => if pat.isPrefixOf (u :: s) then some 0 else (indexOf pat s).map (· + 1)

/-- `s.replace(/\r\n/g, w)`. -/
def replaceCrlf (w : UInt16) : JsString → JsString
  | [] => []
  | [u] => [u]
  | u :: v :: s =>
      if u = unit '\r' ∧ v = unit '\n' then w :: replaceCrlf w s
      else u :: replaceCrlf w (v :: s)

/-- An ASCII letter in upper case. -/
def upper (u : UInt16) : UInt16 :=
  if 97 ≤ u.toNat ∧ u.toNat ≤ 122 then u - 32 else u

/-- `/pat/i.test(s)` for a pattern in upper case. -/
def contains (pat s : JsString) : Bool := (indexOf pat (s.map upper)).isSome

/-- `parseInt(s, radix)`, none for NaN. -/
def parseInt (radix : Nat) (s : JsString) : Option Int :=
  let s := s.dropWhile isWhite
  let neg := s.head? = some (unit '-')
  let s := if neg ∨ s.head? = some (unit '+') then s.drop 1 else s
  let s := if radix = 16 ∧ (units "0X").isPrefixOf (s.map upper) then s.drop 2 else s
  let digits := s.takeWhile fun u => digitValue u < radix
  if digits = [] then none
  else
    let n := digits.foldl (fun acc u => acc * radix + digitValue u) 0
    some (if neg then -(n : Int) else n)

/-- `String.fromCodePoint`. -/
def fromCodePoint (n : Nat) : JsString :=
  if n < 0x10000 then [UInt16.ofNat n]
  else [UInt16.ofNat (0xD800 + (n - 0x10000) / 0x400),
    UInt16.ofNat (0xDC00 + (n - 0x10000) % 0x400)]

/-! ## Entities -/

/-- `_decodeEntity`. -/
def decodeEntity (name : JsString) : Except Err JsString :=
  let unknown : Err := ⟨"xml-c14n/unknown-entity",
    units "decodeEntities: unsupported entity reference \"&" ++ name ++ units ";\""⟩
  if name = units "amp" then .ok (units "&")
  else if name = units "lt" then .ok (units "<")
  else if name = units "gt" then .ok (units ">")
  else if name = units "quot" then .ok (units "\"")
  else if name = units "apos" then .ok (units "'")
  else if name.head? = some (unit '#') then
    let code :=
      if name[1]? = some (unit 'x') ∨ name[1]? = some (unit 'X') then
        parseInt 16 (name.drop 2)
      else parseInt 10 (name.drop 1)
    match code with
    | some n => if 0 ≤ n ∧ n ≤ 0x10ffff then .ok (fromCodePoint n.toNat) else .error unknown
    | none => .error unknown
  else .error unknown

/-- `_decodeEntities` from the place the loop has come to. -/
def decodeEntitiesFrom : Nat → JsString → Except Err JsString
  | 0, s => .ok s
  | fuel + 1, s =>
      match indexOf (units "&") s with
      | none => .ok s
      | some amp =>
          let behind := s.drop (amp + 1)
          match indexOf (units ";") behind with
          | none => .ok s
          | some 0 => do
              let rest ← decodeEntitiesFrom fuel behind
              .ok (s.take (amp + 1) ++ rest)
          | some semi => do
              let c ← decodeEntity (behind.take semi)
              let rest ← decodeEntitiesFrom fuel (behind.drop (semi + 1))
              .ok (s.take amp ++ c ++ rest)

def decodeEntities (s : JsString) : Except Err JsString := decodeEntitiesFrom s.length s

/-! ## Tags -/

section reader

variable (total : Nat)

/-- `err(msg)` with `rest` still to be read. -/
def err {α : Type} (rest : JsString) (msg : JsString) : Except Err α :=
  .error ⟨"xml-c14n/parse", units "parse: " ++ msg ++ units " at offset " ++
    natText (total - rest.length)⟩

def skipWhitespace (s : JsString) : JsString := s.dropWhile isWhite

/-- `skipProlog`: each round goes forward by three units at least. -/
def skipProlog : Nat → JsString → Except Err JsString
  | 0, s => .ok s
  | fuel + 1, s =>
      let s := skipWhitespace s
      if (units "<!--").isPrefixOf s then
        match indexOf (units "-->") s with
        | none => err total s (units "unterminated comment in prolog")
        | some stop => skipProlog fuel (s.drop (stop + 3))
      else if (units "<?").isPrefixOf s then
        match indexOf (units "?>") s with
        | none => err total s (units "unterminated processing instruction")
        | some stop => skipProlog fuel (s.drop (stop + 2))
      else .ok s

def isLetter (u : UInt16) : Bool :=
  (65 ≤ u.toNat && u.toNat ≤ 90) || (97 ≤ u.toNat && u.toNat ≤ 122)

/-- `[A-Za-z_:]` -/
def isNameStart (u : UInt16) : Bool := isLetter u || u == unit '_' || u == unit ':'

/-- `[A-Za-z0-9._:-]` -/
def isNameUnit (u : UInt16) : Bool :=
  isNameStart u || isDigitUnit u || u == unit '.' || u == unit '-'

def readName (s : JsString) : Except Err (JsString × JsString) :=
  match s with
  | [] => err total s (units "expected name")
  | u :: rest =>
      if isNameStart u then .ok (u :: rest.takeWhile isNameUnit, rest.dropWhile isNameUnit)
      else err total s (units "expected name")

/-- The loop of `readAttrValue`, up to behind the closing quote. -/
def readQuoted (quote : UInt16) : JsString → Except Err (JsString × JsString)
  | [] => err total [] (units "unterminated attribute value")
  | u :: s =>
      if u = quote then .ok ([], s)
      else if u = unit '<' then err total (u :: s) (units "'<' not allowed in attribute value")
      else do
        let (raw, rest) ← readQuoted quote s
        .ok (u :: raw, rest)

/-- The value an attribute has in the tree. -/
def attrValue (raw : JsString) : Except Err JsString :=
  decodeEntities ((replaceCrlf (unit ' ') raw).map fun u =>
    if u = unit '\r' ∨ u = unit '\n' ∨ u = unit '\t' then unit ' ' else u)

def readAttrValue (s : JsString) : Except Err (JsString × JsString) :=
  match s with
  | [] => err total s (units "attribute value must be quoted")
  | quote :: rest =>
      if quote = unit '"' ∨ quote = unit '\'' then do
        let (raw, rest) ← readQuoted total quote rest
        let value ← attrValue raw
        .ok (value, rest)
      else err total s (units "attribute value must be quoted")

/-- The attributes of a start tag, up to its `>` or `/`. -/
def readAttrs : Nat → JsString → Except Err (List Attr × JsString)
  | 0, s => .ok ([], s)
  | fuel + 1, s =>
      if s = [] ∨ s.head? = some (unit '>') ∨ s.head? = some (unit '/') then .ok ([], s)
      else do
        let (attrName, s) ← readName total s
        let s := skipWhitespace s
        if s.head? = some (unit '=') then
          let (value, s) ← readAttrValue total (skipWhitespace (s.drop 1))
          let (attrs, s) ← readAttrs fuel (skipWhitespace s)
          .ok (⟨attrName, value⟩ :: attrs, s)
        else err total s (units "expected '=' after attribute name")

/-- A start tag: its name and attributes, and whether it closes itself. -/
def startTag (s : JsString) : Except Err ((JsString × List Attr × Bool) × JsString) :=
  if s.head? = some (unit '<') then do
    let (name, s) ← readName total (s.drop 1)
    let s := skipWhitespace s
    let (attrs, s) ← readAttrs total s.length s
    if s.head? = some (unit '/') then
      if s[1]? = some (unit '>') then .ok ((name, attrs, true), s.drop 2)
      else err total (s.drop 1) (units "expected '>' after '/'")
    else if s.head? = some (unit '>') then .ok ((name, attrs, false), s.drop 1)
    else err total s (units "expected '>'")
  else err total s (units "expected '<'")

/-! ## Elements -/

/-- The children of an element up to behind its end tag; `child` reads an element. -/
def readContent (child : JsString → Except Err (Node × JsString)) (name : JsString) :
    Nat → JsString → Except Err (List Node × JsString)
  | 0, s => err total s (units "unterminated element </" ++ name ++ units ">")
  | fuel + 1, s =>
      if s = [] then err total s (units "unterminated element </" ++ name ++ units ">")
      else if (units "<!--").isPrefixOf s then
        match indexOf (units "-->") s with
        | none => err total s (units "unterminated comment")
        | some stop => do
            let (nodes, rest) ← readContent child name fuel (s.drop (stop + 3))
            .ok (.comment ((s.take stop).drop 4) :: nodes, rest)
      else if s.head? = some (unit '<') ∧ s[1]? ≠ some (unit '/') then
        if (units "<![CDATA[").isPrefixOf s then
          match indexOf (units "]]>") s with
          | none => err total s (units "unterminated CDATA")
          | some stop => do
              let (nodes, rest) ← readContent child name fuel (s.drop (stop + 3))
              .ok (.text ((s.take stop).drop 9) true :: nodes, rest)
        else if s[1]? = some (unit '?') then
          match indexOf (units "?>") s with
          | none => err total s (units "unterminated PI")
          | some stop => readContent child name fuel (s.drop (stop + 2))
        else do
          let (node, s) ← child s
          let (nodes, rest) ← readContent child name fuel s
          .ok (node :: nodes, rest)
      else if s.head? = some (unit '<') ∧ s[1]? = some (unit '/') then
        let closeTag := units "</" ++ name ++ units ">"
        if closeTag.isPrefixOf s then .ok ([], s.drop closeTag.length)
        else err total s (units "expected </" ++ name ++ units ">")
      else do
        let text ← decodeEntities (s.takeWhile (· ≠ unit '<'))
        let (nodes, rest) ← readContent child name fuel (s.dropWhile (· ≠ unit '<'))
        .ok (.text text false :: nodes, rest)

/-- `parseElement`, with the levels that are left where the code has those that were
gone into. -/
def parseElement : Nat → JsString → Except Err (Node × JsString)
  | 0, s => err total s (units "max nesting depth (200) exceeded")
  | levels + 1, s => do
      let ((name, attrs, selfClosing), s) ← startTag total s
      if selfClosing then .ok (.element name attrs [], s)
      else
        let (children, rest) ← readContent total (parseElement levels) name s.length s
        .ok (.element name attrs children, rest)

end reader

/-! ## Documents -/

/-- The text of the input, if it is one. -/
def Input.content : Input → Option JsString
  | .text s => some s
  | .buffer bytes => some (utf8Text bytes)
  | .other => none

/-- The text as it is read: without a byte-order mark, every line end a line feed. -/
def normalize (s : JsString) : JsString :=
  (replaceCrlf (unit '\n') (if s.head? = some 0xFEFF then s.drop 1 else s)).map fun u =>
    if u = unit '\r' then unit '\n' else u

/-- The tree of a normalized text. -/
def parseText (s : JsString) : Except Err Node := do
  let rest ← skipProlog s.length s.length s
  if rest = [] then err s.length rest (units "no root element")
  else
    let (root, _) ← parseElement s.length (maxDepth + 1) rest
    .ok root

def parse (xml : Input) : Except Err Node :=
  match xml.content with
  | none => .error ⟨"xml-c14n/bad-input", units "parse: input must be a string or Buffer"⟩
  | some s =>
      if s = [] then .error ⟨"xml-c14n/empty", units "parse: input is empty"⟩
      else if s.length > maxInputBytes then
        .error ⟨"xml-c14n/too-large", units "parse: input exceeds 8388608 bytes"⟩
      else
        let text := if s.head? = some 0xFEFF then s.drop 1 else s
        if contains (units "<!DOCTYPE") text then
          .error ⟨"xml-c14n/doctype-refused",
            units "parse: <!DOCTYPE> declarations refused for canonicalization input"⟩
        else if contains (units "<!ENTITY") text then
          .error ⟨"xml-c14n/entity-refused", units "parse: <!ENTITY> declarations refused"⟩
        else parseText (normalize s)

/-! ## Lookup -/

/-- The element bears the identifier. -/
def bears (attrName id : JsString) (attrs : List Attr) : Bool :=
  attrs.any fun a => a.name == attrName && a.value == id

mutual

/-- `walk`: the elements that bear the identifier, in document order. -/
def walk (attrName id : JsString) : Node → List Node
  | .element name attrs children =>
      (if bears attrName id attrs then [.element name attrs children] else []) ++
        walkAll attrName id children
  | .text _ _ => []
  | .comment _ => []

def walkAll (attrName id : JsString) : List Node → List Node
  | [] => []
  | node :: nodes => walk attrName id node ++ walkAll attrName id nodes

end

/-- `canonicalizeElementById` up to the element that it serializes. -/
def elementById (xml : Input) (id : JsString) (attrName : Option JsString) :
    Except Err Node := do
  if id = [] then
    .error ⟨"xml-c14n/no-id",
      units "canonicalizeElementById: id must be a non-empty string, got empty string"⟩
  let root ← parse xml
  let attrName := match attrName with
    | some name => if name = [] then units "ID" else name
    | none => units "ID"
  let found := attrName ++ units "=\"" ++ id ++ units "\""
  match walk attrName id root with
  | [] => .error ⟨"xml-c14n/no-match", units "canonicalizeElementById: no element with " ++ found⟩
  | [node] => .ok node
  | nodes =>
      .error ⟨"xml-c14n/duplicate-id", units "canonicalizeElementById: " ++
        natText nodes.length ++ units " elements share " ++ found ++
        units " — refusing (signature-wrapping defense)"⟩

end Blamejs.XmlC14n
