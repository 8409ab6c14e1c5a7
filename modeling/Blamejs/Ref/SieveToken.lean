import Blamejs.Js.NumberText

/-!
# The tokenizer of Sieve scripts (`_tokenize` of `lib/safe-sieve.js`)

The text that is left stands for the index `i`. A turn of the loop (`next`) skips something
or reads one token, and every error is its message with the line and the column where the
scan stands.
-/

namespace Blamejs.SieveToken

open Blamejs.Js

/-- What the tokenizer reads of the caps of a profile. -/
structure Caps where
  maxStringBytes : Nat
  deriving DecidableEq, Repr

structure Pos where
  line : Nat
  col : Nat
  deriving DecidableEq, Repr

inductive Kind where
  | lbr
  | rbr
  | lsb
  | rsb
  | lp
  | rp
  | comma
  | semi
  | tag (v : JsString)
  | num (v : Double)
  | id (v : JsString)
  | str (v : JsString)
  | eof
  deriving DecidableEq, Repr

structure Token where
  k : Kind
  pos : Pos
  deriving DecidableEq, Repr

/-- `_error(msg)`. -/
def fail {α : Type} (msg : JsString) (pos : Pos) : Except JsString α :=
  .error (units "safeSieve.parse: " ++ msg ++ units " at line " ++ natText pos.line ++ units ":" ++
    natText pos.col)

def hexText (n : Nat) : JsString := (Nat.toDigits 16 n).map unit

def cr : UInt16 := 0x0D

def lf : UInt16 := 0x0A

def crlf : JsString := [cr, lf]

/-- `_advance`. -/
def Pos.advance (pos : Pos) (ch : UInt16) : Pos :=
  if ch = lf then ⟨pos.line + 1, 1⟩ else ⟨pos.line, pos.col + 1⟩

/-- `_advance` over every character of `l`. -/
def Pos.over (pos : Pos) (l : JsString) : Pos := l.foldl Pos.advance pos

def isIdStart (c : UInt16) : Bool :=
  (0x41 ≤ c.toNat && c.toNat ≤ 0x5A) || (0x61 ≤ c.toNat && c.toNat ≤ 0x7A) || c.toNat == 0x5F

def isIdCont (c : UInt16) : Bool :=
  isIdStart c || (0x30 ≤ c.toNat && c.toNat ≤ 0x39) || c.toNat == 0x2D

/-- What a block comment holds, and what follows it. -/
def blockComment : JsString → Option (JsString × JsString)
  | [] => none
  | c :: rest =>
      if c = unit '*' ∧ rest.head? = some (unit '/') then some ([], rest.tail)
      else (blockComment rest).map fun r => (c :: r.1, r.2)

/-- The terminating line of a multi-line string, with the end of the line before it. -/
def terminator : JsString := crlf ++ units "." ++ crlf

/-- What stands before the terminating line of a multi-line string, and what follows it. -/
def multiLine : JsString → Option (JsString × JsString)
  | [] => none
  | c :: rest =>
      if terminator.isPrefixOf (c :: rest) then some ([], (c :: rest).drop terminator.length)
      else (multiLine rest).map fun r => (c :: r.1, r.2)

/-- `raw.split("\r\n..").join("\r\n.")`. -/
def unstuff : JsString → JsString
  | a :: b :: c :: d :: rest =>
      if [a, b, c, d] = crlf ++ units ".." then crlf ++ units "." ++ unstuff rest
      else a :: unstuff (b :: c :: d :: rest)
  | l => l

/-- `raw` without its dot stuffing, the first line apart. -/
def multiLineBody (raw : JsString) : JsString :=
  let body := unstuff raw
  if (units "..").isPrefixOf body then body.drop 1 else body

/-- The length of a string in the message that refuses it. -/
def tooLong (what : String) (v : JsString) (caps : Caps) : JsString :=
  units what ++ natText (utf8 v).length ++ units " bytes exceeds maxStringBytes=" ++
    natText caps.maxStringBytes

/-- The comment between `text:` and the end of its line. -/
def textComment (s : JsString) : JsString :=
  if s.head? = some (unit '#') then s.takeWhile (· != lf) else []

/-- A multi-line string, behind `text:`. -/
def textLiteral (caps : Caps) (pos : Pos) (s : JsString) :
    Except JsString (Token × JsString) :=
  let pos := pos.over (textComment s)
  let s := s.drop (textComment s).length
  if crlf.isPrefixOf s = false then fail (units "`text:` must be followed by CRLF") pos
  else
    let body := s.drop 2
    match multiLine body with
    | none =>
        fail (units "unterminated multi-line string (missing CRLF.CRLF)")
          ⟨pos.line + 1 + (body.take (body.length - 2)).count lf, 1⟩
    | some (raw, rest) =>
        let pos : Pos := ⟨pos.line + 1 + raw.count lf + 1, 1⟩
        let body := multiLineBody raw
        if (utf8 body).length > caps.maxStringBytes then
          fail (tooLong "multi-line string " body caps) pos
        else .ok (⟨.str body, pos⟩, rest)

/-- A quoted string, behind its opening quote; `out` is what was read of it. -/
def quoted (caps : Caps) : JsString → JsString → Pos → Except JsString (Token × JsString)
  | [], _, pos => fail (units "unterminated string literal") pos
  | ch :: rest, out, pos =>
      if ch = unit '"' then
        if (utf8 out).length > caps.maxStringBytes then
          fail (tooLong "string literal " out caps) (pos.advance ch)
        else .ok (⟨.str out, pos.advance ch⟩, rest)
      else if ch = unit '\\' then
        match rest with
        | [] => fail (units "unterminated string escape") (pos.advance ch)
        | esc :: rest =>
            let piece := if esc = unit '"' then units "\"" else if esc = unit '\\' then units "\\"
              else [unit '\\', esc]
            quoted caps rest (out ++ piece) ((pos.advance ch).advance esc)
      else if ch = 0 then fail (units "NUL byte inside string literal") pos
      else
        -- a line feed is counted here and once more by `_advance`
        let pos := if ch = lf then ⟨pos.line + 1, 1⟩ else pos
        quoted caps rest (out ++ [ch]) (pos.advance ch)

/-- The factor of a number's suffix. -/
def quantifier (c : UInt16) : Option Nat :=
  if c = unit 'K' ∨ c = unit 'k' then some 1024
  else if c = unit 'M' ∨ c = unit 'm' then some (1024 * 1024)
  else if c = unit 'G' ∨ c = unit 'g' then some (1024 * 1024 * 1024)
  else none

/-- A number. The factors are powers of two, so one rounding does for `parseInt` and them. -/
def number (pos : Pos) (s : JsString) : Except JsString (Token × JsString) :=
  let digits := s.takeWhile isDigitUnit
  let rest := s.dropWhile isDigitUnit
  let pos := pos.over digits
  let suffix := rest.head?.bind quantifier
  let num := Double.ofDecimal false (digitsValue digits * suffix.getD 1) 0
  let read := rest.take (if suffix.isSome then 1 else 0)
  let pos := pos.over read
  if num.isFinite = false then fail (units "number overflowed") pos
  else .ok (⟨.num num, pos⟩, rest.drop read.length)

/-- The tokens of one character. -/
def punctuation (c : UInt16) : Option Kind :=
  if c = unit '\x7b' then some .lbr
  else if c = unit '\x7d' then some .rbr
  else if c = unit '[' then some .lsb
  else if c = unit ']' then some .rsb
  else if c = unit '(' then some .lp
  else if c = unit ')' then some .rp
  else if c = unit ',' then some .comma
  else if c = unit ';' then some .semi
  else none

/-- What a turn of the loop leaves: the token it read, the position and the text behind it. -/
abbrev Turn := Option Token × Pos × JsString

/-- The token that was read, at the position it carries. -/
def Turn.token (r : Token × JsString) : Turn := (some r.1, r.1.pos, r.2)

/-- The tokens, the second half of a turn at a character `c`. -/
def scanToken (caps : Caps) (pos : Pos) (c : UInt16) (rest : JsString) : Except JsString Turn :=
  if let some k := punctuation c then .ok (some ⟨k, pos⟩, pos.advance c, rest)
  else if c = unit ':' then
    if (rest.head?.any isIdStart) = false then
      fail (units "`:` not followed by identifier") (pos.advance c)
    else
      let tag := rest.takeWhile isIdCont
      .ok (.token (⟨.tag tag, (pos.advance c).over tag⟩, rest.drop tag.length))
  else if isDigitUnit c then (number pos (c :: rest)).map .token
  else if isIdStart c then
    let id := (c :: rest).takeWhile isIdCont
    let pos := pos.over id
    let rest := (c :: rest).drop id.length
    if id = units "text" ∧ rest.head? = some (unit ':') then
      (textLiteral caps (pos.advance (unit ':')) rest.tail).map .token
    else .ok (.token (⟨.id id, pos⟩, rest))
  else if c = unit '"' then (quoted caps rest [] (pos.advance c)).map .token
  else fail (units "unexpected byte 0x" ++ hexText c.toNat) pos

/-- One turn of the loop at a character `c`. -/
def next (caps : Caps) (pos : Pos) (c : UInt16) (rest : JsString) : Except JsString Turn :=
  if c = 0x20 ∨ c = 0x09 then .ok (none, pos.advance c, rest)
  else if c = cr then
    if rest.head? = some lf then .ok (none, ⟨pos.line + 1, 1⟩, rest.tail)
    else fail (units "bare CR (RFC 5228 §2.1 requires CRLF)") pos
  else if c = lf then .ok (none, pos.advance c, rest)
  else if c.toNat < 0x20 then
    fail (units "control byte 0x" ++ hexText c.toNat ++ units " refused outside string literal") pos
  else if c = 0x7F then fail (units "DEL byte refused outside string literal") pos
  else if c = unit '#' then
    let comment := (c :: rest).takeWhile (· != lf)
    .ok (none, pos.over comment, (c :: rest).drop comment.length)
  else if c = unit '/' ∧ rest.head? = some (unit '*') then
    let pos : Pos := ⟨pos.line, pos.col + 2⟩
    match blockComment rest.tail with
    | none => fail (units "unterminated block comment") (pos.over rest.tail.dropLast)
    | some (comment, rest) =>
        let pos := pos.over comment
        .ok (none, ⟨pos.line, pos.col + 2⟩, rest)
  else scanToken caps pos c rest

/-- The loop, with the tokens that follow a token. -/
def loop (caps : Caps) : Nat → Pos → JsString → Except JsString (List Token)
  | 0, _, _ => .error []
  | _ + 1, pos, [] => .ok [⟨.eof, pos⟩]
  | fuel + 1, pos, c :: rest => do
      let (token, pos', rest') ← next caps pos c rest
      let tokens ← loop caps fuel pos' rest'
      .ok (token.toList ++ tokens)

/-- What `_tokenize` reads from `i` on, the scan being at the line and column `pos`. -/
def tokenizeFrom (caps : Caps) (pos : Pos) (s : JsString) : Except JsString (List Token) :=
  loop caps (s.length + 1) pos s

/-- `_tokenize`. -/
def tokenize (script : JsString) (caps : Caps) : Except JsString (List Token) :=
  tokenizeFrom caps ⟨1, 1⟩ script

end Blamejs.SieveToken
