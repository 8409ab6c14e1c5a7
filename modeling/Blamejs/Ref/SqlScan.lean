import Blamejs.Js.NumberText

/-!
# The SQL scanners (`lib/safe-sql.js`)

`countPlaceholders`, `toPositional`, `normalizeForScan` and `assertSingleStatement` each walk
along a string with the same three inner loops, over a quoted span, a line comment and a
block comment; they differ in the characters that open a quoted span and in what they do with
what they pass. The length of the text is the fuel of the walk.
-/

namespace Blamejs.SqlScan

open Blamejs.Js

/-- The loop over a quoted span behind its opening quote: what it passes, whether it met the
closing quote, and what is left. -/
def quotedEnd (quote : UInt16) : JsString → JsString × Bool × JsString
  | [] => ([], false, [])
  | c :: rest =>
      if c = quote then
        match rest with
        | [] => ([c], true, [])
        | d :: rest' =>
            if d = quote then
              let r := quotedEnd quote rest'
              (c :: d :: r.1, r.2)
            else ([c], true, d :: rest')
      else
        let r := quotedEnd quote rest
        (c :: r.1, r.2)

/-- The loop over a block comment behind its opening. -/
def blockEnd : JsString → JsString × JsString
  | [] => ([], [])
  | c :: rest =>
      if c = unit '*' ∧ rest.head? = some (unit '/') then ([c, unit '/'], rest.tail)
      else
        let r := blockEnd rest
        (c :: r.1, r.2)

def newline : UInt16 := 0x0A

/-- `--` begins here. -/
def lineBegins (c : UInt16) (rest : JsString) : Bool :=
  c == unit '-' && rest.head? == some (unit '-')

/-- A block comment begins here. -/
def blockBegins (c : UInt16) (rest : JsString) : Bool :=
  c == unit '/' && rest.head? == some (unit '*')

/-- The quotes of `countPlaceholders`. -/
def countQuotes (c : UInt16) : Bool := c == unit '\'' || c == unit '"'

/-- A backtick. -/
def backtick : UInt16 := 0x60

/-- The quotes of `toPositional`. -/
def positionalQuotes (c : UInt16) : Bool := c == unit '\'' || c == unit '"' || c == backtick

/-- The quotes of `normalizeForScan`. -/
def normalizeQuotes (c : UInt16) : Bool := c == unit '\'' || c == unit '"' || c == backtick

/-- The quotes of `assertSingleStatement`. -/
def statementQuotes (c : UInt16) : Bool := c == unit '\'' || c == unit '"' || c == backtick

/-- The loop of `countPlaceholders`. -/
def countFrom : Nat → Nat → JsString → Nat
  | 0, count, _ => count
  | _ + 1, count, [] => count
  | fuel + 1, count, c :: rest =>
      if countQuotes c then countFrom fuel count (quotedEnd c rest).2.2
      else if lineBegins c rest then countFrom fuel count (rest.dropWhile (· != newline))
      else if blockBegins c rest then countFrom fuel count (blockEnd rest.tail).2
      else if c = unit '?' then countFrom fuel (count + 1) rest
      else countFrom fuel count rest

def countPlaceholders (sql : JsString) : Nat := countFrom sql.length 0 sql

inductive Dialect where
  | postgres
  | sqlite
  | mysql
  deriving DecidableEq, Repr

/-- The loop of `toPositional`. -/
def positionalFrom : Nat → Nat → JsString → JsString → JsString
  | 0, _, out, _ => out
  | _ + 1, _, out, [] => out
  | fuel + 1, n, out, c :: rest =>
      if positionalQuotes c then
        let r := quotedEnd c rest
        positionalFrom fuel n (out ++ c :: r.1) r.2.2
      else if lineBegins c rest then
        positionalFrom fuel n (out ++ c :: rest.takeWhile (· != newline))
          (rest.dropWhile (· != newline))
      else if blockBegins c rest then
        let r := blockEnd rest.tail
        positionalFrom fuel n (out ++ c :: unit '*' :: r.1) r.2
      else if c = unit '?' then
        positionalFrom fuel (n + 1) (out ++ unit '$' :: natText (n + 1)) rest
      else positionalFrom fuel n (out ++ [c]) rest

def toPositional (sql : JsString) (dialect : Dialect) : JsString :=
  if dialect ≠ .postgres then sql else positionalFrom sql.length 0 [] sql

/-- `codepointClass.isIdentifierChar`. -/
def isIdentifierChar (c : UInt16) : Bool :=
  (0x41 ≤ c.toNat && c.toNat ≤ 0x5A) || (0x61 ≤ c.toNat && c.toNat ≤ 0x7A) ||
    (0x30 ≤ c.toNat && c.toNat ≤ 0x39) || c.toNat == 0x5F

/-- A blank where an identifier character stands. -/
def blankAt (c : Option UInt16) : JsString := if c.any isIdentifierChar then units " " else []

/-- The loop of `normalizeForScan`. -/
def normalizeFrom : Nat → JsString → JsString → JsString
  | 0, out, _ => out
  | _ + 1, out, [] => out
  | fuel + 1, out, c :: rest =>
      if normalizeQuotes c then
        let r := quotedEnd c rest
        normalizeFrom fuel (out ++ blankAt out.getLast? ++ c :: r.1 ++ blankAt r.2.2.head?) r.2.2
      else if lineBegins c rest then
        normalizeFrom fuel (out ++ units " ") (rest.tail.dropWhile (· != newline))
      else if blockBegins c rest then
        normalizeFrom fuel (out ++ units " ") (blockEnd rest.tail).2
      else normalizeFrom fuel (out ++ [c]) rest

def normalizeForScan (sql : JsString) : JsString := normalizeFrom sql.length [] sql

/-- An error, with the suffix of its code. -/
structure Err where
  message : JsString
  suffix : String
  deriving DecidableEq, Repr

def stacked (label : JsString) : Err where
  message := label ++ units ": emitted a top-level ';' - exactly one statement"
  suffix := "stacked-statement"

def unterminated (label : JsString) : Err where
  message := label ++ units ": unterminated quote in SQL (quote-jump / breakout risk)"
  suffix := "unterminated-quote"

/-- The loop of `assertSingleStatement`: the depth of the parentheses at the end. -/
def statementFrom (label : JsString) : Nat → Int → JsString → Except Err Int
  | 0, depth, _ => .ok depth
  | _ + 1, depth, [] => .ok depth
  | fuel + 1, depth, c :: rest =>
      if statementQuotes c then
        let r := quotedEnd c rest
        if r.2.1 = false then .error (unterminated label) else statementFrom label fuel depth r.2.2
      else if lineBegins c rest then
        statementFrom label fuel depth (rest.dropWhile (· != newline))
      else if blockBegins c rest then statementFrom label fuel depth (blockEnd rest.tail).2
      else if c = unit '(' then statementFrom label fuel (depth + 1) rest
      else if c = unit ')' then statementFrom label fuel (depth - 1) rest
      else if c = unit ';' then .error (stacked label)
      else statementFrom label fuel depth rest

def assertSingleStatement (sql label : JsString) : Except Err JsString :=
  if sql = [] then .error ⟨label ++ units ": SQL must be a non-empty string", "empty-sql"⟩
  else if 0 ∈ sql then
    .error ⟨label ++ units ": SQL contains a NUL byte - rejected", "null-byte-sql"⟩
  else if ¬ WellFormed sql then
    .error ⟨label ++ units ": SQL contains invalid Unicode (lone surrogates) - rejected",
      "invalid-encoding-sql"⟩
  else do
    let depth ← statementFrom label sql.length 0 sql
    if depth ≠ 0 then .error ⟨label ++ units ": unbalanced parentheses in SQL", "unbalanced"⟩
    else .ok sql

end Blamejs.SqlScan
