import Blamejs.Js.ToNumber
import Blamejs.Js.JsonText
import Blamejs.Ref.JsonPath

/-!
# JSONPath texts (`lib/json-path.js`)

The parser, `query` and `paths`. A parsing function takes what is left of the text, with the
nesting depth of the filter it is in, and gives what it leaves; a fault is told with the number of
units left where it is found. Each call takes one from a fuel, of which a text is given enough.

The evaluator is that of `_evalSegments` over the syntax as it is parsed, functions included; a
regular expression is run by `test`, which is given whether it is anchored, the pattern and the
input, and which a refusal of the pattern by the guard leaves by a fault.
-/

namespace Blamejs.JsonPathText

open Blamejs.Js JsonPath

inductive Fault where
  /-- `json-path/invalid` -/
  | invalid (message : String) (left : Nat)
  /-- `json-path/filter-too-deep` -/
  | tooDeep
  /-- `json-path/too-large` -/
  | tooLarge (message : String)
  /-- `json-path/unsafe-pattern` -/
  | unsafePattern
  /-- No fault of the code: the fuel is spent. -/
  | spent
  deriving DecidableEq, Repr

inductive FuncName where
  | length
  | count
  | value
  | match
  | search
  deriving DecidableEq, Repr

mutual

inductive Selector where
  | name (name : JsString)
  | wildcard
  | index (i : Int)
  | slice (start stop step : Option Int)
  | filter (e : Expr)

inductive Segment where
  | mk (descendant : Bool) (selectors : List Selector)

inductive Expr where
  | lit (v : Json)
  | query (absolute : Bool) (segments : List Segment)
  | func (name : FuncName) (args : List Expr)
  | or (a b : Expr)
  | and (a b : Expr)
  | not (e : Expr)
  | compare (op : Op) (a b : Expr)

end

/-! ## Types -/

inductive VType where
  | value
  | nodes
  | logical
  deriving DecidableEq, Repr

/-- `FUNCTIONS` -/
def FuncName.params : FuncName → List VType
  | .length => [.value]
  | .count => [.nodes]
  | .value => [.nodes]
  | .match => [.value, .value]
  | .search => [.value, .value]

def FuncName.ret : FuncName → VType
  | .length => .value
  | .count => .value
  | .value => .value
  | .match => .logical
  | .search => .logical

def FuncName.text : FuncName → String
  | .length => "length"
  | .count => "count"
  | .value => "value"
  | .match => "match"
  | .search => "search"

def FuncName.ofText (s : JsString) : Option FuncName :=
  [FuncName.length, .count, .value, .match, .search].find? fun name => units name.text = s

def Selector.single : Selector → Bool
  | .name _ => true
  | .index _ => true
  | _ => false

def Segment.single : Segment → Bool
  | .mk false [sel] => sel.single
  | _ => false

def Expr.vtype : Expr → VType
  | .lit _ => .value
  | .query _ segs => if segs.all Segment.single then .value else .nodes
  | .func name _ => name.ret
  | _ => .logical

/-- `_argMatches` -/
def argMatches (param : VType) (arg : Expr) : Bool :=
  match param with
  | .value => arg.vtype = .value
  | .nodes => match arg with
    | .query _ _ => true
    | .func _ _ => arg.vtype = .nodes
    | _ => false
  | .logical => arg.vtype = .logical

def err {α : Type} (message : String) (s : JsString) : Except Fault α :=
  .error (.invalid message s.length)

/-- `_requireComparable` -/
def requireComparable (e : Expr) (s : JsString) : Except Fault Unit :=
  match e with
  | .lit _ => .ok ()
  | .query _ _ =>
      if e.vtype = .value then .ok () else err "non-singular query is not comparable" s
  | .func name _ =>
      if name.ret = .value then .ok ()
      else err ("function '" ++ name.text ++ "' is not comparable (not ValueType)") s
  | _ => err "operand is not comparable" s

/-- `_requireTestable` -/
def requireTestable (e : Expr) (s : JsString) : Except Fault Unit :=
  match e with
  | .query _ _ => .ok ()
  | .func name _ =>
      if name.ret = .logical then .ok ()
      else err ("function '" ++ name.text ++ "' is not a valid test (not LogicalType)") s
  | .lit _ => err "expression is not a valid test" s
  | _ => .ok ()

/-! ## Tokens -/

def isBlank (u : UInt16) : Bool :=
  u = unit ' ' || u = unit '\t' || u = unit '\n' || u = unit '\r'

def isNameFirst (u : UInt16) : Bool :=
  (65 ≤ u.toNat && u.toNat ≤ 90) || (97 ≤ u.toNat && u.toNat ≤ 122) || u = unit '_' ||
    0x80 ≤ u.toNat

def isNameChar (u : UInt16) : Bool := isNameFirst u || isDigitUnit u

def isLower (u : UInt16) : Bool := 97 ≤ u.toNat && u.toNat ≤ 122

/-- What `peek` gives is `c`. -/
def starts (c : Char) (s : JsString) : Bool := s.head? = some (unit c)

def startsDigit (s : JsString) : Bool := s.head?.any isDigitUnit

def startsText (t : String) (s : JsString) : Bool := (units t).isPrefixOf s

def eat (c : Char) (s : JsString) : Except Fault JsString :=
  if starts c s then .ok s.tail else err ("expected '" ++ c.toString ++ "'") s

def skipBlank (s : JsString) : JsString := s.dropWhile isBlank

/-- `parseShorthand` -/
def parseShorthand (s : JsString) : Except Fault (Selector × JsString) :=
  match s with
  | [] => err "invalid member name" s
  | c :: rest =>
      if c = unit '*' then .ok (.wildcard, rest)
      else if isNameFirst c then
        .ok (.name (c :: rest.takeWhile isNameChar), rest.dropWhile isNameChar)
      else err "invalid member name" s

/-- The digits of `parseIntToken`, after the sign. -/
def parseDigits (neg : Bool) (s : JsString) : Except Fault (Int × JsString) :=
  match s with
  | [] => err "expected integer" s
  | u :: rest =>
      if u = unit '0' then
        if startsDigit rest then err "leading zero in integer" rest
        else if neg then err "negative zero" rest
        else .ok (0, rest)
      else if isDigitUnit u then
        let n := digitsValue (s.takeWhile isDigitUnit)
        let rest := s.dropWhile isDigitUnit
        if n < 2 ^ 53 then .ok (if neg then -n else n, rest) else err "integer out of range" rest
      else err "expected integer" s

def parseIntToken (s : JsString) : Except Fault (Int × JsString) :=
  if starts '-' s then parseDigits true s.tail else parseDigits false s

/-- The loop of `parseIndexOrSlice` that looks for a colon. -/
def isSlice : JsString → Bool
  | [] => false
  | c :: rest =>
      if c = unit ':' then true
      else if c = unit ',' || c = unit ']' then false
      else if isBlank c || c = unit '-' || isDigitUnit c then isSlice rest
      else false

def parseBound (s : JsString) : Except Fault (Option Int × JsString) :=
  if starts '-' s || startsDigit s then do
    let (n, s) ← parseIntToken s
    .ok (some n, s)
  else .ok (none, s)

def parseIndexOrSlice (s : JsString) : Except Fault (Selector × JsString) :=
  if isSlice s then do
    let (start, s) ← parseBound (skipBlank s)
    let s ← eat ':' (skipBlank s)
    let (stop, s) ← parseBound (skipBlank s)
    let s := skipBlank s
    if starts ':' s then do
      let (step, s) ← parseBound (skipBlank s.tail)
      .ok (.slice start stop step, s)
    else .ok (.slice start stop none, s)
  else do
    let (n, s) ← parseIntToken s
    .ok (.index n, s)

def hexOf (u : UInt16) : Option Nat :=
  let n := u.toNat
  if 48 ≤ n ∧ n ≤ 57 then some (n - 48)
  else if 65 ≤ n ∧ n ≤ 70 then some (n - 55)
  else if 97 ≤ n ∧ n ≤ 102 then some (n - 87)
  else none

/-- Four hex digits at the start of a text. -/
def hexFour : JsString → Option Nat
  | a :: b :: c :: d :: _ => do
      let a ← hexOf a
      let b ← hexOf b
      let c ← hexOf c
      let d ← hexOf d
      pure (((a * 16 + b) * 16 + c) * 16 + d)
  | _ => none

/-- What an escape other than `\u` stands for. -/
def simpleEscape (quote e : UInt16) : Option UInt16 :=
  if e = unit 'n' then some 0x0A
  else if e = unit 't' then some 0x09
  else if e = unit 'r' then some 0x0D
  else if e = unit 'b' then some 0x08
  else if e = unit 'f' then some 0x0C
  else if e = unit '/' then some (unit '/')
  else if e = unit '\\' then some (unit '\\')
  else if e = quote then some quote
  else none

/-- A `\u` escape, after its two characters: what it stands for, and how many units it takes. -/
def unicodeEscape (s : JsString) : Except Fault (JsString × Nat) :=
  match hexFour s with
  | none => err "invalid \\u escape" s
  | some cp =>
      let rest := s.drop 4
      if 0xD800 ≤ cp ∧ cp ≤ 0xDBFF ∧ startsText "\\u" rest then
        match hexFour (rest.drop 2) with
        | some lo =>
            if 0xDC00 ≤ lo ∧ lo ≤ 0xDFFF then .ok ([UInt16.ofNat cp, UInt16.ofNat lo], 10)
            else err "invalid surrogate pair" rest
        | none => err "invalid surrogate pair" rest
      else if 0xD800 ≤ cp ∧ cp ≤ 0xDFFF then err "lone surrogate in string" rest
      else .ok ([UInt16.ofNat cp], 4)

/-- `parseStringLiteral` after its first quote; `skip` units are the rest of an escape. -/
def stringBody (quote : UInt16) : Nat → JsString → Except Fault (JsString × JsString)
  | _, [] => err "unterminated string" []
  | skip + 1, _ :: rest => stringBody quote skip rest
  | 0, c :: rest =>
      if c = quote then .ok ([], rest)
      else if c = unit '\\' then
        match rest with
        | [] => err "invalid escape" rest
        | e :: rest' =>
            match simpleEscape quote e with
            | some u => do
                let (out, s) ← stringBody quote 1 rest
                .ok (u :: out, s)
            | none =>
                if e = unit 'u' then do
                  let (us, width) ← unicodeEscape rest'
                  let (out, s) ← stringBody quote (1 + width) rest
                  .ok (us ++ out, s)
                else err "invalid escape" rest'
      else if c.toNat ≤ 0x1F then err "unescaped control character in string" rest
      else do
        let (out, s) ← stringBody quote 0 rest
        .ok (c :: out, s)

/-- The digits of a number, of which there is one at least. -/
def someDigits (message : String) (s : JsString) : Except Fault JsString :=
  if startsDigit s then .ok (s.dropWhile isDigitUnit) else err message s

/-- The three parts of `parseNumber` after its sign. -/
def wholePart (s : JsString) : Except Fault JsString :=
  if starts '0' s then .ok s.tail else someDigits "invalid number" s

def fractionPart (s : JsString) : Except Fault JsString :=
  if starts '.' s then someDigits "invalid fraction" s.tail else .ok s

def exponentPart (s : JsString) : Except Fault JsString :=
  if starts 'e' s || starts 'E' s then
    someDigits "invalid exponent"
      (if starts '+' s.tail || starts '-' s.tail then s.tail.tail else s.tail)
  else .ok s

def parseNumber (s : JsString) : Except Fault (Double × JsString) := do
  let t ← wholePart (if starts '-' s then s.tail else s)
  let t ← fractionPart t
  let t ← exponentPart t
  .ok (stringToNumber (s.take (s.length - t.length)), t)

/-- A comparison operator and how long it is. -/
def peekCompareOp (s : JsString) : Option (Op × Nat) :=
  if startsText "==" s then some (.eq, 2)
  else if startsText "!=" s then some (.ne, 2)
  else if startsText "<=" s then some (.le, 2)
  else if startsText ">=" s then some (.ge, 2)
  else if starts '<' s then some (.lt, 1)
  else if starts '>' s then some (.gt, 1)
  else none

def maxFilterDepth : Nat := 200

/-- `_descend` of the parser. -/
def deeper (depth : Nat) : Except Fault Nat :=
  if depth + 1 > maxFilterDepth then .error .tooDeep else .ok (depth + 1)

/-- A literal of a filter, where there is one. -/
def parseLiteral (s : JsString) : Option (Except Fault (Expr × JsString)) :=
  if starts '\'' s || starts '"' s then
    some ((stringBody (s.headD 0) 0 s.tail).map fun p => (.lit (.str p.1), p.2))
  else if startsDigit s || starts '-' s then
    some ((parseNumber s).map fun p => (.lit (.num p.1), p.2))
  else if startsText "true" s then some (.ok (.lit (.bool true), s.drop 4))
  else if startsText "false" s then some (.ok (.lit (.bool false), s.drop 5))
  else if startsText "null" s then some (.ok (.lit .null, s.drop 4))
  else none

/-- The end of `parseFunction`, after its arguments. -/
def closeCall (name : FuncName) (args : List Expr) (s : JsString) :
    Except Fault (Expr × JsString) := do
  let t ← eat ')' (skipBlank s)
  if args.length ≠ name.params.length then
    err ("function '" ++ name.text ++ "' expects " ++ toString name.params.length ++
      " argument(s)") t
  else
    match (name.params.zip args).findIdx? fun p => !argMatches p.1 p.2 with
    | some k => err ("function '" ++ name.text ++ "' argument " ++ toString (k + 1) ++
        " type mismatch") t
    | none => .ok (.func name args, t)

mutual

def parseSegments : Nat → Nat → JsString → Except Fault (List Segment × JsString)
  | 0, _, _ => .error .spent
  | fuel + 1, depth, s =>
      let t := skipBlank s
      if starts '[' t then do
        let (sels, t) ← parseBracket fuel depth t.tail
        let (segs, t) ← parseSegments fuel depth t
        .ok (.mk false sels :: segs, t)
      else if starts '.' t then
        let t := t.tail
        if starts '.' t then do
          let (seg, t) ← parseDescendant fuel depth t.tail
          let (segs, t) ← parseSegments fuel depth t
          .ok (seg :: segs, t)
        else do
          let (sel, t) ← parseShorthand t
          let (segs, t) ← parseSegments fuel depth t
          .ok (.mk false [sel] :: segs, t)
      else .ok ([], s)

def parseDescendant : Nat → Nat → JsString → Except Fault (Segment × JsString)
  | 0, _, _ => .error .spent
  | fuel + 1, depth, s =>
      if starts '[' s then do
        let (sels, t) ← parseBracket fuel depth s.tail
        .ok (.mk true sels, t)
      else do
        let (sel, t) ← parseShorthand s
        .ok (.mk true [sel], t)

/-- `parseBracket` after the bracket. -/
def parseBracket : Nat → Nat → JsString → Except Fault (List Selector × JsString)
  | 0, _, _ => .error .spent
  | fuel + 1, depth, s => do
      let (sel, t) ← parseSelector fuel depth (skipBlank s)
      let t := skipBlank t
      if starts ',' t then
        let (sels, t) ← parseBracket fuel depth t.tail
        .ok (sel :: sels, t)
      else if starts ']' t then .ok ([sel], t.tail)
      else err "expected ',' or ']' in selection" t

def parseSelector : Nat → Nat → JsString → Except Fault (Selector × JsString)
  | 0, _, _ => .error .spent
  | fuel + 1, depth, s =>
      if starts '*' s then .ok (.wildcard, s.tail)
      else if starts '\'' s || starts '"' s then do
        let (name, t) ← stringBody (s.headD 0) 0 s.tail
        .ok (.name name, t)
      else if starts '?' s then do
        let (e, t) ← parseLogicalOr fuel depth (skipBlank s.tail)
        .ok (.filter e, t)
      else if starts ':' s || starts '-' s || startsDigit s then parseIndexOrSlice s
      else err "invalid selector" s

def parseLogicalOr : Nat → Nat → JsString → Except Fault (Expr × JsString)
  | 0, _, _ => .error .spent
  | fuel + 1, depth, s => do
      let (left, t) ← parseLogicalAnd fuel depth s
      orRest fuel depth left t

def orRest : Nat → Nat → Expr → JsString → Except Fault (Expr × JsString)
  | 0, _, _, _ => .error .spent
  | fuel + 1, depth, left, s =>
      let t := skipBlank s
      if startsText "||" t then do
        let (r, t) ← parseLogicalAnd fuel depth (skipBlank (t.drop 2))
        orRest fuel depth (.or left r) t
      else .ok (left, t)

def parseLogicalAnd : Nat → Nat → JsString → Except Fault (Expr × JsString)
  | 0, _, _ => .error .spent
  | fuel + 1, depth, s => do
      let (left, t) ← parseBasic fuel depth s
      andRest fuel depth left t

def andRest : Nat → Nat → Expr → JsString → Except Fault (Expr × JsString)
  | 0, _, _, _ => .error .spent
  | fuel + 1, depth, left, s =>
      let t := skipBlank s
      if startsText "&&" t then do
        let (r, t) ← parseBasic fuel depth (skipBlank (t.drop 2))
        andRest fuel depth (.and left r) t
      else .ok (left, t)

def parseBasic : Nat → Nat → JsString → Except Fault (Expr × JsString)
  | 0, _, _ => .error .spent
  | fuel + 1, depth, s =>
      let s := skipBlank s
      if starts '!' s then do
        let d ← deeper depth
        let (inner, t) ← parseBasic fuel d (skipBlank s.tail)
        requireTestable inner t
        .ok (.not inner, t)
      else if starts '(' s then do
        let d ← deeper depth
        let (e, t) ← parseLogicalOr fuel d (skipBlank s.tail)
        let t ← eat ')' (skipBlank t)
        .ok (e, t)
      else do
        let (first, t) ← parseComparableOrQuery fuel depth s
        let t := skipBlank t
        match peekCompareOp t with
        | some (op, width) =>
            let (second, t) ← parseComparableOrQuery fuel depth (skipBlank (t.drop width))
            requireComparable first t
            requireComparable second t
            .ok (.compare op first second, t)
        | none =>
            requireTestable first t
            .ok (first, t)

def parseComparableOrQuery : Nat → Nat → JsString → Except Fault (Expr × JsString)
  | 0, _, _ => .error .spent
  | fuel + 1, depth, s =>
      match parseLiteral s with
      | some r => r
      | none =>
          if starts '$' s || starts '@' s then parseFilterQuery fuel depth s
          else if s.head?.any isLower then parseFunction fuel depth s
          else err "expected a comparable or query in filter" s

def parseFilterQuery : Nat → Nat → JsString → Except Fault (Expr × JsString)
  | 0, _, _ => .error .spent
  | fuel + 1, depth, s => do
      let (segs, t) ← parseSegments fuel depth s.tail
      .ok (.query (starts '$' s) segs, t)

def parseFunction : Nat → Nat → JsString → Except Fault (Expr × JsString)
  | 0, _, _ => .error .spent
  | fuel + 1, depth, s =>
      let nameChar := fun u => isLower u || u = unit '_' || isDigitUnit u
      let t := s.dropWhile nameChar
      match FuncName.ofText (s.takeWhile nameChar) with
      | none =>
          err ("unknown function '" ++ String.ofList (scalars (s.takeWhile nameChar)) ++ "'") t
      | some name => do
          let t ← eat '(' t
          let t := skipBlank t
          if starts ')' t then closeCall name [] t
          else
            let (args, t) ← parseArgs fuel depth t
            closeCall name args t

/-- The loop of `parseFunction` over its arguments. -/
def parseArgs : Nat → Nat → JsString → Except Fault (List Expr × JsString)
  | 0, _, _ => .error .spent
  | fuel + 1, depth, s => do
      let (arg, t) ← parseFunctionArg fuel depth (skipBlank s)
      let t := skipBlank t
      if starts ',' t then
        let (args, t) ← parseArgs fuel depth t.tail
        .ok (arg :: args, t)
      else .ok ([arg], t)

def parseFunctionArg : Nat → Nat → JsString → Except Fault (Expr × JsString)
  | 0, _, _ => .error .spent
  | fuel + 1, depth, s =>
      match parseLiteral s with
      | some r => r
      | none =>
          if starts '$' s || starts '@' s then parseFilterQuery fuel depth s
          else if s.head?.any isLower then parseFunction fuel depth s
          else if starts '!' s || starts '(' s then parseLogicalOr fuel depth s
          else err "invalid function argument" s

end

/-- `_parse` -/
def parse (path : JsString) : Except Fault (List Segment) :=
  if starts '$' path then do
    let (segs, rest) ← parseSegments (8 * path.length + 1) 0 path.tail
    if rest = [] then .ok segs else err "trailing characters" rest
  else err "query must start with '$'" path

/-! ## Evaluation -/

def lift {α : Type} (x : Except JsonPath.Err α) : Except Fault α :=
  match x with
  | .ok a => .ok a
  | .error (.tooLarge message) => .error (.tooLarge message)

/-- `_singularValue` from its start on. -/
def singularValue : List Segment → Json → Option Json
  | [], v => some v
  | .mk _ (.name name :: _) :: segs, v => (member name v).bind (singularValue segs)
  | .mk _ (.index i :: _) :: segs, v => (element i v).bind (singularValue segs)
  | _ :: _, _ => none

section eval

variable (test : Bool → JsString → JsString → Except Fault Bool)

mutual

/-- `_applySelector` -/
def applySelector : Selector → Json → Node → Except Fault (List Node)
  | .name name, _, node =>
      .ok ((member name node.value).map fun v => ⟨v, node.path ++ [.name name]⟩).toList
  | .wildcard, _, node => .ok (children node)
  | .index i, _, node =>
      .ok (match node.value with
        | .arr items => ((place items.length i).bind fun n => pick node items n).toList
        | _ => [])
  | .slice start stop step, _, node => .ok (applySlice start stop step node)
  | .filter e, root, node => keep (evalLogical e root) (children node)

def applySelectors : List Selector → Json → Node → Except Fault (List Node)
  | [], _, _ => .ok []
  | sel :: sels, root, node => do
      let a ← applySelector sel root node
      let b ← applySelectors sels root node
      .ok (a ++ b)

/-- `_evalSegments` from a nodelist on. -/
def evalSegments : List Segment → Json → List Node → Except Fault (List Node)
  | [], _, nodes => .ok nodes
  | .mk descendant selectors :: segs, root, nodes => do
      let base ← (if descendant then lift (walk nodes) else .ok nodes)
      let found ← collect (applySelectors selectors root) base
      if found.length > maxTotalNodes then .error (.tooLarge
        "jsonPath: nodelist exceeded 1000000 nodes (chained selector cross-product)")
      else evalSegments segs root found

/-- `_evalComparable` and `_funcArgValue`; none is `NOTHING`. -/
def evalValue : Expr → Json → Node → Except Fault (Option Json)
  | .lit v, _, _ => .ok (some v)
  | .query absolute segs, root, current =>
      .ok (singularValue segs (if absolute then root else current.value))
  | .func .length [arg], root, current => do
      let v ← evalValue arg root current
      .ok (lengthOf v)
  | .func .count [arg], root, current => do
      let nodes ← evalNodes arg root current
      .ok (some (.num (.ofInt nodes.length)))
  | .func .value [arg], root, current => do
      let nodes ← evalNodes arg root current
      .ok (onlyValue nodes)
  | _, _, _ => .ok none

/-- `_queryNodes` and `_funcArgNodes`, to which the parser passes queries only; a query takes
its start for its root. -/
def evalNodes : Expr → Json → Node → Except Fault (List Node)
  | .query absolute segs, root, current =>
      let start := if absolute then root else current.value
      evalSegments segs start [⟨start, []⟩]
  | _, _, _ => .ok []

/-- `_evalLogical` -/
def evalLogical : Expr → Json → Node → Except Fault Bool
  | .or a b, root, current => do
      let x ← evalLogical a root current
      if x then .ok true else evalLogical b root current
  | .and a b, root, current => do
      let x ← evalLogical a root current
      if x then evalLogical b root current else .ok false
  | .not e, root, current => do
      let x ← evalLogical e root current
      .ok (!x)
  | .compare op a b, root, current => do
      let x ← evalValue a root current
      let y ← evalValue b root current
      .ok (compare op x y)
  | .query absolute segs, root, current => do
      let start := if absolute then root else current.value
      let nodes ← evalSegments segs start [⟨start, []⟩]
      .ok (!nodes.isEmpty)
  | .func name [a, b], root, current => do
      let input ← evalValue a root current
      let pat ← evalValue b root current
      match input, pat with
      | some (.str input), some (.str pat) => test (name = .match) pat input
      | _, _ => .ok false
  | _, _, _ => .ok false

end

/-- The nodes of a query. -/
def nodes (doc : Json) (path : JsString) : Except Fault (List Node) := do
  let segs ← parse path
  evalSegments test segs doc [⟨doc, []⟩]

def query (doc : Json) (path : JsString) : Except Fault (List Json) :=
  (nodes test doc path).map fun ns => ns.map Node.value

/-! ## Normalized paths -/

/-- `_normalizeName` -/
def normalizeUnit (u : UInt16) : JsString :=
  if u = unit '\'' then units "\\'"
  else if u = unit '\\' then units "\\\\"
  else if u = 0x08 then units "\\b"
  else if u = 0x09 then units "\\t"
  else if u = 0x0A then units "\\n"
  else if u = 0x0C then units "\\f"
  else if u = 0x0D then units "\\r"
  else if u.toNat < 0x20 then units "\\u" ++ hex4 u.toNat
  else [u]

def normalizeName (name : JsString) : JsString := name.flatMap normalizeUnit

def normalizeToken : Token → JsString
  | .index i => unit '[' :: (natText i ++ [unit ']'])
  | .name name => units "['" ++ (normalizeName name ++ units "']")

/-- `_normalizedPath` -/
def normalizedPath (tokens : List Token) : JsString := unit '$' :: tokens.flatMap normalizeToken

def paths (doc : Json) (path : JsString) : Except Fault (List JsString) :=
  (nodes test doc path).map fun ns => ns.map fun n => normalizedPath n.path

end eval

end Blamejs.JsonPathText
