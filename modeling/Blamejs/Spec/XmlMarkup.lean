import Blamejs.Ref.XmlC14n

/-!
# The markup of an XML document

A text read from left to right without a tree: one unit of character data, a comment, a
CDATA section, a processing instruction, a start tag or an end tag after the other. The
tree of a text is right when it is the tree of these tags (`Accounts`); whether it can
be is a question about the tags alone (`Whole`).

A comment ends at the first `-->` behind its `<!--`, and a processing instruction at the
first `?>` behind its `<?`. The reader searches from the opening on, so that `<!-->`,
`<!--->` and `<?>` are whole for it; markup that is not `Clear` begins with one of these.
-/

namespace Blamejs.XmlC14n

open Blamejs.Js

/-! ## Reading -/

inductive Markup where
  | char (u : UInt16)
  | comment (text : JsString)
  | cdata (text : JsString)
  | instruction (text : JsString)
  | startTag (name : JsString) (attrs : List (JsString × JsString)) (empty : Bool)
  | endTag (name : JsString)
  deriving DecidableEq, Repr

/-- The text before the first `mark`, and the text behind it. -/
def upTo (mark s : JsString) : Option (JsString × JsString) :=
  (indexOf mark s).map fun n => (s.take n, s.drop (n + mark.length))

/-- What stands in a tag: words, and values in quotes. -/
inductive Lexeme where
  | word (w : JsString)
  | quoted (raw : JsString)
  deriving DecidableEq, Repr

/-- The rest of a tag up to the first `>` that is in no quotes, whether a `/` stands
right before that, and the text behind it. -/
def lexemes : Nat → JsString → Option (List Lexeme × Bool × JsString)
  | 0, _ => none
  | _ + 1, [] => none
  | fuel + 1, u :: s =>
      if u = unit '>' then some ([], false, s)
      else if u = unit '/' ∧ s.head? = some (unit '>') then some ([], true, s.drop 1)
      else if u = unit '"' ∨ u = unit '\'' then
        (upTo [u] s).bind fun p => (lexemes fuel p.2).map fun q => (.quoted p.1 :: q.1, q.2)
      else if isNameUnit u then
        (lexemes fuel (s.dropWhile isNameUnit)).map fun q =>
          (.word (u :: s.takeWhile isNameUnit) :: q.1, q.2)
      else lexemes fuel s

/-- The words with a value behind them. -/
def attributes : List Lexeme → List (JsString × JsString)
  | .word name :: .quoted raw :: ls => (name, raw) :: attributes ls
  | _ :: ls => attributes ls
  | [] => []

/-- The tag behind a `<`. -/
def tag (s : JsString) : Option (Markup × JsString) :=
  match lexemes (s.length + 1) s with
  | some (.word name :: ls, empty, rest) => some (.startTag name (attributes ls) empty, rest)
  | _ => none

/-- The first piece of markup and the text behind it. -/
def next (s : JsString) : Option (Markup × JsString) :=
  if (units "<!--").isPrefixOf s then
    (upTo (units "-->") (s.drop 4)).map fun p => (.comment p.1, p.2)
  else if (units "<![CDATA[").isPrefixOf s then
    (upTo (units "]]>") (s.drop 9)).map fun p => (.cdata p.1, p.2)
  else if (units "<?").isPrefixOf s then
    (upTo (units "?>") (s.drop 2)).map fun p => (.instruction p.1, p.2)
  else if (units "</").isPrefixOf s then
    (upTo (units ">") (s.drop 2)).map fun p => (.endTag p.1, p.2)
  else
    match s with
    | [] => none
    | u :: s => if u = unit '<' then tag s else some (.char u, s)

/-- The text begins with this markup and goes on with `rest`. -/
inductive Reads : JsString → List Markup → JsString → Prop
  | nil (s : JsString) : Reads s [] s
  | cons {s s' rest : JsString} {m : Markup} {ms : List Markup} (hnext : next s = some (m, s'))
      (hreads : Reads s' ms rest) : Reads s (m :: ms) rest

/-- No shorter reading of a comment or an instruction: neither `<!-->` nor `<!--->` nor
`<?>`. -/
def Markup.Clear : Markup → Prop
  | .comment text => ¬ units ">" <+: text ∧ ¬ units "->" <+: text
  | .instruction text => ¬ units ">" <+: text
  | _ => True

/-- White space, a comment or a processing instruction. -/
def Markup.IsMisc : Markup → Prop
  | .char u => isWhite u = true
  | .comment _ => True
  | .instruction _ => True
  | _ => False

/-! ## The tags alone -/

/-- Read with the number of elements that are open and with whether the root element
has begun: outside of it there are white space, comments and instructions only. -/
def OneRoot : Nat → Bool → List Markup → Prop
  | depth, seen, [] => depth = 0 ∧ seen = true
  | 0, seen, .startTag _ _ empty :: ms => seen = false ∧ OneRoot (if empty then 0 else 1) true ms
  | 0, seen, m :: ms => m.IsMisc ∧ OneRoot 0 seen ms
  | depth + 1, seen, .startTag _ _ empty :: ms =>
      OneRoot (if empty then depth + 1 else depth + 2) seen ms
  | depth + 1, seen, .endTag _ :: ms => OneRoot depth seen ms
  | depth + 1, seen, _ :: ms => OneRoot (depth + 1) seen ms

/-- No start tag gives one attribute twice. -/
def Markup.Distinct : Markup → Prop
  | .startTag _ attrs _ => (attrs.map Prod.fst).Nodup
  | _ => True

/-- The text is over where its root element and the misc behind it are, and no tag repeats
an attribute. -/
def Whole (s : JsString) : Prop :=
  ∃ ms, Reads s ms [] ∧ OneRoot 0 false ms ∧ ∀ m ∈ ms, m.Distinct

/-- Markup with a shorter reading stands only where nothing but misc is left. -/
def ClearBefore (ms : List Markup) : Prop :=
  ∀ l m r, ms = l ++ m :: r → m.Clear ∨ ∀ m' ∈ m :: r, m'.IsMisc

/-! ## The tree of the tags -/

/-- An attribute of a tag has this value in the tree. -/
def Reading (raw : JsString × JsString) (a : Attr) : Prop :=
  raw.1 = a.name ∧ attrValue raw.2 = .ok a.value

/-- The markup of an element with this content. -/
def enclosed (name : JsString) (attrs : List (JsString × JsString)) (empty : Bool)
    (content : List Markup) : List Markup :=
  .startTag name attrs empty :: if empty then [] else content ++ [.endTag name]

/-- The markup is the content of an element with these children. -/
inductive Content : List Markup → List Node → Prop
  | nil : Content [] []
  | comment (text : JsString) {ms : List Markup} {nodes : List Node} (h : Content ms nodes) :
      Content (.comment text :: ms) (.comment text :: nodes)
  | cdata (text : JsString) {ms : List Markup} {nodes : List Node} (h : Content ms nodes) :
      Content (.cdata text :: ms) (.text text true :: nodes)
  | instruction (text : JsString) {ms : List Markup} {nodes : List Node} (h : Content ms nodes) :
      Content (.instruction text :: ms) nodes
  | text {us text : JsString} {ms : List Markup} {nodes : List Node} (hne : us ≠ [])
      (htext : decodeEntities us = .ok text) (h : Content ms nodes) :
      Content (us.map .char ++ ms) (.text text false :: nodes)
  | element (name : JsString) {raws : List (JsString × JsString)} {attrs : List Attr}
      {empty : Bool} {inner ms : List Markup} {children nodes : List Node}
      (hattrs : List.Forall₂ Reading raws attrs) (hempty : empty = true → children = [])
      (hinner : Content inner children) (h : Content ms nodes) :
      Content (enclosed name raws empty inner ++ ms) (.element name attrs children :: nodes)

/-- The markup is that of the element. -/
def Element (ms : List Markup) (node : Node) : Prop :=
  ∃ name raws attrs empty inner children,
    ms = enclosed name raws empty inner ∧ node = .element name attrs children ∧
    List.Forall₂ Reading raws attrs ∧ (empty = true → children = []) ∧ Content inner children

/-- The markup is the start tag of an element with this name and these attributes. -/
def Markup.Opens (m : Markup) (e : JsString × List Attr) : Prop :=
  ∃ raws empty, m = .startTag e.1 raws empty ∧ List.Forall₂ Reading raws e.2

def Markup.isStart : Markup → Bool
  | .startTag _ _ _ => true
  | _ => false

/-- A start tag that bears the identifier. -/
def Markup.bears (attrName id : JsString) : Markup → Bool
  | .startTag _ raws _ =>
      raws.any fun raw => raw.1 == attrName && (attrValue raw.2).toOption == some id
  | _ => false

mutual

/-- The elements of a tree in document order. -/
def Node.elements : Node → List (JsString × List Attr)
  | .element name attrs children => (name, attrs) :: elementsAll children
  | .text _ _ => []
  | .comment _ => []

def elementsAll : List Node → List (JsString × List Attr)
  | [] => []
  | node :: nodes => node.elements ++ elementsAll nodes

end

/-- The tree accounts for the text. -/
structure Accounts (s : JsString) (root : Node) : Prop where
  /-- The text is misc, the markup of the root element, and misc. -/
  document : ∃ before inside after, Reads s (before ++ inside ++ after) [] ∧
    (∀ m ∈ before ++ after, m.IsMisc) ∧ Element inside root
  /-- Every start tag is an element of the tree, in its place. -/
  tags : ∀ ms, Reads s ms [] → List.Forall₂ Markup.Opens (ms.filter Markup.isStart) root.elements
  distinct : ∀ e ∈ root.elements, (e.2.map Attr.name).Nodup
  /-- The lookup counts every start tag that bears the identifier. -/
  lookup : ∀ ms attrName id, Reads s ms [] →
    (walk attrName id root).length = ms.countP (Markup.bears attrName id)

end Blamejs.XmlC14n
