import Blamejs.Js.LowerCase
import Blamejs.Js.NumberText
import Blamejs.Js.Search

/-!
# Tag balance of HTML (`check` of `lib/html-balance.js`)

The text that is left stands for the index `i`, and its place in the string is the length
of the string less its own. Only the end of a raw-text element is looked for by index, in
the small letters of the whole string.
-/

namespace Blamejs.HtmlBalance

open Blamejs.Js

/-- `VOID_TAGS`. -/
def voidTags : List JsString :=
  ["area", "base", "br", "col", "embed", "hr", "img", "input", "link", "meta", "param", "source",
    "track", "wbr"].map units

/-- `RAW_TEXT_TAGS`. -/
def rawTextTags : List JsString := ["script", "style", "textarea", "title"].map units

structure Pos where
  line : Nat
  column : Nat
  deriving DecidableEq, Repr

/-- `_posToLineColumn`. -/
def posToLineColumn (src : JsString) (pos : Nat) : Pos :=
  (src.take pos).foldl
    (fun p c => if c = 10 then ⟨p.line + 1, 1⟩ else ⟨p.line, p.column + 1⟩) ⟨1, 1⟩

/-- The issues, by their codes. -/
inductive Issue where
  | unterminatedComment (pos : Pos)
  | unterminatedTag (isClose : Bool) (tag : JsString) (pos : Pos)
  | voidClose (tag : JsString) (pos : Pos)
  | orphanClose (tag : JsString) (pos : Pos)
  | mismatchedClose (tag : JsString) (pos : Pos) (top : JsString) (openPos : Pos)
  | unclosedRawText (tag : JsString) (pos : Pos)
  | unclosedTag (tag : JsString) (pos : Pos)
  deriving DecidableEq, Repr

def Issue.code : Issue → JsString
  | .unterminatedComment _ => units "html/unterminated-comment"
  | .unterminatedTag _ _ _ => units "html/unterminated-tag"
  | .voidClose _ _ => units "html/void-close"
  | .orphanClose _ _ => units "html/orphan-close"
  | .mismatchedClose _ _ _ _ => units "html/mismatched-close"
  | .unclosedRawText _ _ => units "html/unclosed-raw-text"
  | .unclosedTag _ _ => units "html/unclosed-tag"

def atText (p : Pos) : JsString :=
  units " at line " ++ natText p.line ++ units " col " ++ natText p.column

def Issue.message : Issue → JsString
  | .unterminatedComment p => units "unterminated <!-- comment (no closing -->)" ++ atText p
  | .unterminatedTag isClose tag p =>
      units "unterminated tag '<" ++ (if isClose then units "/" else []) ++ tag ++
        units "' (no closing >)" ++ atText p
  | .voidClose tag p =>
      units "closing tag </" ++ tag ++ units "> for a void element" ++ atText p
  | .orphanClose tag p => units "</" ++ tag ++ units "> with no matching open tag" ++ atText p
  | .mismatchedClose tag p top openPos =>
      units "</" ++ tag ++ units ">" ++ atText p ++ units " does not match open <" ++ top ++
        units ">" ++ atText openPos
  | .unclosedRawText tag p => units "unclosed <" ++ tag ++ units "> raw-text element" ++ atText p
  | .unclosedTag tag p =>
      units "unclosed <" ++ tag ++ units ">" ++ atText p ++ units " (no matching </" ++ tag ++
        units ">)"

/-- `markupTokenizer.htmlCommentEnd`, on what stands behind `<!--`: what follows the
comment. -/
def htmlCommentEnd (t : JsString) : Option JsString :=
  if (units ">").isPrefixOf t then some (t.drop 1)
  else if (units "->").isPrefixOf t then some (t.drop 2)
  else
    match search (units "-->") t, search (units "--!>") t with
    | none, none => none
    | none, some b => some (t.drop (b + 4))
    | some a, none => some (t.drop (a + 3))
    | some a, some b => some (if a ≤ b then t.drop (a + 3) else t.drop (b + 4))

def isNameUnit (c : UInt16) : Bool :=
  (0x41 ≤ c.toNat && c.toNat ≤ 0x5A) || (0x61 ≤ c.toNat && c.toNat ≤ 0x7A) ||
    (0x30 ≤ c.toNat && c.toNat ≤ 0x39) || c == unit '-'

/-- What stands between a tag's name and its `>`, and what follows it; `inQuote` is the
quotation mark that is open. -/
def tagRest (inQuote : Option UInt16) : JsString → Option (JsString × JsString)
  | [] => none
  | ch :: t =>
      match inQuote with
      | some q => (tagRest (if ch = q then none else some q) t).map fun r => (ch :: r.1, r.2)
      | none =>
          if ch = 0x22 ∨ ch = 0x27 then (tagRest (some ch) t).map fun r => (ch :: r.1, r.2)
          else if ch = unit '>' then some ([], t)
          else (tagRest none t).map fun r => (ch :: r.1, r.2)

/-- The loop that looks for the end of a raw-text element, from `start` on. -/
def rawEnd (html lower rawClose : JsString) : Nat → Nat → Option Nat
  | 0, _ => none
  | fuel + 1, start =>
      if html.length ≤ start then none
      else
        match (search rawClose (lower.drop start)).map (start + ·) with
        | none => none
        | some idx =>
            if html[idx + rawClose.length]?.all (fun ac => ac == unit '>' || ac.toNat ≤ 0x20) then
              some idx
            else rawEnd html lower rawClose fuel (idx + 1)

/-- What is returned at the end of the text. -/
def leftover (html : JsString) (stack : List (JsString × Nat)) : Option Issue :=
  stack.head?.map fun top => .unclosedTag top.1 (posToLineColumn html top.2)

/-- What is done at a close tag: the stack below it, or the issue. -/
def closeTag (html tag : JsString) (i : Nat) (stack : List (JsString × Nat)) :
    Except Issue (List (JsString × Nat)) :=
  if tag ∈ voidTags then .error (.voidClose tag (posToLineColumn html i))
  else
    match stack with
    | [] => .error (.orphanClose tag (posToLineColumn html i))
    | top :: stack =>
        if top.1 ≠ tag then
          .error (.mismatchedClose tag (posToLineColumn html i) top.1 (posToLineColumn html top.2))
        else .ok stack

/-- The loop of `check` on the text that is left. The stack has its top first. -/
def scan (T : CaseTable) (html : JsString) :
    Nat → JsString → List (JsString × Nat) → Option Issue
  | 0, _, _ => none
  | _ + 1, [], stack => leftover html stack
  | fuel + 1, c :: t, stack =>
      let i := html.length - (c :: t).length
      if (units "<!--").isPrefixOf (c :: t) then
        match htmlCommentEnd ((c :: t).drop 4) with
        | none => some (.unterminatedComment (posToLineColumn html i))
        | some rest => scan T html fuel rest stack
      else if (units "<!").isPrefixOf (c :: t) then
        match search (units ">") (c :: t) with
        | none => leftover html stack
        | some gt => scan T html fuel ((c :: t).drop (gt + 1)) stack
      else if c = unit '<' then
        let isClose := t.head? == some (unit '/')
        let named := if isClose then t.tail else t
        let name := named.takeWhile isNameUnit
        if name = [] then scan T html fuel t stack
        else
          let tag := toLowerCase T name
          match tagRest none (named.dropWhile isNameUnit) with
          | none => some (.unterminatedTag isClose tag (posToLineColumn html i))
          | some (attrs, rest) =>
              if isClose then
                match closeTag html tag i stack with
                | .error issue => some issue
                | .ok stack => scan T html fuel rest stack
              else if attrs.getLast? = some (unit '/') ∨ tag ∈ voidTags then
                scan T html fuel rest stack
              else if tag ∈ rawTextTags then
                match rawEnd html (toLowerCase T html) (units "</" ++ tag) (html.length + 1)
                    (html.length - rest.length) with
                | none => some (.unclosedRawText tag (posToLineColumn html i))
                | some found =>
                    match search (units ">") (html.drop found) with
                    | none => leftover html stack
                    | some gt => scan T html fuel (html.drop (found + gt + 1)) stack
              else scan T html fuel rest ((tag, i) :: stack)
      else scan T html fuel t stack

/-- `check`. -/
def check (T : CaseTable) (html : JsString) : Option Issue :=
  if html = [] then none else scan T html (html.length + 1) html []

end Blamejs.HtmlBalance
