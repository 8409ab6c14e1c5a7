import Blamejs.Js.Text

/-!
# Fields and their pieces (`lib/structured-fields.js`)

What the HTTP clients read a field with: the split that quoted strings are exempt
from, the contents of such a string, and the map the pieces are collected in.
-/

namespace Blamejs.StructuredFields

open Blamejs.Js

/-- `m.set(key, val)`: a key already present keeps its place. -/
def mapSet {α : Type} : List (JsString × α) → JsString → α → List (JsString × α)
  | [], k, v => [(k, v)]
  | (k', v') :: rest, k, v => if k' = k then (k, v) :: rest else (k', v') :: mapSet rest k v

/-! ## Splitting a field -/

/-- The scan of `splitTopLevel`; a piece that ends inside a quoted string is dropped. -/
def splitLoop (sep : UInt16) (inQuote escape : Bool) (piece : JsString) : JsString → List JsString
  | [] => if inQuote || escape then [] else [piece]
  | ch :: rest =>
      if escape then splitLoop sep inQuote false (piece ++ [ch]) rest
      else if inQuote then
        if ch = unit '\\' then splitLoop sep true true (piece ++ [ch]) rest
        else splitLoop sep (ch ≠ unit '"') false (piece ++ [ch]) rest
      else if ch = unit '"' then splitLoop sep true false (piece ++ [ch]) rest
      else if ch = sep then piece :: splitLoop sep false false [] rest
      else splitLoop sep false false (piece ++ [ch]) rest

/-- `splitTopLevel(s, sep)`. -/
def splitTopLevel (s : JsString) (sep : UInt16) : List JsString :=
  if s = [] then [] else splitLoop sep false false [] s

/-- `unescapeSfStringBody(body)`. -/
def unescapeSfStringBody : JsString → JsString
  | c :: n :: rest =>
      if c = unit '\\' ∧ (n = unit '\\' ∨ n = unit '"') then n :: unescapeSfStringBody rest
      else c :: unescapeSfStringBody (n :: rest)
  | body => body

end Blamejs.StructuredFields
