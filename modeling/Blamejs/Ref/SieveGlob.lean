import Blamejs.Js.Text

/-!
# The `:matches` comparison (`_wildcardMatches` of `lib/mail-sieve.js`)

Characters are the UTF-16 code units that `pat[p]` and `sub[s]` read. The loop runs on
fuel and counts its turns.
-/

namespace Blamejs.SieveGlob

open Blamejs.Js

/-- `_asciiLower`. -/
def asciiLower (ch : UInt16) : UInt16 :=
  if 0x41 ≤ ch.toNat ∧ ch.toNat ≤ 0x5A then UInt16.ofNat (ch.toNat + 0x20) else ch

/-- The comparison `same` inside `_wildcardMatches`. -/
def same (caseInsensitive : Bool) (a b : UInt16) : Bool :=
  if caseInsensitive then asciiLower a == asciiLower b else a == b

/-- The variables of the loop; `starP` is `none` for `-1`. -/
structure Scan where
  p : Nat
  s : Nat
  starP : Option Nat
  starS : Nat
  deriving DecidableEq, Repr

/-- One turn of the loop at `s < sub.length`: `none` is `return false`. -/
def turn (pat sub : JsString) (caseInsensitive : Bool) (x : Scan) : Option Scan :=
  let literal := match pat[x.p]?, sub[x.s]? with
    | some a, some c => a == unit '?' || same caseInsensitive a c
    | _, _ => false
  if literal then some { x with p := x.p + 1, s := x.s + 1 }
  else if pat[x.p]? = some (unit '*') then
    some { p := x.p + 1, s := x.s, starP := some x.p, starS := x.s }
  else
    match x.starP with
    | none => none
    | some q => some { p := q + 1, s := x.starS + 1, starP := some q, starS := x.starS + 1 }

/-- Both loops and the result, with the number of turns they took. -/
def loop (pat sub : JsString) (caseInsensitive : Bool) : Nat → Scan → Option (Bool × Nat)
  | 0, _ => none
  | fuel + 1, x =>
      if x.s < sub.length then
        match turn pat sub caseInsensitive x with
        | none => some (false, 1)
        | some x' => (loop pat sub caseInsensitive fuel x').map fun r => (r.1, r.2 + 1)
      else
        let stars := (pat.drop x.p).takeWhile (· == unit '*')
        some (x.p + stars.length == pat.length, stars.length)

/-- `_wildcardMatches`, with its number of turns. -/
def wildcardMatches (pattern subject : JsString) (caseInsensitive : Bool) : Option (Bool × Nat) :=
  loop pattern subject caseInsensitive ((subject.length + 1) * (pattern.length + 1))
    ⟨0, 0, none, 0⟩

end Blamejs.SieveGlob
