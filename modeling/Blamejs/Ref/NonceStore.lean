import Blamejs.Js.Text
import Blamejs.Lib.Expiry
import Blamejs.Spec.SpentValues
import Mathlib.Algebra.Order.Ring.Unbundled.Rat

/-!
# The nonce store (`lib/nonce-store.js`)

Both backends keep a nonce and the time it expires at, one in a bounded map, the
other in the table of the shared database. A call and the statement it runs are
one step. What the database has for the text of a nonce is a parameter: nonces with one
`stored` are one key to it. `sweep` is the timer of the memory backend. An argument is `none` when
it is not a string, or not a finite number; times are in milliseconds.
-/

namespace Blamejs.NonceStore

open Blamejs.Js SpentValues

abbrev Entries := AList fun _ : JsString => Rat

inductive Call where
  | checkAndInsert (nonce : Option JsString) (expireAt : Option Rat)
  | release (nonce : Option JsString)
  | purgeExpired
  | sweep
  deriving DecidableEq, Repr

/-- A Boolean, the number of entries removed, or an error. -/
inductive Answer where
  | told (b : Bool)
  | purged (removed : Nat)
  | rejected (code message : String)
  deriving DecidableEq, Repr

def invalidNonce : Answer :=
  .rejected "nonce-store/invalid-nonce" "nonce must be a non-empty string"

def invalidExpire : Answer :=
  .rejected "nonce-store/invalid-expire" "expireAt must be a finite number (unix ms)"

/-- `typeof nonce === "string" && nonce.length > 0`. -/
def validNonce (nonce : Option JsString) : Option JsString := nonce.filter fun n => !n.isEmpty

/-- `set` of the map with the policy `reject`; null when it is refused. -/
def set (maxEntries : Nat) (seen : Entries) (nonce : JsString) (expireAt : Rat) : Option Entries :=
  if (seen.lookup nonce).isSome then some (seen.insert nonce expireAt)
  else if seen.entries.length ≥ maxEntries then none
  else some (seen.insert nonce expireAt)

def memoryCheckAndInsert (maxEntries : Nat) (now : Rat) (seen : Entries) (nonce : JsString)
    (expireAt : Rat) : Answer × Entries :=
  match (seen.lookup nonce).filter fun existing => existing > now with
  | some _ => (.told false, seen)
  | none =>
      match set maxEntries seen nonce expireAt with
      | some seen => (.told true, seen)
      | none =>
          let seen := Expiry.purge now seen
          match set maxEntries seen nonce expireAt with
          | some seen => (.told true, seen)
          | none => (.told false, seen)

/-- `release` of either backend: the entry is deleted and its presence told. -/
def deleteNonce (m : Entries) (nonce : JsString) : Answer × Entries :=
  (.told (m.lookup nonce).isSome, m.erase nonce)

/-- `purgeExpired` of either backend. -/
def purgeExpired (now : Rat) (m : Entries) : Answer × Entries :=
  (.purged (m.entries.length - (Expiry.purge now m).entries.length), Expiry.purge now m)

def memoryBackend (maxEntries : Nat) (now : Rat) (seen : Entries) : Call → Answer × Entries
  | .checkAndInsert nonce expireAt =>
      match validNonce nonce, expireAt with
      | none, _ => (invalidNonce, seen)
      | _, none => (invalidExpire, seen)
      | some nonce, some expireAt => memoryCheckAndInsert maxEntries now seen nonce expireAt
  | .release nonce =>
      match validNonce nonce with
      | none => (invalidNonce, seen)
      | some nonce => deleteNonce seen nonce
  | .purgeExpired => purgeExpired now seen
  | .sweep => purgeExpired now seen

/-- `INSERT … ON CONFLICT DO NOTHING`. -/
def clusterCheckAndInsert (rows : Entries) (nonce : JsString) (expireAt : Rat) :
    Answer × Entries :=
  if (rows.lookup nonce).isSome then (.told false, rows)
  else (.told true, rows.insert nonce expireAt)

def clusterBackend (stored : JsString → JsString) (now : Rat) (rows : Entries) :
    Call → Answer × Entries
  | .checkAndInsert nonce expireAt =>
      match validNonce nonce, expireAt with
      | none, _ => (invalidNonce, rows)
      | _, none => (invalidExpire, rows)
      | some nonce, some expireAt => clusterCheckAndInsert rows (stored nonce) expireAt
  | .release nonce =>
      match validNonce nonce with
      | none => (invalidNonce, rows)
      | some nonce => deleteNonce rows (stored nonce)
  | .purgeExpired => purgeExpired now rows
  | .sweep => (.purged 0, rows)

/-! ## Sequences of calls -/

/-- A backend played on calls, each at its time: the answers, and what it keeps. -/
def play (backend : Rat → Entries → Call → Answer × Entries) (m : Entries) :
    List (Rat × Call) → List Answer × Entries
  | [] => ([], m)
  | (now, call) :: calls =>
      let (answer, m) := backend now m call
      let (answers, m) := play backend m calls
      (answer :: answers, m)

/-- Calls that delete what has expired. -/
def Call.purges : Call → Bool
  | .purgeExpired => true
  | .sweep => true
  | _ => false

end Blamejs.NonceStore
