import Blamejs.Js.NumberText
import Mathlib.Algebra.Order.Ring.Unbundled.Rat

/-!
# Idempotency of agent calls (`lib/agent-idempotency.js`)

The calls on one method, actor and key of an instance over the in-memory store, so that
the store is the row under that key. The clock of `Date.now` only goes forward. A call
that waits is resumed in steps of their own, other calls between them. A row is read when
it is asked for; the counters of replays are those of that time.

What a caller is told is logged when it is settled, and so are the rows that are deleted
and the rows that stand in the way of a claim.
-/

namespace Blamejs.AgentIdempotency

open Blamejs.Js

structure Row where
  requestFingerprint : Option JsString
  resultBlob : Option JsString
  firstAt : Nat
  lastWrittenAt : Nat
  replayCount : Nat
  expiresAt : Rat
  /-- `status: "pending"`. -/
  pending : Bool
  deriving DecidableEq

/-- The vault, `JSON` and the options of the instance. -/
structure Platform (R : Type) where
  method : JsString
  key : JsString
  ttlMs : Rat
  ttl_pos : 0 < ttlMs
  maxResultBytes : Nat
  /-- The cell as it is stored, and back; the same where no vault is initialized. -/
  sealCell : JsString → JsString
  unsealCell : JsString → JsString
  stringify : R → Except JsString JsString
  parse : JsString → Except JsString R

inductive Event (R : Type) where
  /-- `alreadyClaimed: false` -/
  | claimed (fingerprint : Option JsString)
  /-- A claim that finds a row in its way. -/
  | refused (row : Row) (now : Nat)
  /-- `alreadyClaimed: true, pending: true` -/
  | pending (row : Row) (now : Nat)
  /-- The result, to a caller of `get` or of `putIfAbsent`. -/
  | replayed (result : R) (row : Row) (replayCount : Nat) (now : Nat)
  | missing
  | stored (row : Row)
  | thrown (code : String) (message : JsString)
  | deleted (row : Option Row) (now : Nat) (invalidated : Bool)
  deriving DecidableEq

/-- What a call waits for, with what it has read. -/
inductive Pc (R : Type) where
  | refused (requestFingerprint : Option JsString)
  | getRead (row : Option Row)
  | putRead (existing : Option Row) (result : R) (requestFingerprint : Option JsString)
  | done

structure St (R : Type) where
  now : Nat
  row : Option Row
  tasks : List (Pc R)
  log : List (Event R)

def St.init (R : Type) (now : Nat) : St R := ⟨now, none, [], []⟩

/-- Both fingerprints are there, and they differ. -/
def argsDiffer : Option JsString → Option JsString → Bool
  | some a, some b => a ≠ b
  | _, _ => false

section model

variable {R : Type} (p : Platform R)

def reusedKey (caller : String) : Event R :=
  .thrown "agent-idempotency/key-reuse-different-args" (units caller ++ units ": key '" ++ p.key ++
    units "' reused with different args for method '" ++ p.method ++
    units "' — refused per JMAP §3.7 semantics")

def corruptResult (caller : String) (message : JsString) : Event R :=
  .thrown "agent-idempotency/corrupt-result"
    (units caller ++ units ": cached result failed to parse — " ++ message)

def pendingRow (now : Nat) (requestFingerprint : Option JsString) : Row where
  requestFingerprint := requestFingerprint
  resultBlob := none
  firstAt := now
  lastWrittenAt := now
  replayCount := 0
  expiresAt := now + p.ttlMs
  pending := true

/-- `_putIfAbsent` up to the first `await`. -/
def putIfAbsent (s : St R) (requestFingerprint : Option JsString) : St R :=
  match s.row with
  | none =>
      { s with
        row := some (pendingRow p s.now requestFingerprint)
        tasks := s.tasks ++ [.done]
        log := s.log ++ [.claimed requestFingerprint] }
  | some row =>
      { s with
        tasks := s.tasks ++ [.refused requestFingerprint]
        log := s.log ++ [.refused row s.now] }

/-- What a caller whose claim was refused is told about the row. -/
def existingAnswer (now : Nat) (requestFingerprint : Option JsString) : Option Row → Event R
  | none => .claimed requestFingerprint
  | some existing =>
      if argsDiffer existing.requestFingerprint requestFingerprint then reusedKey p "putIfAbsent"
      else if existing.pending then .pending existing now
      else
        -- a completed row has a result, and `null` is none to parse
        match existing.resultBlob with
        | none =>
            corruptResult "putIfAbsent" (units "input must be a string, Buffer, or Uint8Array")
        | some blob =>
            match p.parse (p.unsealCell blob) with
            | .ok result => .replayed result existing existing.replayCount now
            | .error message => corruptResult "putIfAbsent" message

def countReplay (row : Row) : Row := { row with replayCount := row.replayCount + 1 }

/-- `_get` after its row was read: the row that is stored then, and what the caller is
told. -/
def getAnswer (now : Nat) (stored : Option Row) : Option Row → Option Row × List (Event R)
  | none => (stored, [.missing])
  | some row =>
      if row.expiresAt < now then (none, [.deleted stored now false, .missing])
      else
        match row.resultBlob with
        | none => (stored, [.missing])
        | some blob =>
            match p.parse (p.unsealCell blob) with
            | .error message => (stored, [corruptResult "get" message])
            | .ok result =>
                let updatedReplayCount := (stored.getD row).replayCount + 1
                (stored.map countReplay, [.replayed result row updatedReplayCount now])

/-- `_put` after the row was read. -/
def putAnswer (now : Nat) (stored existing : Option Row) (result : R)
    (requestFingerprint : Option JsString) : Option Row × List (Event R) :=
  if argsDiffer (existing.bind Row.requestFingerprint) requestFingerprint then
    (stored, [reusedKey p "put"])
  else
    match p.stringify result with
    | .error message => (stored, [.thrown "agent-idempotency/bad-result"
        (units "put: result not JSON-serializable: " ++ message)])
    | .ok resultBlob =>
        let bytes := (utf8 resultBlob).length
        if bytes > p.maxResultBytes then
          (stored, [.thrown "agent-idempotency/result-too-big" (units "put: serialized result " ++
            natText bytes ++ units " bytes exceeds maxResultBytes=" ++ natText p.maxResultBytes)])
        else
          let row : Row := {
            requestFingerprint := requestFingerprint
            resultBlob := some (p.sealCell resultBlob)
            firstAt := match existing with
              | some existing => if existing.firstAt = 0 then now else existing.firstAt
              | none => now
            lastWrittenAt := now
            replayCount := (existing.map Row.replayCount).getD 0
            expiresAt := now + p.ttlMs
            pending := false }
          (some row, [.stored row])

inductive Act (R : Type) where
  | tick (ms : Nat)
  | putIfAbsent (requestFingerprint : Option JsString)
  | get
  | put (result : R) (requestFingerprint : Option JsString)
  | invalidate
  | gc (olderThanMs : Rat)
  | resume (k : Nat)

/-- The next step of a call, with what it waits for. -/
def resume (s : St R) : Pc R → Option (Option Row × List (Event R))
  | .refused requestFingerprint =>
      some (s.row, [existingAnswer p s.now requestFingerprint s.row])
  | .getRead row => some (getAnswer p s.now s.row row)
  | .putRead existing result requestFingerprint =>
      some (putAnswer p s.now s.row existing result requestFingerprint)
  | .done => none

def step (s : St R) : Act R → Option (St R)
  | .tick ms => some { s with now := s.now + ms }
  | .putIfAbsent requestFingerprint => some (putIfAbsent p s requestFingerprint)
  | .get => some { s with tasks := s.tasks ++ [.getRead s.row] }
  | .put result requestFingerprint =>
      some { s with tasks := s.tasks ++ [.putRead s.row result requestFingerprint] }
  | .invalidate =>
      some { s with row := none, log := s.log ++ [.deleted s.row s.now true] }
  | .gc olderThanMs =>
      let cutoff := s.now - olderThanMs
      if s.row.any fun row => row.expiresAt ≤ cutoff then
        some { s with row := none, log := s.log ++ [.deleted s.row s.now false] }
      else some s
  | .resume k =>
      match s.tasks[k]? with
      | none => none
      | some pc => (resume p s pc).map fun r =>
          { s with row := r.1, tasks := s.tasks.set k .done, log := s.log ++ r.2 }

end model

end Blamejs.AgentIdempotency
