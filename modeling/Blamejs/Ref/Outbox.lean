import Blamejs.Js.Text
import Blamejs.Lib.Checked
import Blamejs.Lib.Run
import Blamejs.Lib.Table
import Mathlib.Data.Rat.Floor
import Mathlib.Logic.Function.Basic

/-!
# The outbox (`lib/outbox.js`)

One table, and any number of workers that run `_processOnce`: reap, claim a
batch, publish and mark its rows one by one. A statement, and the claim
transaction, is one step; between two steps of a worker anything may happen, and
it may never take the next one. The publisher's answer, the clock, the rows
another transaction has locked, the order in which the database answers and
whether a statement fails come with the action. Two functions are parameters,
`safeJson.stringify` and `safeJson.parse`.

`St.enqueued`, `accepted`, `rejected` and `holder` are read by no function of
the code: the rows as they were committed, what the publisher answered, and for
each row the worker whose claim of it has neither been marked nor taken back.
-/

namespace Blamejs.Outbox

open Blamejs.Js Checked Run Table

inductive Status where
  | pending
  | inFlight
  | published
  | dead
  deriving DecidableEq, Repr

/-- The rows nothing picks up again. -/
def Status.terminal (status : Status) : Bool := status = .published ∨ status = .dead

structure Row where
  id : Nat
  topic : JsString
  payload : JsString
  key : Option JsString
  headers : Option JsString
  enqueuedAt : Int
  nextAttemptAt : Int
  publishedAt : Option Int
  claimedAt : Option Int
  attempts : Nat
  lastError : Option JsString
  status : Status
  deriving DecidableEq, Repr

/-- The options of `create` that the worker reads, and `safeJson`. The numbers
of the backoff curve are rationals where the code computes with doubles. -/
structure Config (V : Type) where
  batchSize : Nat
  maxAttempts : Rat
  claimReclaimMs : Int
  backoffInitial : Rat
  backoffMax : Rat
  backoffFactor : Rat
  /-- `_supportsForUpdateSkipLocked` -/
  supportsSkipLocked : Bool
  stringify : V → Except JsString JsString
  /-- `safeJson.parse(text, { maxBytes })` -/
  parse : Nat → JsString → Except JsString V

/-- `_backoffMs`. -/
def Config.backoffMs {V : Type} (cfg : Config V) (attempts : Nat) : Int :=
  let ms := cfg.backoffInitial * cfg.backoffFactor ^ (attempts - 1)
  ⌊if ms > cfg.backoffMax then cfg.backoffMax else ms⌋

/-! ## Enqueue -/

/-- `event.key`: `undefined` or `null`, no string, a string. -/
inductive KeyArg where
  | missing
  | notString
  | str (key : JsString)
  deriving DecidableEq, Repr

/-- `event.headers`: falsy, no plain object, an object. -/
inductive HeadersArg (V : Type) where
  | missing
  | notObject
  | obj (headers : V)

/-- What the caller passes; `topic` is `none` when it is no string and `payload`
when it is `undefined`. -/
structure NewEvent (V : Type) where
  topic : Option JsString
  payload : Option V
  key : KeyArg
  headers : HeadersArg V

inductive Refusal where
  | badTopic
  | payloadRequired
  | badKey
  | badHeaders
  | notSerializable (message : JsString)
  deriving DecidableEq, Repr

def topicMaxLen : Nat := 255

def keyMaxLen : Nat := 255

variable {V : Type}

/-- `event.key || null`, once it is known to be a key. -/
def KeyArg.check : KeyArg → Except Refusal (Option JsString)
  | .missing => .ok none
  | .notString => .error .badKey
  | .str key =>
      if key.length > keyMaxLen then .error .badKey
      else .ok (if key = [] then none else some key)

def HeadersArg.check : HeadersArg V → Except Refusal (Option V)
  | .missing => .ok none
  | .notObject => .error .badHeaders
  | .obj headers => .ok (some headers)

def Config.serialize (cfg : Config V) (v : V) : Except Refusal JsString :=
  (cfg.stringify v).mapError .notSerializable

/-- The row `enqueue` inserts. -/
def Config.enqueue (cfg : Config V) (event : NewEvent V) (id : Nat) (now : Int) :
    Except Refusal Row := do
  let topic := event.topic.getD []
  ensure (topic ≠ [] ∧ topic.length ≤ topicMaxLen) .badTopic
  match event.payload with
  | none => .error .payloadRequired
  | some payload =>
      let key ← event.key.check
      let headers ← event.headers.check
      let payloadJson ← cfg.serialize payload
      let headersJson ← headers.mapM cfg.serialize
      pure {
        id := id
        topic := topic
        payload := payloadJson
        key := key
        headers := headersJson
        enqueuedAt := now
        nextAttemptAt := now
        publishedAt := none
        claimedAt := none
        attempts := 0
        lastError := none
        status := .pending }

/-! ## The statements of a worker -/

/-- A row as `_claimBatch` hands it on. -/
structure Claimed where
  id : Nat
  topic : JsString
  payload : JsString
  key : Option JsString
  headers : Option JsString
  attempts : Nat
  deriving DecidableEq, Repr

def Row.claimed (r : Row) : Claimed := ⟨r.id, r.topic, r.payload, r.key, r.headers, r.attempts⟩

/-- The rows `_claimBatch` may select. -/
def due (now : Int) (locked : List Nat) (r : Row) : Bool :=
  r.status = .pending ∧ r.nextAttemptAt ≤ now ∧ r.id ∉ locked

/-- `SET status = 'in-flight', claimed_at = ?`. -/
def Row.claim (now : Int) (r : Row) : Row := { r with status := .inFlight, claimedAt := some now }

/-- The claims `_reapStaleInflight` takes back. -/
def stale (cutoff : Int) (r : Row) : Bool :=
  r.status = .inFlight ∧ r.claimedAt.all (· ≤ cutoff)

def reapStaleInflight (cutoff : Int) : List Row → List Row :=
  update (stale cutoff) fun r => { r with status := .pending, claimedAt := none }

def markPublished (id : Nat) (now : Int) : List Row → List Row :=
  update (·.id = id) fun r => { r with status := .published, publishedAt := some now }

/-- `String(errMsg).slice(0, 1024)`. -/
def clip (errMsg : JsString) : JsString := errMsg.take 1024

def Config.markRetry (cfg : Config V) (id attempts : Nat) (errMsg : JsString) (now : Int) :
    List Row → List Row :=
  update (·.id = id) fun r => { r with
    status := .pending
    attempts := attempts + 1
    lastError := some (clip errMsg)
    nextAttemptAt := now + cfg.backoffMs (attempts + 1) }

def markDead (id attempts : Nat) (errMsg : JsString) : List Row → List Row :=
  update (·.id = id) fun r => { r with
    status := .dead
    attempts := attempts + 1
    lastError := some (clip errMsg) }

/-- The `catch` block of `_processOnce`. -/
def Config.markFailed (cfg : Config V) (row : Claimed) (errMsg : JsString) (now : Int) :
    List Row → List Row :=
  if cfg.maxAttempts ≤ (row.attempts + 1 : Nat) then markDead row.id row.attempts errMsg
  else cfg.markRetry row.id row.attempts errMsg now

/-- The event the publisher is called with. -/
structure Event (V : Type) where
  id : Nat
  topic : JsString
  payload : Option V
  key : Option JsString
  headers : Option V
  attempts : Nat

/-- The event of a row, when its texts parse within 8 MiB and 1 MiB. -/
def Config.event (cfg : Config V) (row : Claimed) : Except JsString (Event V) := do
  let payload ← (if row.payload = [] then none else some row.payload).mapM (cfg.parse (8 * 2 ^ 20))
  let headers ← (row.headers.filter (· ≠ [])).mapM (cfg.parse (2 ^ 20))
  pure ⟨row.id, row.topic, payload, row.key, headers, row.attempts⟩

/-! ## Runs -/

/-- Where a worker stands: between two polls, calling the publisher, about to
mark the row published, in the `catch` block. -/
inductive Pc where
  | idle
  | publishing (row : Claimed) (rest : List Claimed)
  | accepted (row : Claimed) (rest : List Claimed)
  | failed (row : Claimed) (rest : List Claimed) (errMsg : JsString)
  deriving DecidableEq, Repr

/-- The next round of the loop over the batch. -/
def Pc.next : List Claimed → Pc
  | [] => .idle
  | row :: rest => .publishing row rest

structure St where
  rows : List Row
  workers : Nat → Pc
  enqueued : List Row
  accepted : List Nat
  rejected : List Nat
  holder : Nat → Option Nat

def St.init : St := ⟨[], fun _ => .idle, [], [], [], fun _ => none⟩

def St.goto (s : St) (w : Nat) (pc : Pc) : St :=
  { s with workers := Function.update s.workers w pc }

/-- The claim of a row ends. -/
def St.release (s : St) (id : Nat) : St := { s with holder := Function.update s.holder id none }

/-- What the publisher does with an event. -/
inductive Outcome where
  | resolved
  | threw (message : JsString)
  deriving DecidableEq, Repr

/-- How a statement ends: applied; applied, but the caller sees an error; not
applied. -/
inductive Reply where
  | done
  | lost (message : JsString)
  | refused (message : JsString)
  deriving DecidableEq, Repr

/-- `rows` in `claim` are the due rows in the order the database sorts them in,
and `reread` what the second SELECT of a backend without SKIP LOCKED returns. -/
inductive Action (V : Type) where
  | enqueue (event : NewEvent V) (id : Nat) (now : Int)
  | reap (now : Int)
  | claim (w : Nat) (now claimedAt : Int) (locked : List Nat) (rows reread : List Row)
  | publish (w : Nat) (outcome : Outcome)
  | markPublished (w : Nat) (now : Int) (reply : Reply)
  | markFailed (w : Nat) (now : Int) (applied : Bool)
  | crash (w : Nat)

/-- `_claimBatch`, once the database has answered. -/
def Config.claimBatch (cfg : Config V) (s : St) (w : Nat) (claimedAt : Int)
    (batch reread : List Row) : Option St :=
  let ids := batch.map Row.id
  let holder := fun id => if id ∈ ids then some w else s.holder id
  if batch = [] then some s
  else if cfg.supportsSkipLocked then
    let rows := update (fun r => r.id ∈ ids) (Row.claim claimedAt) s.rows
    some (St.goto { s with rows := rows, holder := holder } w (.next (batch.map Row.claimed)))
  else
    let rows := update (fun r => r.status = .pending ∧ r.id ∈ ids) (Row.claim claimedAt) s.rows
    if reread.Perm (rows.filter fun r => r.status = .inFlight ∧ r.id ∈ ids) then
      some (St.goto { s with rows := rows, holder := holder } w (.next (reread.map Row.claimed)))
    else none

/-- One step. A transaction that does not commit leaves nothing behind, so only
committed ones are steps. -/
def step (cfg : Config V) (s : St) : Action V → Option St
  | .enqueue event id now =>
      match cfg.enqueue event id now with
      | .error _ => some s
      | .ok row =>
          if id ∈ s.rows.map Row.id then none
          else some { s with rows := s.rows ++ [row], enqueued := s.enqueued ++ [row] }
  | .reap now =>
      let cutoff := now - cfg.claimReclaimMs
      some { s with
        rows := reapStaleInflight cutoff s.rows
        holder := fun id =>
          if s.rows.any fun r => r.id = id ∧ stale cutoff r then none else s.holder id }
  | .claim w now claimedAt locked rows reread =>
      if s.workers w = .idle ∧ rows.Perm (s.rows.filter (due now locked)) ∧
          rows.Pairwise (·.nextAttemptAt ≤ ·.nextAttemptAt) ∧
          (locked = [] ∨ cfg.supportsSkipLocked) then
        cfg.claimBatch s w claimedAt (rows.take cfg.batchSize) reread
      else none
  | .publish w outcome =>
      match s.workers w with
      | .publishing row rest =>
          match cfg.event row, outcome with
          | .error message, _ => some (s.goto w (.failed row rest message))
          | .ok _, .threw message =>
              some (St.goto { s with rejected := row.id :: s.rejected } w
                (.failed row rest message))
          | .ok _, .resolved =>
              some (St.goto { s with accepted := row.id :: s.accepted } w (.accepted row rest))
      | _ => none
  | .markPublished w now reply =>
      match s.workers w with
      | .accepted row rest =>
          let applied := { s.release row.id with rows := markPublished row.id now s.rows }
          match reply with
          | .done => some (applied.goto w (.next rest))
          | .lost message => some (applied.goto w (.failed row rest message))
          | .refused message => some (s.goto w (.failed row rest message))
      | _ => none
  | .markFailed w now applied =>
      match s.workers w with
      | .failed row rest errMsg =>
          let s := if applied then
              { s.release row.id with rows := cfg.markFailed row errMsg now s.rows }
            else s
          some (s.goto w (.next rest))
      | _ => none
  | .crash w => some (s.goto w .idle)

end Blamejs.Outbox
