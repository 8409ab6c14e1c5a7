import Blamejs.Lib.Run
import Mathlib.Data.Rat.Defs

/-!
# A batching sink (`makeBatchingSink` of `lib/safe-async.js`)

What runs between two `await`s is one step. A drain is the body that `flush`
starts; `settle` is the answer of the `beforeDrain` or `sendBatch` it waits for.
Until `assign` it has not come back to the `flush` that started it: the callback
it calls first still runs, may call the sink, and may throw. The callbacks
`onDrop` and `prepareRecord` do not call the sink.

`accepted`, `left`, `delivered`, `dropped` and `rejected` are read by no function:
the records that `emit` accepted, those handed to `sendBatch` in this order, those
of the batches it took, those counted in the drop total, and how many
`prepareRecord` refused. `resolved` is how many calls of `close` have returned.
-/

namespace Blamejs.BatchingSink

open Run

/-- The options the sink reads, with the default `takeBatch`. -/
structure Opts where
  batchSize : Rat
  bufferLimit : Rat
  beforeDrain : Bool
  batchSize_ge : 1 ≤ batchSize
  bufferLimit_ge : 1 ≤ bufferLimit

/-- What a drain waits for. -/
inductive Phase (α : Type) where
  | preparing
  | sending (batch : List α)
  deriving DecidableEq, Repr

structure Drain (α : Type) where
  id : Nat
  phase : Phase α
  assigned : Bool
  deriving DecidableEq, Repr

/-- What a call of `close` waits for: the drain in flight, or its own flush, which
was the promise of a drain or resolved at once. -/
inductive Close where
  | inflight (id : Nat)
  | flush (id : Option Nat)
  deriving DecidableEq, Repr

structure St (α : Type) where
  buffer : List α
  dropCount : Nat
  closed : Bool
  timer : Bool
  inFlight : Bool
  inFlightPromise : Option Nat
  drains : List (Drain α)
  started : Nat
  closes : List Close
  accepted : List α
  left : List α
  delivered : List α
  dropped : List α
  rejected : Nat
  resolved : Nat
  deriving DecidableEq, Repr

variable {α : Type}

def St.init : St α := ⟨[], 0, false, false, false, none, [], 0, [], [], [], [], [], 0, 0⟩

def St.schedule (s : St α) : St α := { s with timer := true }

/-- Records that are counted as dropped. -/
def St.drop (s : St α) (records : List α) : St α :=
  { s with dropCount := s.dropCount + records.length, dropped := s.dropped ++ records }

/-- The `finally` of a drain, and the assignment in `flush` when that still has to
come. -/
def St.finish (s : St α) (k : Nat) (d : Drain α) : St α :=
  { s with
    inFlight := false
    inFlightPromise := if d.assigned then none else some d.id
    drains := s.drains.eraseIdx k
    timer := s.timer || !s.buffer.isEmpty }

/-- The head of the loop: the next batch, or the end of the drain. -/
def St.loop (o : Opts) (s : St α) (k : Nat) (d : Drain α) : St α :=
  if !s.buffer.isEmpty && !s.closed then
    let batch := s.buffer.take o.batchSize.floor.toNat
    let s := { s with buffer := s.buffer.drop o.batchSize.floor.toNat }
    if batch.isEmpty then s.finish k d
    else
      { s with
        left := s.left ++ batch
        drains := s.drains.set k { d with phase := .sending batch } }
  else s.finish k d

/-- `flush`, and the drain whose promise it returns. -/
def St.flush (o : Opts) (s : St α) : St α × Option Nat :=
  if s.inFlight then (s, s.inFlightPromise)
  else if s.buffer.isEmpty then (s, none)
  else
    let d : Drain α := ⟨s.started, .preparing, false⟩
    let k := s.drains.length
    let s := { s with inFlight := true, drains := s.drains ++ [d], started := s.started + 1 }
    (if o.beforeDrain then s else s.loop o k d, some d.id)

/-- The oldest record makes room in a full buffer. -/
def St.evict (o : Opts) (s : St α) : St α :=
  match s.buffer with
  | oldest :: rest =>
      if s.buffer.length ≥ o.bufferLimit then { s.drop [oldest] with buffer := rest } else s
  | [] => s

def St.push (s : St α) (entry : α) : St α :=
  { s with buffer := s.buffer ++ [entry], accepted := s.accepted ++ [entry] }

def St.enqueue (o : Opts) (s : St α) (entry : α) : St α :=
  let s := (s.evict o).push entry
  if s.buffer.length ≥ o.batchSize then (s.flush o).1 else s.schedule

/-- What `prepareRecord` makes of a record; without one, the record. -/
inductive Prepared (α : Type) where
  | entry (entry : α)
  | rejected
  | threw
  deriving DecidableEq, Repr

def St.emit (o : Opts) (s : St α) (prepared : Prepared α) : St α :=
  if s.closed then s
  else
    match prepared with
    | .entry entry => s.enqueue o entry
    | .rejected => { s with dropCount := s.dropCount + 1, rejected := s.rejected + 1 }
    | .threw => s

/-- A drain is answered. -/
def St.settle (o : Opts) (s : St α) (k : Nat) (d : Drain α) (ok : Bool) : St α :=
  match d.phase, ok with
  | .preparing, true => s.loop o k d
  | .preparing, false => ({ s.drop s.buffer with buffer := [] }).finish k d
  | .sending batch, true => { s with delivered := s.delivered ++ batch }.loop o k d
  | .sending batch, false => (s.drop batch).finish k d

/-- No drain of the promise runs. -/
def St.settled (s : St α) (id : Option Nat) : Bool := s.drains.all fun d => id != some d.id

/-- `close` up to its first `await`. -/
def St.close (o : Opts) (s : St α) : St α :=
  let s := { s with timer := false }
  match s.inFlightPromise with
  | some id => { s with closes := s.closes ++ [.inflight id] }
  | none =>
      let (s, id) := s.flush o
      { s with closes := s.closes ++ [.flush id] }

/-- `close` from an `await` to the next, or to its end. -/
def St.resume (o : Opts) (s : St α) (k : Nat) : Close → St α
  | .inflight _ =>
      let (s, id) := s.flush o
      { s with closes := s.closes.set k (.flush id) }
  | .flush _ =>
      { s with closed := true, closes := s.closes.eraseIdx k, resolved := s.resolved + 1 }

def Close.promise : Close → Option Nat
  | .inflight id => some id
  | .flush id => id

inductive Action (α : Type) where
  | emit (prepared : Prepared α)
  | fire
  | flush
  | assign (k : Nat)
  | settle (k : Nat) (ok : Bool)
  | close
  | resume (k : Nat)
  deriving DecidableEq, Repr

/-- Every drain has come back to the `flush` that started it: nothing of the sink is
on the stack. -/
def St.returned (s : St α) : Bool := s.drains.all Drain.assigned

/-- A drain that has not come back can only be answered by a throw; the timer and
what waits for a promise run on an empty stack. -/
def step (o : Opts) (s : St α) : Action α → Option (St α)
  | .emit prepared => some (s.emit o prepared)
  | .fire => if s.timer && s.returned then some ({ s with timer := false }.flush o).1 else none
  | .flush => some (s.flush o).1
  | .assign k =>
      match s.drains[k]? with
      | some d =>
          if d.assigned then none
          else some
            { s with drains := s.drains.set k { d with assigned := true }
                     inFlightPromise := some d.id }
      | none => none
  | .settle k ok =>
      match s.drains[k]? with
      | some d => if ok && !d.assigned then none else some (s.settle o k d ok)
      | none => none
  | .close => some (s.close o)
  | .resume k =>
      match s.closes[k]? with
      | some c => if s.settled c.promise && s.returned then some (s.resume o k c) else none
      | none => none

/-- The records of the batches being sent. -/
def Drain.batch (d : Drain α) : List α :=
  match d.phase with
  | .preparing => []
  | .sending batch => batch

def St.sending (s : St α) : List α := s.drains.flatMap Drain.batch

end Blamejs.BatchingSink
