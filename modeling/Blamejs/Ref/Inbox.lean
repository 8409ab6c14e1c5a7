import Blamejs.Js.Date
import Mathlib.Data.Rat.Floor

/-!
# The inbox (`lib/inbox.js`)

`handle` and `sweep` over a table with a row for each source and message id, in a database that
runs one transaction after another and undoes those that fail. A row keeps the clock readings that
were written: postgres compares instants, and sqlite compares the text that its clock gives with
that of `toISOString`. Readings are in milliseconds and in the years that sqlite's clock has.
What postgres makes of an interval of days depends on the time zone of the session and is a
parameter. Effects of handlers that are committed are logged.
-/

namespace Blamejs.Inbox

open Blamejs.Js

inductive Dialect where
  | postgres
  | sqlite
  deriving DecidableEq, Repr

/-- `retentionDays`: a positive number, or Infinity. -/
inductive Retention where
  | days (n : Rat) (pos : 0 < n)
  | forever

abbrev Instant := { t : Int // 0 ≤ t ∧ t < 253402300800000 }

structure Opts where
  dialect : Dialect
  /-- `NOW() - '<n> days'::interval` of postgres, in the session of the sweep. -/
  daysBefore : Instant → Rat → Rat
  retentionDays : Retention
  maxPayloadBytes : Nat
  messageIdMaxLen : Nat
  sourceMaxLen : Nat

structure Row where
  receivedAt : Instant
  processedAt : Option Instant
  metadata : Option JsString
  deriving DecidableEq

/-- Source and message id. -/
abbrev Key := JsString × JsString

abbrev Rows := Key → Option Row

structure ReceiveOpts where
  messageId : JsString
  source : JsString
  /-- As it is serialized. -/
  metadata : Option JsString

def ReceiveOpts.key (r : ReceiveOpts) : Key := (r.source, r.messageId)

inductive Field where
  | messageId
  | source
  deriving DecidableEq, Repr

/-- The refusals `inbox/bad-receive`, and what the handler throws. -/
inductive Err (E : Type) where
  | empty (field : Field)
  | tooLong (field : Field)
  | controlChar (field : Field) (index : Nat)
  | metadataTooLarge
  | handler (e : E)
  deriving DecidableEq, Repr

variable {E R : Type}

/-- A control character other than a tab, or DEL, or a C1 control. -/
def isForbiddenControlChar (u : UInt16) : Bool :=
  (u.toNat < 0x20 && u.toNat != 0x09) || (0x7F ≤ u.toNat && u.toNat ≤ 0x9F)

def rejectControlChars (value : JsString) (field : Field) : Except (Err E) Unit :=
  match value.findIdx? isForbiddenControlChar with
  | some i => .error (.controlChar field i)
  | none => .ok ()

/-- `_validateReceiveOpts` -/
def validateReceiveOpts (o : Opts) (r : ReceiveOpts) : Except (Err E) Unit := do
  if r.messageId = [] then throw (.empty .messageId)
  if r.source = [] then throw (.empty .source)
  if o.messageIdMaxLen < r.messageId.length then throw (.tooLong .messageId)
  if o.sourceMaxLen < r.source.length then throw (.tooLong .source)
  rejectControlChars r.messageId .messageId
  rejectControlChars r.source .source

/-- `recordReceive`: the insertion that does nothing on a conflict, and whether there was none. -/
def recordReceive (o : Opts) (now : Instant) (r : ReceiveOpts) (rows : Rows) :
    Except (Err E) (Bool × Rows) := do
  validateReceiveOpts o r
  if r.metadata.any fun m => o.maxPayloadBytes < (utf8 m).length then throw .metadataTooLarge
  if rows r.key = none then
    pure (true, Function.update rows r.key (some ⟨now, none, r.metadata⟩))
  else pure (false, rows)

def markProcessed (o : Opts) (now : Instant) (r : ReceiveOpts) (rows : Rows) :
    Except (Err E) Rows := do
  validateReceiveOpts o r
  pure (Function.update rows r.key
    ((rows r.key).map fun row => { row with processedAt := some now }))

/-- All or nothing. -/
def transaction {ε α : Type} (f : Rows → Except ε (α × Rows)) (rows : Rows) : Except ε α × Rows :=
  match f rows with
  | .ok (a, rows') => (.ok a, rows')
  | .error e => (.error e, rows)

structure Outcome (R : Type) where
  fresh : Bool
  result : Option R
  deriving DecidableEq

/-- `handle`, with what the handler will do if it is run. -/
def handle (o : Opts) (now : Instant) (r : ReceiveOpts) (handler : Except E R) (rows : Rows) :
    Except (Err E) (Outcome R) × Rows :=
  transaction (fun rows => do
    let (fresh, rows) ← recordReceive o now r rows
    if fresh then
      match handler with
      | .error e => throw (.handler e)
      | .ok inner => do
          let rows ← markProcessed o now r rows
          pure (⟨true, some inner⟩, rows)
    else pure (⟨false, none⟩, rows)) rows

/-! ## Sweeping -/

/-- A time as milliseconds: `new Date(t)` drops a fraction. -/
def toTime (t : Rat) : Int := if 0 ≤ t then ⌊t⌋ else ⌈t⌉

/-- `CURRENT_TIMESTAMP` of sqlite. -/
def currentTimestamp (t : Int) : JsString :=
  Date.yearText (Date.getUTCFullYear t) ++ unit '-' :: (Date.padded 2 (Date.getUTCMonth t + 1) ++
    unit '-' :: (Date.padded 2 (Date.getUTCDate t) ++ unit ' ' ::
      (Date.padded 2 (Date.getUTCHours t) ++ unit ':' :: (Date.padded 2 (Date.getUTCMinutes t) ++
        unit ':' :: Date.padded 2 (Date.getUTCSeconds t)))))

/-- `toISOString`. -/
def isoText (t : Int) : JsString :=
  Date.yearText (Date.getUTCFullYear t) ++ unit '-' :: (Date.padded 2 (Date.getUTCMonth t + 1) ++
    unit '-' :: (Date.padded 2 (Date.getUTCDate t) ++ unit 'T' ::
      (Date.padded 2 (Date.getUTCHours t) ++ unit ':' :: (Date.padded 2 (Date.getUTCMinutes t) ++
        unit ':' :: (Date.padded 2 (Date.getUTCSeconds t) ++
          unit '.' :: (Date.padded 3 (Date.getUTCMilliseconds t) ++ [unit 'Z']))))))

/-- The time some days ago. -/
def ago (now : Instant) (days : Rat) : Rat := now.val - days * Date.msPerDay

/-- What the statement for postgres deletes. -/
def stalePostgres (o : Opts) (now : Instant) (days : Rat) (row : Row) : Bool :=
  (row.receivedAt.val : Rat) < o.daysBefore now days &&
    (row.processedAt.isSome || (row.receivedAt.val : Rat) < o.daysBefore now (days * 2))

/-- What the statement for sqlite deletes, once the two dates have texts. -/
def staleSqlite (staleDate unprocStaleDate : Int) (row : Row) : Bool :=
  decide (currentTimestamp row.receivedAt.val < isoText staleDate) &&
    (row.processedAt.isSome ||
      decide (currentTimestamp row.receivedAt.val < isoText unprocStaleDate))

/-- What is left by the deletion of some rows. -/
def deleteWhere (p : Row → Bool) (rows : Rows) : Rows := fun k => (rows k).filter fun row => !p row

/-- `sweep`; `none` is the `RangeError` of a date that has no text. -/
def sweep (o : Opts) (now : Instant) (rows : Rows) : Option Rows :=
  match o.retentionDays with
  | .forever => some rows
  | .days n _ =>
      match o.dialect with
      | .postgres => some (deleteWhere (stalePostgres o now n) rows)
      | .sqlite => do
          let staleDate ← Date.timeClip (toTime (ago now n))
          let unprocStaleDate ← Date.timeClip (toTime (ago now (n * 2)))
          pure (deleteWhere (staleSqlite staleDate unprocStaleDate) rows)

/-! ## Runs -/

structure Effect where
  key : Key
  time : Instant
  deriving DecidableEq

structure St where
  clock : Instant
  rows : Rows
  log : List Effect

def St.init (clock : Instant) (rows : Rows) : St := ⟨clock, rows, []⟩

inductive Act (E R : Type) where
  | handle (now : Instant) (r : ReceiveOpts) (handler : Except E R)
  | sweep (now : Instant)

def step (o : Opts) (s : St) : Act E R → Option St
  | .handle now r handler =>
      if s.clock.val ≤ now.val then
        let res := handle o now r handler s.rows
        some ⟨now, res.2, match res.1 with
          | .ok ⟨true, _⟩ => s.log ++ [⟨r.key, now⟩]
          | _ => s.log⟩
      else none
  | .sweep now =>
      if s.clock.val ≤ now.val then
        some { s with clock := now, rows := (sweep o now s.rows).getD s.rows }
      else none

end Blamejs.Inbox
