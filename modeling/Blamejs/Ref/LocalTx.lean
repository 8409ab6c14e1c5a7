import Blamejs.Lib.Run

/-!
# Transactions on the local connection (`lib/cluster-storage.js`, single-node mode)

Every call of `execute` or `transaction` is a caller of its own, and what runs between two
awaits is one step. `_activeTx` holds the promise of the transaction that has set it, named
by its caller. The database is the list of the writes in it, each with its caller. A
statement that fails does nothing; BEGIN fails inside a transaction, COMMIT and ROLLBACK
outside one, and each of them may fail besides.
-/

namespace Blamejs.LocalTx

abbrev Caller := Nat

variable {W : Type}

/-- What `_localExec` is given. -/
inductive Sql (W : Type) where
  | begin
  | commit
  | rollback
  | stmt (w : W)
  deriving DecidableEq, Repr

/-- The shared connection; `working` is what a transaction that is open has made of the
database. -/
structure Conn (W : Type) where
  committed : List (Caller × W)
  working : Option (List (Caller × W))
  deriving DecidableEq, Repr

/-- `_localExec`: `none` is an error that is thrown, and leaves the connection as it is. -/
def localExec (conn : Conn W) (c : Caller) (sql : Sql W) (fails : Bool) : Option (Conn W) :=
  if fails then none
  else
    match sql, conn.working with
    | .begin, none => some { conn with working := some conn.committed }
    | .commit, some db => some ⟨db, none⟩
    | .rollback, some _ => some { conn with working := none }
    | .stmt w, none => some { conn with committed := conn.committed ++ [(c, w)] }
    | .stmt w, some db => some { conn with working := some (db ++ [(c, w)]) }
    | _, _ => none

/-- Where a call stands. -/
inductive Pc (W : Type) where
  | idle
  /-- `execute` awaits the promise of a transaction. -/
  | executeWaits (on : Caller) (w : W)
  | executed (ok : Bool)
  /-- `transaction` awaits the promise of another one. -/
  | waits (on : Caller)
  /-- `fn` runs. -/
  | body
  /-- `fn` has returned or thrown. -/
  | settled (threw : Bool)
  | done (ok : Bool)
  deriving DecidableEq, Repr

/-- A call of `_localExec`, and whether it threw. -/
structure Event (W : Type) where
  caller : Caller
  sql : Sql W
  ok : Bool
  deriving DecidableEq, Repr

structure St (W : Type) where
  conn : Conn W
  /-- `_activeTx`. -/
  activeTx : Option Caller
  pc : Caller → Pc W
  /-- What reached the connection, in order. -/
  log : List (Event W)

def St.init (W : Type) : St W := ⟨⟨[], none⟩, none, fun _ => .idle, []⟩

def St.setPc (s : St W) (c : Caller) (pc : Pc W) : St W :=
  { s with pc := fun d => if d = c then pc else s.pc d }

/-- One call of `_localExec`; a throw leaves the connection. -/
def St.run (s : St W) (c : Caller) (sql : Sql W) (fails : Bool) : St W :=
  { s with
    conn := (localExec s.conn c sql fails).getD s.conn
    log := s.log ++ [⟨c, sql, (localExec s.conn c sql fails).isSome⟩] }

/-- Whether that call returns. -/
def St.returns (s : St W) (c : Caller) (sql : Sql W) (fails : Bool) : Bool :=
  (localExec s.conn c sql fails).isSome

/-- `execute` from its loop on. -/
def St.execute (s : St W) (c : Caller) (w : W) (fails : Bool) : St W :=
  match s.activeTx with
  | some on => s.setPc c (.executeWaits on w)
  | none => (s.run c (.stmt w) fails).setPc c (.executed (s.returns c (.stmt w) fails))

/-- The `finally` of `transaction`. -/
def St.release (s : St W) (c : Caller) (ok : Bool) : St W :=
  { s.setPc c (.done ok) with activeTx := none }

/-- `transaction` from its loop on, up to the first await of `fn`. -/
def St.transaction (s : St W) (c : Caller) (beginFails : Bool) : St W :=
  match s.activeTx with
  | some on => s.setPc c (.waits on)
  | none =>
      let begun := { s with activeTx := some c }.run c .begin beginFails
      if s.returns c .begin beginFails then begun.setPc c .body else begun.release c false

/-- The `catch` of `transaction`. -/
def St.undo (s : St W) (c : Caller) (rollbackFails : Bool) : St W :=
  (s.run c .rollback rollbackFails).release c false

/-- What follows `await fn(localHandle)`. -/
def St.finish (s : St W) (c : Caller) (threw commitFails rollbackFails : Bool) : St W :=
  if threw then s.undo c rollbackFails
  else
    let committed := s.run c .commit commitFails
    if s.returns c .commit commitFails then committed.release c true
    else committed.undo c rollbackFails

/-- Who moves, and what the connection and the body do about it. -/
inductive Act (W : Type) where
  | execute (c : Caller) (w : W) (fails : Bool)
  | transaction (c : Caller) (beginFails : Bool)
  /-- The awaited promise is resolved and the loop goes on. -/
  | wake (c : Caller) (fails : Bool)
  /-- The body runs a statement with its handle. -/
  | tx (c : Caller) (w : W) (fails : Bool)
  | settle (c : Caller) (threw : Bool)
  | finish (c : Caller) (commitFails rollbackFails : Bool)

/-- Whether the promise of a transaction is resolved. -/
def St.resolved (s : St W) (c : Caller) : Bool :=
  match s.pc c with
  | .done _ => true
  | _ => false

def step (s : St W) : Act W → Option (St W)
  | .execute c w fails =>
      match s.pc c with
      | .idle => some (s.execute c w fails)
      | _ => none
  | .transaction c beginFails =>
      match s.pc c with
      | .idle => some (s.transaction c beginFails)
      | _ => none
  | .wake c fails =>
      match s.pc c with
      | .executeWaits on w => if s.resolved on then some (s.execute c w fails) else none
      | .waits on => if s.resolved on then some (s.transaction c fails) else none
      | _ => none
  | .tx c w fails =>
      match s.pc c with
      | .body => some (s.run c (.stmt w) fails)
      | _ => none
  | .settle c threw =>
      match s.pc c with
      | .body => some (s.setPc c (.settled threw))
      | _ => none
  | .finish c commitFails rollbackFails =>
      match s.pc c with
      | .settled threw => some (s.finish c threw commitFails rollbackFails)
      | _ => none

end Blamejs.LocalTx
