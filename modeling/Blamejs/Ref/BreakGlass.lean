import Blamejs.Js.NumberText
import Blamejs.Lib.Checked
import Blamejs.Lib.Run
import Blamejs.Lib.Table

/-!
# Break-glass grants (`lib/break-glass.js`)

`grant`, `unsealRow` and `revoke` over the shared tables. A call of `unsealRow` runs from
one database statement to the next: its state between two of them is a `Pc`, and any
other call may run there. Each of the other two calls is one statement on the grants. A
statement and the reading of the clock for it are one step, and so are a statement and
the checks of its result.

The policies do not change, the lockout and the second factor are outcomes that a call
comes with, and what the module calls to open sealed cells is a `Platform`. The grants
table seals two columns at rest; the rows here are the unsealed ones. What only goes into
the audit log is left out.
-/

namespace Blamejs.BreakGlass

open Blamejs.Js

/-- `BreakGlassError`. -/
structure Err where
  code : String
  message : JsString
  deriving DecidableEq, Repr

structure Policy where
  columns : List JsString
  reasonRequired : Bool
  reasonMinLength : Nat
  requireScope : Option JsString
  factors : List JsString
  grantTtl : Nat
  maxRowsPerGrant : Nat
  pinIp : Bool
  sessionPin : Bool
  cryptographic : Bool
  deriving DecidableEq, Repr

/-- What is read from a request: the actor, the scopes, the resolved address and the
session. -/
structure Request where
  actorId : Option JsString
  scopes : List JsString
  ip : Option JsString
  sessionId : Option JsString
  deriving DecidableEq, Repr

/-- A row of the grants table. -/
structure GrantRow where
  id : JsString
  issuedToActorId : JsString
  factorType : JsString
  reason : JsString
  scopeTable : JsString
  scopeColumns : List JsString
  issuedAt : Nat
  expiresAt : Nat
  maxRowsPerGrant : Nat
  rowsConsumed : Nat
  revokedAt : Option Nat
  sessionId : Option JsString
  ip : Option JsString
  deriving DecidableEq, Repr

/-- A cell of an application table. -/
inductive Cell where
  | null
  | sealed (envelope : JsString)
  | clear (text : JsString)
  deriving DecidableEq, Repr

abbrev Row := JsString → Cell

/-- What the module calls: the address comparison, the scope match, the text of a time,
and the opening of sealed cells. No cell comes out of a column that is null. -/
structure Platform where
  sameAddress : Option JsString → JsString → Bool
  permits : JsString → JsString → Bool
  isoText : Nat → JsString
  unsealRow : JsString → Row → JsString → Except Err Row
  decryptCell : Cell → JsString → JsString → JsString → Except JsString Cell
  unsealRow_null : ∀ {table row actor out column}, unsealRow table row actor = .ok out →
    row column = .null → out column = .null

/-! ## `grant` -/

structure GrantOpts where
  req : Request
  table : JsString
  /-- Empty when no list is given. -/
  columns : List JsString
  /-- Empty when it is not a string. -/
  reason : JsString
  factorType : Option JsString
  deriving DecidableEq, Repr

/-- The lockout of the actor and the verification of the factor. -/
structure FactorOutcome where
  lockedUntil : Option Nat
  factorOk : Bool
  deriving DecidableEq, Repr

section model

variable (p : Platform) (policies : JsString → Option Policy)

/-- `s || null` -/
def orNull (s : Option JsString) : Option JsString := s.filter (· ≠ [])

def requestedColumns (policy : Policy) (opts : GrantOpts) : List JsString :=
  if opts.columns = [] then policy.columns else opts.columns

/-- `grant` up to the row that it inserts. -/
def grantRow (opts : GrantOpts) (outcome : FactorOutcome) (grantId : JsString) (nowMs : Nat) :
    Except Err GrantRow := do
  let policy ← (match policies opts.table with
    | some policy => .ok policy
    | none => .error ⟨"breakglass/policy-not-set", units
        "no break-glass policy is configured for table '" ++ opts.table ++ units "'"⟩ :
      Except Err Policy)
  Checked.ensure (policy.reasonRequired = true → opts.reason ≠ [])
    (⟨"breakglass/missing-reason",
      units "grant: reason is required for table '" ++ opts.table ++ units "'"⟩ : Err)
  Checked.ensure (policy.reasonRequired = true → policy.reasonMinLength ≤ opts.reason.length)
    (⟨"breakglass/short-reason", units "grant: reason must be at least " ++
      natText policy.reasonMinLength ++ units " characters"⟩ : Err)
  (match (requestedColumns policy opts).find? fun column => column ∉ policy.columns with
    | some column => .error ⟨"breakglass/grant-column-mismatch",
        units "grant: requested column '" ++ column ++
          units "' is not glass-locked on table '" ++ opts.table ++ units "'"⟩
    | none => .ok () : Except Err Unit)
  let actorId ← (match opts.req.actorId with
    | some actorId => .ok actorId
    | none => .error ⟨"breakglass/unauthorized", units
        "grant: no authenticated actor on request (req.user.id / req.apiKey.id required)"⟩ :
      Except Err JsString)
  (match policy.requireScope with
    | some scope =>
        Checked.ensure ((opts.req.scopes.any fun s => p.permits s scope) = true)
          ⟨"breakglass/missing-scope",
            units "grant: actor does not carry required scope '" ++ scope ++ units "'"⟩
    | none => .ok () : Except Err Unit)
  let badFactor : Err := ⟨"breakglass/bad-factor", units "grant: factor.type must be one of [" ++
    (units ",").intercalate policy.factors ++ units "]"⟩
  let factorType ← (match opts.factorType with
    | some factorType => if factorType ∈ policy.factors then .ok factorType else .error badFactor
    | none => .error badFactor : Except Err JsString)
  (match outcome.lockedUntil with
    | some lockedUntil => .error ⟨"breakglass/factor-rate-limited", units
        "grant: too many recent factor failures; locked until " ++ p.isoText lockedUntil⟩
    | none => .ok () : Except Err Unit)
  Checked.ensure (outcome.factorOk = true) (⟨"breakglass/bad-factor",
    units "grant: " ++ factorType ++ units " factor verification failed"⟩ : Err)
  .ok {
    id := grantId
    issuedToActorId := actorId
    factorType := factorType
    reason := opts.reason
    scopeTable := opts.table
    scopeColumns := requestedColumns policy opts
    issuedAt := nowMs
    expiresAt := nowMs + policy.grantTtl
    maxRowsPerGrant := policy.maxRowsPerGrant
    rowsConsumed := 0
    revokedAt := none
    sessionId := orNull opts.req.sessionId
    ip := opts.req.ip }

/-! ## `unsealRow` -/

/-- The checks of the grant that was read. -/
def checkGrant (grantId table : JsString) (now : Nat) (grant : Option GrantRow) :
    Except Err GrantRow := do
  let named := units "unsealRow: grant " ++ grantId
  let grant ← (match grant with
    | some grant => .ok grant
    | none => .error ⟨"breakglass/grant-revoked",
        named ++ units " not found (deleted or never issued)"⟩ : Except Err GrantRow)
  Checked.ensure (grant.scopeTable = table) (⟨"breakglass/grant-table-mismatch",
    named ++ units " is scoped to '" ++ grant.scopeTable ++ units "', not '" ++ table ++
      units "'"⟩ : Err)
  (match grant.revokedAt with
    | some revokedAt =>
        if revokedAt = 0 then .ok ()
        else .error ⟨"breakglass/grant-revoked",
          named ++ units " was revoked at " ++ p.isoText revokedAt⟩
    | none => .ok () : Except Err Unit)
  Checked.ensure (now < grant.expiresAt) (⟨"breakglass/grant-expired",
    named ++ units " expired at " ++ p.isoText grant.expiresAt⟩ : Err)
  Checked.ensure (grant.rowsConsumed < grant.maxRowsPerGrant) (⟨"breakglass/grant-exhausted",
    named ++ units " has consumed all " ++ natText grant.maxRowsPerGrant ++
      units " allowed rows"⟩ : Err)
  .ok grant

/-- `_enforceGrantPins`. -/
def enforceGrantPins (policy : Option Policy) (grant : GrantRow) (req : Request) :
    Except Err Unit :=
  match policy with
  | none => .ok ()
  | some policy => do
      let named := units "unsealRow: grant " ++ grant.id
      (if policy.pinIp then
        match grant.ip with
        | none => .error ⟨"breakglass/grant-ip-mismatch", named ++ units (" has pinIp on but " ++
            "no IP was captured at mint (fail-closed) — re-mint from a request whose client " ++
            "IP the framework can resolve")⟩
        | some ip =>
            Checked.ensure (p.sameAddress req.ip ip = true)
              ⟨"breakglass/grant-ip-mismatch", named ++ units (" is pinned to its issuing IP " ++
                "and this redemption arrived from a different address")⟩
      else .ok ())
      (if policy.sessionPin then
        match grant.sessionId with
        | none => .error ⟨"breakglass/grant-session-mismatch", named ++ units (" has " ++
            "sessionPin on but no session id was captured at mint (fail-closed) — re-mint " ++
            "from a request carrying req.session.id")⟩
        | some sessionId =>
            Checked.ensure (orNull req.sessionId = some sessionId)
              ⟨"breakglass/grant-session-mismatch", named ++ units (" is pinned to its issuing " ++
                "session and this redemption arrived from a different session")⟩
      else .ok ())

/-- The decryption of the locked columns one after the other. -/
def decryptColumns (table rowId : JsString) (row : Row) : List JsString → Row → Except Err Row
  | [], unsealedRow => .ok unsealedRow
  | column :: columns, unsealedRow =>
      if row column = .null then decryptColumns table rowId row columns unsealedRow
      else
        match p.decryptCell (row column) table rowId column with
        | .ok cell =>
            decryptColumns table rowId row columns (Function.update unsealedRow column cell)
        | .error e => .error ⟨"breakglass/cell-decrypt-failed",
            units "unsealRow: cell decrypt failed for " ++ table ++ units "[" ++ rowId ++
              units "]." ++ column ++ units " (was the row migrated to Model B?): " ++ e⟩

/-- The row in the clear. -/
def openRow (policy : Option Policy) (grant : GrantRow) (table rowId : JsString) (row : Row) :
    Except Err Row :=
  match policy.filter (·.cryptographic) with
  | some policy => do
      let rowMinusLocked : Row := fun column =>
        if column ∈ policy.columns then .null else row column
      let unsealedRow ← p.unsealRow table rowMinusLocked grant.issuedToActorId
      decryptColumns p table rowId row policy.columns unsealedRow
  | none => p.unsealRow table row grant.issuedToActorId

/-- What a call of `unsealRow` waits for, with what it has read. -/
inductive Pc where
  | grantRead
  | rowRead (grant : GrantRow)
  | increment (grant : GrantRow) (row : Row)
  | postRead (grant : GrantRow) (row : Row)
  | returned (grant : GrantRow) (result : Row)
  | thrown (e : Err)

/-- A call of `unsealRow`. -/
structure Task where
  grantId : JsString
  table : JsString
  rowId : JsString
  req : Request
  pc : Pc

structure St where
  now : Nat
  grants : List GrantRow
  rows : JsString → JsString → Option Row
  tasks : List Task

def St.init (now : Nat) (rows : JsString → JsString → Option Row) : St := ⟨now, [], rows, []⟩

def findGrant (grants : List GrantRow) (id : JsString) : Option GrantRow :=
  grants.find? fun grant => grant.id = id

/-- The condition of the consuming statement. -/
def mayConsume (id : JsString) (now : Nat) (grant : GrantRow) : Bool :=
  grant.id = id ∧ grant.rowsConsumed < grant.maxRowsPerGrant ∧ grant.revokedAt = none ∧
    grant.expiresAt > now

def consume (grant : GrantRow) : GrantRow := { grant with rowsConsumed := grant.rowsConsumed + 1 }

/-- The condition of the statement of `revoke`. -/
def mayRevoke (id : JsString) (grant : GrantRow) : Bool :=
  grant.id = id ∧ grant.revokedAt = none

def markRevoked (now : Nat) (grant : GrantRow) : GrantRow := { grant with revokedAt := some now }

/-- The start of a call, before its first statement. -/
def startPc (table rowId : JsString) : Pc :=
  if table = [] then
    .thrown ⟨"breakglass/bad-grant-opts", units "unsealRow: table must be a non-empty string"⟩
  else if rowId = [] then
    .thrown ⟨"breakglass/bad-grant-opts", units "unsealRow: rowId is required"⟩
  else .grantRead

def Pc.ofExcept {α : Type} (x : Except Err α) (f : α → Pc) : Pc :=
  match x with
  | .ok a => f a
  | .error e => .thrown e

/-- The next statement of a call: the grants after it, and what the call waits for then. -/
def resume (s : St) (t : Task) : Option (List GrantRow × Pc) :=
  let named := units "unsealRow: grant " ++ t.grantId
  match t.pc with
  | .grantRead =>
      some (s.grants, .ofExcept
        (checkGrant p t.grantId t.table s.now (findGrant s.grants t.grantId)) .rowRead)
  | .rowRead grant =>
      some (s.grants, .ofExcept (enforceGrantPins p (policies t.table) grant t.req) fun _ =>
        match s.rows t.table t.rowId with
        | some row => .increment grant row
        | none => .thrown ⟨"breakglass/row-not-found",
            units "unsealRow: " ++ t.table ++ units "[" ++ t.rowId ++ units "] not found"⟩)
  | .increment grant row =>
      if Table.rowCount (mayConsume t.grantId s.now) s.grants < 1 then
        some (s.grants, .thrown ⟨"breakglass/grant-exhausted",
          named ++ units " was exhausted by a concurrent read"⟩)
      else
        some (Table.update (mayConsume t.grantId s.now) consume s.grants, .postRead grant row)
  | .postRead grant row =>
      match findGrant s.grants t.grantId with
      | none => some (s.grants, .thrown ⟨"breakglass/grant-revoked",
          named ++ units " disappeared during unseal"⟩)
      | some _ => some (s.grants, .ofExcept
          (openRow p (policies t.table) grant t.table t.rowId row) (.returned grant))
  | .returned _ _ => none
  | .thrown _ => none

/-! ## The system -/

inductive Act where
  | tick (ms : Nat)
  | grant (opts : GrantOpts) (outcome : FactorOutcome) (grantId : JsString)
  | call (grantId table rowId : JsString) (req : Request)
  | resume (k : Nat)
  | revoke (grantId : JsString)
  /-- Another writer of the application tables. -/
  | write (table rowId : JsString) (row : Option Row)

def step (s : St) : Act → Option St
  | .tick ms => some { s with now := s.now + ms }
  | .grant opts outcome grantId =>
      match grantRow p policies opts outcome grantId s.now with
      | .error _ => some s
      | .ok grant =>
          -- the id is the primary key
          if (findGrant s.grants grantId).isSome then some s
          else some { s with grants := s.grants ++ [grant] }
  | .call grantId table rowId req =>
      some { s with tasks := s.tasks ++ [⟨grantId, table, rowId, req, startPc table rowId⟩] }
  | .resume k =>
      match s.tasks[k]? with
      | none => none
      | some t => (resume p policies s t).map fun r =>
          { s with grants := r.1, tasks := s.tasks.set k { t with pc := r.2 } }
  | .revoke grantId =>
      some { s with grants := Table.update (mayRevoke grantId) (markRevoked s.now) s.grants }
  | .write table rowId row =>
      let inTable := Function.update (s.rows table) rowId row
      some { s with rows := Function.update s.rows table inTable }

end model

end Blamejs.BreakGlass
