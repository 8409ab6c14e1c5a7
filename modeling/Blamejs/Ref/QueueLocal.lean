import Blamejs.Js.JsonText
import Blamejs.Lib.Checked
import Blamejs.Lib.Run
import Blamejs.Lib.Table
import Mathlib.Logic.Function.Basic

/-!
# The local queue (`lib/queue-local.js`, `enqueueFlow` of `lib/queue.js`)

One table of jobs, changed by single statements. `lease`, `extendLease`, `fail`,
`sweepExpired` and `dlqRetry` are one statement each. `complete` is several: it
reads the row, marks it done, enqueues a repeating job again, and then walks the
parked siblings of the job's flow, with a query for each dependency; `Completing`
says how far a call has come. `enqueueFlow` inserts its children one by one and
then rewrites their dependencies from names to ids (`Flowing`). Calls stand side
by side and any of them may stop for good between two statements.

With an action come the readings of the clock, the tokens, the rows another
transaction has locked, the order in which the database answers, and when a cron
expression fires next. `generateToken` returns a text that has not been seen: it
stands nowhere in `St.seen`, where every text goes that a job, a flow or a call
brings in. The encrypted columns `payload` and `lastError` are kept in clear.

`St.log`, `refused` and `children` are read by no function of the code: the jobs
handed out and taken back from the dead letters, oldest first, the calls that
returned false, and the children of flows as they were inserted.
-/

namespace Blamejs.QueueLocal

open Blamejs.Js Checked Run Table

/-- A reading of `Date.now()`. -/
abbrev Date := { ms : Int // ms ≤ 8640000000000000 }

/-- `FLOW_BLOCKED_AVAILABLE_AT`, `Number.MAX_SAFE_INTEGER`. -/
def flowBlockedAvailableAt : Int := 9007199254740991

inductive Status where
  | pending
  | inflight
  | done
  | failed
  deriving DecidableEq, Repr

/-- An element of `dependsOn`: a name or an id, or something that is no string. -/
inductive Dep where
  | str (s : JsString)
  | notString
  deriving DecidableEq, Repr

structure Row where
  id : JsString
  queueName : JsString
  payload : Option JsString
  status : Status
  enqueuedAt : Int
  availableAt : Int
  leasedAt : Option Int
  leaseExpiresAt : Option Int
  attempts : Nat
  maxAttempts : Int
  lastError : Option JsString
  finishedAt : Option Int
  traceId : Option JsString
  classification : Option JsString
  priority : Int
  repeatCron : Option JsString
  repeatTimezone : Option JsString
  flowId : Option JsString
  flowChildName : Option JsString
  dependsOn : Option (List Dep)
  deriving DecidableEq, Repr

/-! ## Dependencies as text -/

def Dep.text : Dep → JsString
  | .str s => quote s
  | .notString => units "null"

/-- `JSON.stringify(deps)`. -/
def depsText (deps : List Dep) : JsString :=
  units "[" ++ (units ",").intercalate (deps.map Dep.text) ++ units "]"

/-- The text is within the 1 MiB `safeJson.parse` is told to read. -/
def fits (deps : List Dep) : Bool := (utf8 (depsText deps)).length ≤ 2 ^ 20

/-- The dependencies `_maybeReleaseFlowChildren` reads off a row; it skips the
row when there are none. -/
def Row.readDeps (r : Row) : List Dep := (r.dependsOn.filter fits).getD []

/-! ## Enqueue -/

/-- The options of `enqueue`. -/
structure EnqueueOpts where
  availableAt : Option Int
  delaySeconds : Int
  priority : Int
  repeatCron : Option JsString
  repeatTimezone : Option JsString
  flowId : Option JsString
  flowChildName : Option JsString
  dependsOn : List JsString
  maxAttempts : Option Int
  traceId : Option JsString
  classification : Option JsString
  deriving DecidableEq, Repr

/-- The row `enqueue` inserts. -/
def enqueue (id queueName : JsString) (payload : Option JsString) (opts : EnqueueOpts)
    (now : Date) : Row :=
  let availableAt := opts.availableAt.getD (now.val + 1000 * opts.delaySeconds)
  let dependsOn := if opts.dependsOn = [] then none else some (opts.dependsOn.map Dep.str)
  { id := id
    queueName := queueName
    payload := payload
    status := .pending
    enqueuedAt := now.val
    availableAt := if dependsOn.isSome then flowBlockedAvailableAt else availableAt
    leasedAt := none
    leaseExpiresAt := none
    attempts := 0
    maxAttempts := opts.maxAttempts.getD 5
    lastError := none
    finishedAt := none
    traceId := opts.traceId
    classification := opts.classification
    priority := opts.priority
    repeatCron := opts.repeatCron
    repeatTimezone := opts.repeatTimezone
    flowId := opts.flowId
    flowChildName := opts.flowChildName
    dependsOn := dependsOn }

/-- The options of a job that stands by itself. -/
structure JobOpts where
  availableAt : Option Int
  delaySeconds : Int
  priority : Int
  repeatCron : Option JsString
  repeatTimezone : Option JsString
  maxAttempts : Option Int
  traceId : Option JsString
  classification : Option JsString
  deriving DecidableEq, Repr

def JobOpts.toEnqueueOpts (o : JobOpts) : EnqueueOpts :=
  ⟨o.availableAt, o.delaySeconds, o.priority, o.repeatCron, o.repeatTimezone, none, none, [],
    o.maxAttempts, o.traceId, o.classification⟩

/-! ## The statements -/

/-- The WHERE of `_leaseCandidates`. -/
def candidate (queueName : JsString) (now : Date) (locked : List JsString) (r : Row) : Bool :=
  r.queueName = queueName ∧ r.status = .pending ∧ r.availableAt ≤ now.val ∧ r.id ∉ locked

/-- Its ORDER BY: priority down, then `availableAt` and `enqueuedAt` up. -/
def leasesBefore (a b : Row) : Prop :=
  b.priority < a.priority ∨ b.priority = a.priority ∧
    (a.availableAt < b.availableAt ∨ a.availableAt = b.availableAt ∧ a.enqueuedAt ≤ b.enqueuedAt)

instance : DecidableRel leasesBefore := fun _ _ => inferInstanceAs (Decidable (_ ∨ _))

/-- What `lease` assigns. -/
def Row.lease (now : Date) (leaseMs : Int) (r : Row) : Row :=
  { r with
    status := .inflight
    leasedAt := some now.val
    leaseExpiresAt := some (now.val + leaseMs)
    attempts := r.attempts + 1 }

/-- The WHERE of `extendLease`, `complete` and `fail`: the job, in flight, under
the attempt number of the call when it carries one. -/
def heldBy (jobId : JsString) (attempt : Option Nat) (r : Row) : Bool :=
  r.id = jobId ∧ r.status = .inflight ∧ attempt.all (r.attempts = ·)

def Row.extendLease (expiry : Int) (r : Row) : Row := { r with leaseExpiresAt := some expiry }

def Row.complete (now : Date) (r : Row) : Row :=
  { r with status := .done, finishedAt := some now.val, leaseExpiresAt := none }

/-- What `fail` assigns; its three CASE expressions test the same. -/
def Row.fail (errorMessage : Option JsString) (retryDelayMs : Int) (now : Date) (r : Row) : Row :=
  let again : Prop := (r.attempts : Int) < r.maxAttempts
  { r with
    status := if again then .pending else .failed
    lastError := errorMessage
    leaseExpiresAt := none
    availableAt := if again then now.val + retryDelayMs else r.availableAt
    finishedAt := if again then none else some now.val }

/-- The WHERE of `sweepExpired`. -/
def expired (now : Date) (r : Row) : Bool :=
  r.status = .inflight ∧ r.leaseExpiresAt.any (· < now.val)

def Row.sweep (r : Row) : Row := { r with status := .pending, leaseExpiresAt := none }

/-- The WHERE of `dlqRetry`. -/
def deadLetter (jobId : JsString) (r : Row) : Bool := r.id = jobId ∧ r.status = .failed

def Row.dlqRetry (now : Date) (r : Row) : Row :=
  { r with
    status := .pending
    attempts := 0
    availableAt := now.val
    finishedAt := none
    leasedAt := none
    leaseExpiresAt := none
    lastError := none }

/-- The siblings `_maybeReleaseFlowChildren` selects. -/
def parked (flowId : JsString) (now : Date) (r : Row) : Bool :=
  r.flowId = some flowId ∧ r.status = .pending ∧ now.val < r.availableAt

/-- Its query for one dependency; `same` says which texts are equal to the database. -/
def satisfies (same : JsString → JsString → Bool) (flowId dep : JsString) (r : Row) : Bool :=
  r.flowId = some flowId ∧ r.status = .done ∧ (same r.id dep ∨ r.flowChildName.any (same · dep))

/-- A database that tells all texts apart. -/
def exactly (x y : JsString) : Bool := x = y

/-! ## Flows -/

/-- A child of a flow spec; `dependsOn` is `[]` when it is left out. -/
structure Child where
  name : JsString
  payload : Option JsString
  dependsOn : List JsString
  priority : Int
  maxAttempts : Option Int
  traceId : Option JsString
  classification : Option JsString
  deriving DecidableEq, Repr

structure FlowSpec where
  queueName : JsString
  children : List Child
  deriving DecidableEq, Repr

/-- The names that every `{}` answers for; `byName` and `nameToJobId` are such. -/
def protoNames : List JsString :=
  ["constructor", "__defineGetter__", "__defineSetter__", "hasOwnProperty", "__lookupGetter__",
    "__lookupSetter__", "isPrototypeOf", "propertyIsEnumerable", "toString", "valueOf", "__proto__",
    "toLocaleString"].map units

inductive FlowError where
  | queueNameRequired
  | childrenRequired
  | nameRequired (index : Nat)
  | duplicateName (name : JsString)
  | flowCycle (path : List JsString)
  | flowUnknownDep (name dep : JsString)
  deriving DecidableEq, Repr

/-- The loop over the children that fills `byName`. -/
def checkNames : Nat → List JsString → List Child → Except FlowError Unit
  | _, _, [] => .ok ()
  | i, byName, c :: rest => do
      ensure (c.name ≠ []) (.nameRequired i)
      ensure (c.name ∉ byName ∧ c.name ∉ protoNames) (.duplicateName c.name)
      checkNames (i + 1) (c.name :: byName) rest

/-- `_visit`. The stack holds names of distinct children, so as many rounds as
there are children, and one more, are enough. -/
def visit (children : List Child) : Nat → List JsString → JsString → Except FlowError Unit
  | 0, stack, name => .error (.flowCycle (stack ++ [name]))
  | fuel + 1, stack, name => do
      ensure (name ∉ stack) (.flowCycle (stack ++ [name]))
      match children.find? (·.name = name) with
      | none => pure ()
      | some child =>
          child.dependsOn.forM fun dep => do
            ensure (dep ∈ children.map Child.name ∨ dep ∈ protoNames) (.flowUnknownDep name dep)
            visit children fuel (stack ++ [name]) dep

/-- The checks of `enqueueFlow`. The children are visited as they stand in the
spec, where the code takes names that read as array indices first; only which of
two errors is reported depends on it. -/
def FlowSpec.check (spec : FlowSpec) : Except FlowError Unit := do
  ensure (spec.queueName ≠ []) .queueNameRequired
  ensure (spec.children ≠ []) .childrenRequired
  checkNames 0 [] spec.children
  spec.children.forM fun c => visit spec.children (spec.children.length + 1) [] c.name

/-- The options `enqueueFlow` enqueues a child with. -/
def Child.toEnqueueOpts (flowId : JsString) (c : Child) : EnqueueOpts :=
  ⟨none, 0, c.priority, none, none, some flowId, some c.name, c.dependsOn, c.maxAttempts, c.traceId,
    c.classification⟩

/-- An element of `jobs`. -/
structure FlowJob where
  name : JsString
  jobId : JsString
  dependsOn : List JsString
  deriving DecidableEq, Repr

/-- `nameToJobId[name]`, as an element of a JSON array. -/
def jobIdOf (jobs : List FlowJob) (name : JsString) : Dep :=
  match jobs.find? (·.name = name) with
  | some job => .str job.jobId
  | none => .notString

/-- How far an `enqueueFlow` call has come: the children to insert and those
inserted, then the jobs whose dependencies are still to be rewritten. -/
inductive Flowing where
  | idle
  | inserting (queueName : JsString) (todo : List Child) (jobs : List FlowJob)
  | patching (jobs todo : List FlowJob)
  deriving DecidableEq, Repr

def Flowing.patch (jobs : List FlowJob) : List FlowJob → Flowing
  | [] => .idle
  | job :: todo => .patching jobs (job :: todo)

/-- After a child is inserted. -/
def Flowing.inserted (queueName : JsString) (jobs : List FlowJob) : List Child → Flowing
  | [] => .patch jobs (jobs.filter (·.dependsOn ≠ []))
  | c :: todo => .inserting queueName (c :: todo) jobs

/-! ## Completion -/

/-- The arguments of `_maybeReleaseFlowChildren`. -/
structure Release where
  flowId : JsString
  jobId : JsString
  childName : Option JsString
  now : Date
  deriving DecidableEq, Repr

/-- A dependency that is the completed job itself is not looked up. -/
def Release.isSelf (rel : Release) : Dep → Bool
  | .str dep => dep = rel.jobId ∨ dep ≠ [] ∧ rel.childName = some dep
  | .notString => false

/-- How far a `complete` call has come: the row is read; the job is done and is
to be enqueued again; the siblings are to be selected; a dependency of a sibling
is to be looked up; a sibling is to be released. -/
inductive Completing where
  | idle
  | selected (jobId : JsString) (attempt : Option Nat) (now : Date) (row : Option Row)
  | repeating (row : Row) (now : Date)
  | releasing (rel : Release)
  | checking (rel : Release) (sib : JsString) (dep : JsString) (deps : List Dep) (rest : List Row)
  | updating (rel : Release) (sib : JsString) (rest : List Row)
  deriving DecidableEq, Repr

/-- The loop over the dependencies of a sibling, up to the next query. The
builder refuses a `where` on what is no string, so that the call throws. -/
def Completing.check (rel : Release) (sib : JsString) (rest : List Row) : List Dep → Completing
  | [] => .updating rel sib rest
  | dep :: deps =>
      if rel.isSelf dep then check rel sib rest deps
      else match dep with
        | .str dep => .checking rel sib dep deps rest
        | .notString => .idle

/-- The loop over the siblings, up to the next statement. -/
def Completing.next (rel : Release) : List Row → Completing
  | [] => .idle
  | sib :: rest =>
      if sib.readDeps = [] then next rel rest
      else .check rel sib.id rest sib.readDeps

/-- After the job is done: what is left of `complete`. -/
def Completing.release (row : Row) (now : Date) : Completing :=
  match row.flowId.filter (· ≠ []) with
  | some flowId => .releasing ⟨flowId, row.id, row.flowChildName, now⟩
  | none => .idle

def Completing.afterDone (row : Option Row) (now : Date) : Completing :=
  match row with
  | none => .idle
  | some row =>
      if (row.repeatCron.filter (· ≠ [])).isSome then .repeating row now else .release row now

/-- The job a repeating one is enqueued again as. -/
def repeatOpts (row : Row) (nextMs : Int) : EnqueueOpts :=
  ⟨some nextMs, 0, row.priority, row.repeatCron, row.repeatTimezone, none, none, [],
    if 0 < row.maxAttempts then some row.maxAttempts else none, row.traceId, row.classification⟩

/-! ## Runs -/

inductive Event where
  | leased (jobId : JsString) (attempt : Nat)
  | requeued (jobId : JsString)
  deriving DecidableEq, Repr

/-- A child of a flow, as inserted. -/
structure FlowChild where
  flowId : JsString
  name : JsString
  jobId : JsString
  dependsOn : List JsString
  deriving DecidableEq, Repr

structure St where
  rows : List Row
  completes : Nat → Completing
  flows : JsString → Flowing
  seen : List JsString
  log : List Event
  refused : List (JsString × Option Nat)
  children : List FlowChild

def St.init : St := ⟨[], fun _ => .idle, fun _ => .idle, [], [], [], []⟩

def St.goto (s : St) (w : Nat) (pc : Completing) : St :=
  { s with completes := Function.update s.completes w pc }

def St.flow (s : St) (flowId : JsString) (pc : Flowing) : St :=
  { s with flows := Function.update s.flows flowId pc }

/-- A statement of a call with an attempt number, and its answer
`rowCount > 0`. -/
def St.call (s : St) (jobId : JsString) (attempt : Option Nat) (f : Row → Row) : St :=
  { s with
    rows := update (heldBy jobId attempt) f s.rows
    refused := s.refused ++
      if rowCount (heldBy jobId attempt) s.rows = 0 then [(jobId, attempt)] else [] }

/-- The re-enqueue of a repeating job: when the expression fires next and the
payload as it is written again. -/
structure Repeat where
  id : JsString
  now : Date
  nextMs : Int
  payload : Option JsString
  deriving DecidableEq, Repr

/-- `w` numbers the `complete` calls. `rows` in `lease` are the candidates in the
order the database sorts them in, `siblings` the rows it answers with, and
`next` is `none` when the re-enqueue throws. -/
inductive Action where
  | enqueue (id queueName : JsString) (payload : Option JsString) (opts : JobOpts) (now : Date)
  | lease (queueName : JsString) (leaseMs : Int) (count : Nat) (now : Date) (locked : List JsString)
      (rows : List Row)
  | extendLease (jobId : JsString) (additionalMs : Int) (attempt : Option Nat) (now : Date)
  | complete (w : Nat) (jobId : JsString) (attempt : Option Nat) (now : Date)
  | markDone (w : Nat)
  | repeatJob (w : Nat) (next : Option Repeat)
  | selectSiblings (w : Nat) (siblings : List Row)
  | checkDep (w : Nat)
  | releaseChild (w : Nat)
  | fail (jobId : JsString) (errorMessage : Option JsString) (retryDelayMs : Int)
      (attempt : Option Nat) (now : Date)
  | sweepExpired (now : Date)
  | dlqRetry (jobId : JsString) (now : Date)
  | startFlow (token : JsString) (spec : FlowSpec)
  | insertChild (flowId id : JsString) (now : Date)
  | patchFlowDeps (flowId : JsString)
  | abandon (w : Nat)
  | abandonFlow (flowId : JsString)
  deriving DecidableEq

/-- The texts a flow spec brings in. -/
def FlowSpec.texts (spec : FlowSpec) : List JsString :=
  spec.children.flatMap fun c => c.name :: c.dependsOn

def stepWith (same : JsString → JsString → Bool) (s : St) : Action → Option St
  | .enqueue id queueName payload opts now =>
      if id ∈ s.seen then none
      else some { s with
        rows := s.rows ++ [enqueue id queueName payload opts.toEnqueueOpts now]
        seen := id :: s.seen }
  | .lease queueName leaseMs count now locked rows =>
      if rows.Perm (s.rows.filter (candidate queueName now locked)) ∧
          rows.Pairwise leasesBefore then
        let leased := rows.take count
        some { s with
          rows := update (fun r => r.id ∈ leased.map Row.id) (Row.lease now leaseMs) s.rows
          log := s.log ++ leased.map fun r => .leased r.id (r.attempts + 1) }
      else none
  | .extendLease jobId additionalMs attempt now =>
      if additionalMs ≤ 0 then some s
      else some (s.call jobId attempt (Row.extendLease (now.val + additionalMs)))
  | .complete w jobId attempt now =>
      match s.completes w with
      | .idle =>
          some (St.goto { s with seen := jobId :: s.seen } w
            (.selected jobId attempt now (s.rows.find? (·.id = jobId))))
      | _ => none
  | .markDone w =>
      match s.completes w with
      | .selected jobId attempt now row =>
          let settled := rowCount (heldBy jobId attempt) s.rows ≠ 0
          some ((s.call jobId attempt (Row.complete now)).goto w
            (if settled then .afterDone row now else .idle))
      | _ => none
  | .repeatJob w next =>
      match s.completes w with
      | .repeating row now =>
          match next with
          | none => some (s.goto w (.release row now))
          | some r =>
              if r.id ∈ s.seen then none
              else some (St.goto { s with
                rows := s.rows ++ [enqueue r.id row.queueName r.payload
                  (repeatOpts row r.nextMs) r.now]
                seen := r.id :: s.seen } w (.release row now))
      | _ => none
  | .selectSiblings w siblings =>
      match s.completes w with
      | .releasing rel =>
          if siblings.Perm (s.rows.filter (parked rel.flowId rel.now)) then
            some (s.goto w (.next rel siblings))
          else none
      | _ => none
  | .checkDep w =>
      match s.completes w with
      | .checking rel sib dep deps rest =>
          some (s.goto w
            (if s.rows.any (satisfies same rel.flowId dep) then .check rel sib rest deps
              else .next rel rest))
      | _ => none
  | .releaseChild w =>
      match s.completes w with
      | .updating rel sib rest =>
          some (St.goto { s with
            rows := update (·.id = sib) (fun r => { r with availableAt := rel.now.val }) s.rows } w
            (.next rel rest))
      | _ => none
  | .fail jobId errorMessage retryDelayMs attempt now =>
      some (s.call jobId attempt (Row.fail errorMessage retryDelayMs now))
  | .sweepExpired now => some { s with rows := update (expired now) Row.sweep s.rows }
  | .dlqRetry jobId now =>
      some { s with
        rows := update (deadLetter jobId) (Row.dlqRetry now) s.rows
        log := s.log ++ if rowCount (deadLetter jobId) s.rows = 0 then [] else [.requeued jobId] }
  | .startFlow token spec =>
      let flowId := units "flow-" ++ token
      match spec.check with
      | .error _ => some s
      | .ok _ =>
          if flowId ∈ s.seen ∨ flowId ∈ spec.texts then none
          else some (St.flow { s with seen := flowId :: spec.texts ++ s.seen } flowId
            (.inserting spec.queueName spec.children []))
  | .insertChild flowId id now =>
      match s.flows flowId with
      | .inserting queueName (c :: todo) jobs =>
          if id ∈ s.seen then none
          else some (St.flow { s with
            rows := s.rows ++ [enqueue id queueName c.payload (c.toEnqueueOpts flowId) now]
            seen := id :: s.seen
            children := s.children ++ [⟨flowId, c.name, id, c.dependsOn⟩] } flowId
            (.inserted queueName (jobs ++ [⟨c.name, id, c.dependsOn⟩]) todo))
      | _ => none
  | .patchFlowDeps flowId =>
      match s.flows flowId with
      | .patching jobs (job :: todo) =>
          some (St.flow { s with
            rows := update (·.id = job.jobId)
              (fun r => { r with dependsOn := some (job.dependsOn.map (jobIdOf jobs)) }) s.rows }
            flowId (.patch jobs todo))
      | _ => none
  | .abandon w => some (s.goto w .idle)
  | .abandonFlow flowId => some (s.flow flowId .idle)

/-- The steps over a database that tells all texts apart. -/
def step : St → Action → Option St := stepWith exactly

end Blamejs.QueueLocal
