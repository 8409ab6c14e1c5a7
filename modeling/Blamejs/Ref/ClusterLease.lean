import Blamejs.Js.Text
import Blamejs.Lib.Run
import Mathlib.Logic.Function.Basic

/-!
# The leader lease (`lib/cluster-provider-db.js`, `lib/cluster.js`)

One row holds the lease. `acquireLease`, `renewLease` and `releaseLease` are a
statement each, computed when the call is made and applied some time before it is
answered; on MySQL the first two read the row back in a second one. A node has
one heartbeat under way at most, `beat`, which acquires when the node has no
lease and renews when it has one, and `shutdown` releases beside it, `exit`. A
node may crash and an answer may be lost; a statement that was on its way may
then still be applied, at any later time or never (`strays`). All nodes read one
clock. `generateToken` returns a lease id that is not in `seen`.

`acquired` and `returned` are read by no function: the row as each successful
acquire statement left it, and the leases that `acquireLease` returned.
-/

namespace Blamejs.ClusterLease

open Blamejs.Js Run

/-- The row, and a lease as the provider returns it. -/
structure Lease where
  nodeId : JsString
  leaseId : JsString
  acquiredAt : Int
  expiresAt : Int
  fencingToken : Nat
  endpoint : Option JsString
  deriving DecidableEq, Repr

/-! ## The statements -/

inductive Statement where
  | acquire (nodeId leaseId : JsString) (nowMs expiresAt : Int) (endpoint : Option JsString)
  | renew (nodeId leaseId : JsString) (newAcquiredAt newExpiresAt : Int)
      (endpoint : Option JsString)
  | release (nodeId leaseId : JsString)
  deriving DecidableEq, Repr

def Statement.nodeId : Statement → JsString
  | .acquire nodeId _ _ _ _ | .renew nodeId _ _ _ _ | .release nodeId _ => nodeId

def Statement.leaseId : Statement → JsString
  | .acquire _ leaseId _ _ _ | .renew _ leaseId _ _ _ | .release _ leaseId => leaseId

/-- The row is the statement's own: the WHERE of a renewal or a release, and what
`acquireLease` checks of the row it gets. -/
def Statement.own (st : Statement) (r : Lease) : Bool :=
  r.nodeId = st.nodeId ∧ r.leaseId = st.leaseId

/-- The row as the statement writes it, if it does; what it returns. -/
def Statement.written : Statement → Option Lease → Option Lease
  | .acquire nodeId leaseId nowMs expiresAt endpoint, none =>
      some ⟨nodeId, leaseId, nowMs, expiresAt, 1, endpoint⟩
  | .acquire nodeId leaseId nowMs expiresAt endpoint, some r =>
      if r.expiresAt < nowMs then
        some ⟨nodeId, leaseId, nowMs, expiresAt, r.fencingToken + 1, endpoint⟩
      else none
  | .renew nodeId leaseId newAcquiredAt newExpiresAt endpoint, row =>
      (row.filter (Statement.renew nodeId leaseId newAcquiredAt newExpiresAt endpoint).own).map
        fun r => { r with
          acquiredAt := newAcquiredAt, expiresAt := newExpiresAt, endpoint := endpoint }
  | .release nodeId leaseId, row =>
      (row.filter (Statement.release nodeId leaseId).own).map fun r => { r with expiresAt := 0 }

/-- The row after the statement. -/
def Statement.run (st : Statement) (row : Option Lease) : Option Lease := (st.written row).or row

/-- The lease that `acquireLease` or `renewLease` returns from the row it got,
when that is its own; else null, or the error `lease-lost`. -/
def Statement.lease (st : Statement) (row : Option Lease) : Option Lease := row.filter st.own

/-! ## Nodes -/

/-- How far a heartbeat has come: a statement sent, applied and to be read back,
answered with a row. -/
inductive Op where
  | idle
  | waiting (st : Statement)
  | reading (st : Statement)
  | answered (st : Statement) (row : Option Lease)
  deriving DecidableEq, Repr

/-- How far `shutdown` has come with the release. -/
inductive Exit where
  | idle
  | waiting (st : Statement)
  | answered
  deriving DecidableEq, Repr

/-- The variables of a process; `leader` is `role === "leader"`. -/
structure Node where
  initialized : Bool
  leader : Bool
  nodeId : JsString
  leaseTtlMs : Int
  endpoint : Option JsString
  lease : Option Lease
  beat : Op
  exit : Exit
  deriving DecidableEq, Repr

/-- A process that has started. -/
def Node.start : Node := ⟨false, false, [], 0, none, none, .idle, .idle⟩

/-- What `shutdown` leaves. -/
def Node.shut (n : Node) : Node :=
  { n with initialized := false, leader := false, lease := none, exit := .idle }

def minLeaseTtl : Int := 10000

/-- The statement of `acquireLease`. -/
def Node.acquireLease (n : Node) (leaseId : JsString) (nowMs : Int) : Statement :=
  .acquire n.nodeId leaseId nowMs (nowMs + n.leaseTtlMs) n.endpoint

/-- The statement of `renewLease`. -/
def Node.renewLease (n : Node) (lease : Lease) (nowMs : Int) : Statement :=
  .renew lease.nodeId lease.leaseId nowMs (nowMs + (lease.expiresAt - lease.acquiredAt)) n.endpoint

/-- After a statement of the heartbeat is applied; `row` is what it returned. -/
def Op.applied (mysql : Bool) (st : Statement) (row : Option Lease) : Op :=
  match st with
  | .acquire .. => if mysql then .reading st else .answered st row
  | _ => if mysql && row.isSome then .reading st else .answered st row

/-! ## Runs -/

structure St where
  clock : Int
  row : Option Lease
  nodes : Nat → Node
  strays : List Statement
  seen : List JsString
  acquired : List Lease
  returned : List Lease

def St.init (start : Int) : St := ⟨start, none, fun _ => .start, [], [], [], []⟩

def St.set (s : St) (i : Nat) (n : Node) : St := { s with nodes := Function.update s.nodes i n }

/-- A statement takes effect. -/
def St.apply (s : St) (st : Statement) : St :=
  { s with
    row := st.run s.row
    acquired := s.acquired ++
      match st with
      | .acquire .. => (st.written s.row).toList
      | _ => [] }

def Op.waits : Op → List Statement
  | .waiting st => [st]
  | _ => []

def Exit.waits : Exit → List Statement
  | .waiting st => [st]
  | _ => []

/-- `leaseId` is what `generateToken` returns, when the call makes one. -/
inductive Action where
  | tick (ms : Nat)
  | init (i : Nat) (nodeId : JsString) (leader : Bool) (leaseTtlMs : Int)
      (endpoint : Option JsString) (leaseId : JsString)
  | heartbeat (i : Nat) (leaseId : JsString)
  | apply (i : Nat)
  | readBack (i : Nat)
  | answer (i : Nat)
  | lose (i : Nat)
  | shutdown (i : Nat)
  | applyRelease (i : Nat)
  | answerRelease (i : Nat)
  | loseRelease (i : Nat)
  | applyStray (k : Nat)
  | crash (i : Nat)
  deriving DecidableEq, Repr

def step (mysql : Bool) (s : St) : Action → Option St
  | .tick ms => some { s with clock := s.clock + ms }
  | .init i nodeId leader leaseTtlMs endpoint leaseId =>
      let n := s.nodes i
      if n.initialized ∨ n.beat ≠ .idle ∨ nodeId = [] ∨ leaseTtlMs < minLeaseTtl then none
      else
        let n : Node := ⟨true, leader, nodeId, leaseTtlMs, endpoint, n.lease, .idle, n.exit⟩
        if leader then
          if leaseId ∈ s.seen then none
          else some (St.set { s with seen := leaseId :: s.seen } i
            { n with beat := .waiting (n.acquireLease leaseId s.clock) })
        else some (s.set i n)
  | .heartbeat i leaseId =>
      let n := s.nodes i
      if n.initialized ∧ n.beat = .idle ∧ n.exit = .idle then
        match n.lease with
        | some lease => some (s.set i { n with beat := .waiting (n.renewLease lease s.clock) })
        | none =>
            if n.leader then
              if leaseId ∈ s.seen then none
              else some (St.set { s with seen := leaseId :: s.seen } i
                { n with beat := .waiting (n.acquireLease leaseId s.clock) })
            else some s
      else none
  | .apply i =>
      match (s.nodes i).beat with
      | .waiting st =>
          some ((s.apply st).set i { s.nodes i with beat := .applied mysql st (st.written s.row) })
      | _ => none
  | .readBack i =>
      match (s.nodes i).beat with
      | .reading st => some (s.set i { s.nodes i with beat := .answered st s.row })
      | _ => none
  | .answer i =>
      match (s.nodes i).beat with
      | .answered st row =>
          match st with
          | .acquire .. =>
              match st.lease row with
              | some got =>
                  some (St.set { s with returned := s.returned ++ [got] } i
                    { s.nodes i with lease := some got, beat := .idle })
              | none => some (s.set i { s.nodes i with beat := .idle })
          | _ => some (s.set i { s.nodes i with lease := st.lease row, beat := .idle })
      | _ => none
  | .lose i =>
      if (s.nodes i).beat = .idle then none
      else some (St.set { s with strays := s.strays ++ (s.nodes i).beat.waits } i
        { s.nodes i with beat := .idle })
  | .shutdown i =>
      let n := s.nodes i
      if n.initialized ∧ n.exit = .idle then
        match n.lease with
        | some lease =>
            some (s.set i { n with exit := .waiting (.release lease.nodeId lease.leaseId) })
        | none => some (s.set i n.shut)
      else none
  | .applyRelease i =>
      match (s.nodes i).exit with
      | .waiting st => some ((s.apply st).set i { s.nodes i with exit := .answered })
      | _ => none
  | .answerRelease i =>
      if (s.nodes i).exit = .answered then some (s.set i (s.nodes i).shut) else none
  | .loseRelease i =>
      if (s.nodes i).exit = .idle then none
      else some (St.set { s with strays := s.strays ++ (s.nodes i).exit.waits } i (s.nodes i).shut)
  | .applyStray k =>
      match s.strays[k]? with
      | some st => some { s.apply st with strays := s.strays.eraseIdx k }
      | none => none
  | .crash i =>
      some (St.set
        { s with strays := s.strays ++ (s.nodes i).beat.waits ++ (s.nodes i).exit.waits } i .start)

/-- `initialized && lease && now < lease.expiresAt`. -/
def St.leads (s : St) (i : Nat) : Prop :=
  (s.nodes i).initialized = true ∧ ∃ lease, (s.nodes i).lease = some lease ∧
    s.clock < lease.expiresAt

/-- `fencingToken` of the row; 0 before there is one. -/
def St.token (s : St) : Nat := (s.row.map Lease.fencingToken).getD 0

/-- The statement that takes effect in a step. -/
def St.takesEffect (s : St) : Action → Option Statement
  | .apply i => (s.nodes i).beat.waits.head?
  | .applyRelease i => (s.nodes i).exit.waits.head?
  | .applyStray k => s.strays[k]?
  | _ => none

/-- A statement that acquires: an acquire statement that writes the row. -/
def Statement.acquires (st : Statement) (row : Option Lease) : Bool :=
  match st with
  | .acquire .. => (st.written row).isSome
  | _ => false

end Blamejs.ClusterLease
