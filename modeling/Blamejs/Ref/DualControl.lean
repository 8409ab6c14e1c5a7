import Blamejs.Js.ToNumber
import Blamejs.Lib.Run
import Mathlib.Data.List.Basic
import Mathlib.Logic.Function.Basic

/-!
# Dual control (`lib/dual-control.js`)

A grant is one record in a cache, changed only through `cache.update`, which
runs a mutator on the live record and commits what it returns; the mutators are
`approveFn`, `cancelFn`, `revokeFn` and `consumeFn`. What the cache does is a
parameter of each action: it may show a mutator nothing although it holds a
record (the entry has expired by its clock), and it may lose an entry at any
time. `Date.now()` is read several times in a mutator and every reading is its
own number.

`St.log` lists what was committed, oldest first, and a consumption keeps the
part of it that came before; no function of the code reads either.
-/

namespace Blamejs.DualControl

open Blamejs.Js Run

/-- `permissions.match`, part by part. -/
def matchParts : List JsString → List JsString → Bool
  | [], required => required.isEmpty
  | g :: granted, required =>
      if g = [unit '*'] ∧ granted = [] then true
      else match required with
        | [] => false
        | r :: required => (g = [unit '*'] ∨ g = r) && matchParts granted required

/-- `permissions.match(granted, required)`. -/
def permits (granted required : JsString) : Bool :=
  granted ≠ [] && required ≠ [] &&
    matchParts (granted.splitOn (unit ':')) (required.splitOn (unit ':'))

/-- The options of `create`, as it accepts them. -/
structure Config where
  ttlMs : Int
  minApprovers : Nat
  forbidSelfApprove : Bool
  consumeLockMs : Int
  minReasonLength : Nat
  approverRoles : Option (List JsString)
  ttl_pos : 0 < ttlMs
  two_le : 2 ≤ minApprovers
  lock_nonneg : 0 ≤ consumeLockMs

/-- The properties of an actor object that are read; `none` is not a string, in
`roles` not an array. -/
structure Actor where
  id : Option JsString
  mongoId : Option JsString
  userId : Option JsString
  email : Option JsString
  roles : Option (List (Option JsString))
  deriving DecidableEq, Repr

/-- `_actorIdOf`; the argument is `none` when it is no object. -/
def actorIdOf : Option Actor → Option JsString
  | none => none
  | some a =>
      (nonEmpty a.id).or <| (nonEmpty a.mongoId).or <| (nonEmpty a.userId).or <|
        (nonEmpty a.email).map (units "email:" ++ ·)
where
  nonEmpty (s : Option JsString) : Option JsString := s.filter (· ≠ [])

/-- `_approverRoleOk`. -/
def Config.approverRoleOk (cfg : Config) (actor : Option Actor) : Bool :=
  match cfg.approverRoles with
  | none => true
  | some required =>
      match actor.bind Actor.roles with
      | none => false
      | some roles => required.any fun r => roles.any fun role => role.any (permits · r)

/-- `_checkReason`: there is a problem. -/
def Config.reasonTooShort (cfg : Config) (reason : Option JsString) : Bool :=
  cfg.minReasonLength > 0 && (trim (reason.getD [])).length < cfg.minReasonLength

/-- `reason || null`. -/
def orNull (reason : Option JsString) : Option JsString := reason.filter (· ≠ [])

/-- A grant record. -/
structure Record where
  grantId : JsString
  action : JsString
  requestedBy : JsString
  requestedAt : Int
  reason : Option JsString
  approvedBy : List JsString
  approvalsAt : List Int
  approvalReasons : List (Option JsString)
  approverRoleHits : List (List JsString)
  consumedAt : Option Int
  revokedAt : Option Int
  revokedReason : Option JsString
  cancelledAt : Option Int
  cancelledReason : Option JsString
  quorumReachedAt : Option Int
  expiresAt : Int
  minApprovers : Nat
  consumeLockMs : Int
  deriving DecidableEq, Repr

/-- Why a mutator aborts: the `error` or `reason` of the response. -/
inductive Refusal where
  | grantNotFound
  | alreadyConsumed
  | revoked
  | cancelled
  | alreadyCancelled
  | onlyRequesterCanCancel (requestedBy : JsString)
  | expired
  | selfApprovalForbidden
  | approverRoleRequired
  | alreadyApproved (approvedBy : List JsString)
  | reasonTooShort
  | notEnoughApprovers (approvedBy : List JsString) (needs : Nat)
  | consumeLocked (unlockAt waitMs : Int)
  deriving DecidableEq, Repr

/-- The record `request` stores. -/
def Config.newRecord (cfg : Config) (grantId action requesterId : JsString)
    (reason : Option JsString) (nowMs : Int) : Record where
  grantId := grantId
  action := action
  requestedBy := requesterId
  requestedAt := nowMs
  reason := orNull reason
  approvedBy := []
  approvalsAt := []
  approvalReasons := []
  approverRoleHits := []
  consumedAt := none
  revokedAt := none
  revokedReason := none
  cancelledAt := none
  cancelledReason := none
  quorumReachedAt := none
  expiresAt := nowMs + cfg.ttlMs
  minApprovers := cfg.minApprovers
  consumeLockMs := cfg.consumeLockMs

/-- The mutator of `cancel`. -/
def cancelFn (cancelledBy : Option Actor) (reason : Option JsString) (nowMs : Int) :
    Option Record → Except Refusal Record
  | none => .error .grantNotFound
  | some r =>
      if r.consumedAt ≠ none then .error .alreadyConsumed
      else if r.revokedAt ≠ none then .error .revoked
      else if r.cancelledAt ≠ none then .error .alreadyCancelled
      else if actorIdOf cancelledBy ≠ some r.requestedBy then
        .error (.onlyRequesterCanCancel r.requestedBy)
      else .ok { r with cancelledAt := some nowMs, cancelledReason := orNull reason }

/-- The readings of the clock in `approve`'s mutator. -/
structure ApproveClock where
  checked : Int
  stamped : Int
  quorum : Int
  deriving DecidableEq, Repr

/-- The roles of the approver that are listed as they stand; `none` without
`approverRoles`. -/
def Config.roleHits (cfg : Config) (approver : Actor) : Option (List JsString) :=
  match cfg.approverRoles, approver.roles with
  | some required, some roles => some (roles.filterMap fun role => role.filter (· ∈ required))
  | _, _ => none

/-- The mutator of `approve`. -/
def Config.approveFn (cfg : Config) (approver : Actor) (approverId : JsString)
    (reason : Option JsString) (clock : ApproveClock) : Option Record → Except Refusal Record
  | none => .error .grantNotFound
  | some r =>
      if r.consumedAt ≠ none then .error .alreadyConsumed
      else if r.revokedAt ≠ none then .error .revoked
      else if r.cancelledAt ≠ none then .error .cancelled
      else if r.expiresAt < clock.checked then .error .expired
      else if cfg.forbidSelfApprove ∧ approverId = r.requestedBy then .error .selfApprovalForbidden
      else if ¬ cfg.approverRoleOk (some approver) then .error .approverRoleRequired
      else if approverId ∈ r.approvedBy then .error (.alreadyApproved r.approvedBy)
      else if cfg.reasonTooShort reason then .error .reasonTooShort
      else
        let approvedBy := r.approvedBy ++ [approverId]
        .ok { r with
          approvedBy := approvedBy
          approvalsAt := r.approvalsAt ++ [clock.stamped]
          approvalReasons := r.approvalReasons ++ [orNull reason]
          approverRoleHits := r.approverRoleHits ++ (cfg.roleHits approver).toList
          quorumReachedAt :=
            if approvedBy.length ≥ r.minApprovers ∧ r.quorumReachedAt = none then some clock.quorum
            else r.quorumReachedAt }

/-- The mutator of `revoke`. -/
def revokeFn (reason : Option JsString) (nowMs : Int) : Option Record → Except Refusal Record
  | none => .error .grantNotFound
  | some r =>
      if r.consumedAt ≠ none then .error .alreadyConsumed
      else .ok { r with revokedAt := some nowMs, revokedReason := orNull reason }

/-- The readings of the clock in `consume`'s mutator. -/
structure ConsumeClock where
  checked : Int
  locked : Int
  waited : Int
  consumed : Int
  deriving DecidableEq, Repr

/-- When the lock lifts, if there is one. -/
def Record.unlockAt (r : Record) : Option Int :=
  if r.consumeLockMs > 0 then r.quorumReachedAt.map (· + r.consumeLockMs) else none

/-- The mutator of `consume`. -/
def consumeFn (clock : ConsumeClock) : Option Record → Except Refusal Record
  | none => .error .grantNotFound
  | some r =>
      if r.revokedAt ≠ none then .error .revoked
      else if r.cancelledAt ≠ none then .error .cancelled
      else if r.consumedAt ≠ none then .error .alreadyConsumed
      else if r.expiresAt < clock.checked then .error .expired
      else if r.approvedBy.length < r.minApprovers then
        .error (.notEnoughApprovers r.approvedBy r.minApprovers)
      else match r.unlockAt.filter (clock.locked < ·) with
        | some unlockAt => .error (.consumeLocked unlockAt (unlockAt - clock.waited))
        | none => .ok { r with consumedAt := some clock.consumed }

/-! ## Runs -/

/-- What was committed. -/
inductive Event where
  | requested (grantId requesterId : JsString) (nowMs : Int)
  | approved (grantId : JsString) (approver : Actor) (approverId : JsString) (quorum : Int)
  | cancelled (grantId : JsString)
  | revoked (grantId : JsString)
  deriving DecidableEq, Repr

def Event.grantId : Event → JsString
  | .requested grantId _ _ => grantId
  | .approved grantId _ _ _ => grantId
  | .cancelled grantId => grantId
  | .revoked grantId => grantId

/-- The grant id an event handed out. -/
def Event.newId : Event → Option JsString
  | .requested grantId _ _ => some grantId
  | _ => none

/-- A committed consumption: the record as it was consumed, the clock, and what
had been committed before. -/
structure Consumption where
  record : Record
  clock : ConsumeClock
  before : List Event
  deriving DecidableEq, Repr

/-- `closing` are the `consume` calls that have committed and have yet to delete
the record and answer; `ready` those that answered `ready: true`; `expiring` the
ones that found the grant expired and will delete it. -/
structure St where
  cache : JsString → Option Record
  closing : List Consumption
  ready : List Consumption
  expiring : List JsString
  log : List Event

def St.init : St := ⟨fun _ => none, [], [], [], []⟩

/-- The grant ids handed out so far. -/
def St.issued (s : St) : List JsString := s.log.filterMap Event.newId

def St.put (s : St) (grantId : JsString) (record : Option Record) : St :=
  { s with cache := Function.update s.cache grantId record }

/-- What the cache shows a mutator. -/
def St.shown (s : St) (grantId : JsString) (live : Bool) : Option Record :=
  if live then s.cache grantId else none

inductive Action where
  | request (grantId action : JsString) (requestedBy : Option Actor) (reason : Option JsString)
      (nowMs : Int)
  | approve (grantId : JsString) (approver : Option Actor) (reason : Option JsString)
      (clock : ApproveClock) (live : Bool)
  | cancel (grantId : JsString) (cancelledBy : Option Actor) (reason : Option JsString)
      (nowMs : Int) (live : Bool)
  | revoke (grantId : JsString) (reason : Option JsString) (nowMs : Int) (live : Bool)
  | consume (grantId : JsString) (clock : ConsumeClock) (live : Bool)
  /-- a committed `consume` deletes its record, or fails to, and answers -/
  | close (index : Nat) (deleted : Bool)
  /-- a `consume` that found its grant expired deletes it -/
  | expire (index : Nat)
  /-- the cache loses an entry -/
  | lose (grantId : JsString)

/-- A call that throws or answers a refusal changes nothing. A grant id is a
random token: it is one that was not handed out before. -/
def step (cfg : Config) (s : St) : Action → Option St
  | .request grantId action requestedBy reason nowMs =>
      match actorIdOf requestedBy with
      | none => some s
      | some requesterId =>
          if action = [] ∨ cfg.reasonTooShort reason then some s
          else if grantId ∈ s.issued then none
          else some { s.put grantId (some (cfg.newRecord grantId action requesterId reason nowMs))
            with log := s.log ++ [.requested grantId requesterId nowMs] }
  | .approve grantId approver reason clock live =>
      match approver, actorIdOf approver with
      | some actor, some approverId =>
          match cfg.approveFn actor approverId reason clock (s.shown grantId live) with
          | .error _ => some s
          | .ok r => some { s.put grantId (some r) with
              log := s.log ++ [.approved grantId actor approverId clock.quorum] }
      | _, _ => some s
  | .cancel grantId cancelledBy reason nowMs live =>
      match cancelFn cancelledBy reason nowMs (s.shown grantId live) with
      | .error _ => some s
      | .ok r => some { s.put grantId (some r) with log := s.log ++ [.cancelled grantId] }
  | .revoke grantId reason nowMs live =>
      match revokeFn reason nowMs (s.shown grantId live) with
      | .error _ => some s
      | .ok r => some { s.put grantId (some r) with log := s.log ++ [.revoked grantId] }
  | .consume grantId clock live =>
      match consumeFn clock (s.shown grantId live) with
      | .error .expired => some { s with expiring := s.expiring ++ [grantId] }
      | .error _ => some s
      | .ok r => some { s.put grantId (some r) with
          closing := s.closing ++ [⟨r, clock, s.log⟩] }
  | .close index deleted =>
      match s.closing[index]? with
      | none => none
      | some x =>
          let s' := { s with closing := s.closing.eraseIdx index }
          if deleted then some { s'.put x.record.grantId none with ready := s.ready ++ [x] }
          else some s'
  | .expire index =>
      match s.expiring[index]? with
      | none => none
      | some grantId => some { s.put grantId none with expiring := s.expiring.eraseIdx index }
  | .lose grantId => some (s.put grantId none)

end Blamejs.DualControl
