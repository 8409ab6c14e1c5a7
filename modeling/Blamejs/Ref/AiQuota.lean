import Blamejs.Js.Date
import Blamejs.Js.Uri

/-!
# Usage budgets (`lib/ai-quota.js`)

An enforcer of `create` over the store in memory, with exact amounts. A call reads the clock for
its window, and the store reads it again. What the calls charge is logged, and a reset takes it
out of the log. The clock counts milliseconds from 1970 and stops short of the last dates there
are.
-/

namespace Blamejs.AiQuota

open Blamejs.Js

abbrev Instant := { t : Int // 0 ≤ t ∧ t < 8600000000000000 }

inductive Period where
  | second
  | minute
  | hour
  | day
  | week
  | month
  deriving DecidableEq, Repr

inductive Dimension where
  | tokens
  | requests
  | costUsd
  | computeHours
  deriving DecidableEq, Repr

inductive Mode where
  | hard
  | soft
  | warn
  deriving DecidableEq, Repr

def Period.text : Period → JsString
  | second => units "second"
  | minute => units "minute"
  | hour => units "hour"
  | day => units "day"
  | week => units "week"
  | month => units "month"

def Dimension.text : Dimension → JsString
  | tokens => units "tokens"
  | requests => units "requests"
  | costUsd => units "cost-usd"
  | computeHours => units "compute-hours"

/-- A map of overrides: positive limits. -/
structure LimitMap where
  get : JsString → Option Rat
  pos : ∀ k v, get k = some v → 0 < v

structure Opts where
  dimension : Dimension
  period : Period
  limit : Rat
  limit_pos : 0 < limit
  perTenant : LimitMap
  perModel : LimitMap
  perTenantModel : LimitMap
  enforcement : Mode

/-! ## Windows -/

/-- `_windowStartFor`; `none` is NaN. -/
def windowStartFor (period : Period) (now : Int) : Option Int :=
  let year := Date.getUTCFullYear now
  let month := Date.getUTCMonth now
  let date := Date.getUTCDate now
  match period with
  | .second => some (now - now.tmod 1000)
  | .minute => some (now - now.tmod 60000)
  | .hour => Date.utc year month date (Date.getUTCHours now) 0 0 0
  | .day => Date.utc year month date 0 0 0 0
  | .week =>
      (Date.utc year month date 0 0 0 0).map fun dayMid =>
        dayMid - (Date.getUTCDay dayMid + 6) % 7 * Date.msPerDay
  | .month => Date.utc year month 1 0 0 0 0

/-- `_resetsAtFor` -/
def resetsAtFor (period : Period) (windowStart : Int) : Option Int :=
  match period with
  | .second => some (windowStart + 1000)
  | .minute => some (windowStart + 60000)
  | .hour => some (windowStart + 3600000)
  | .day => some (windowStart + Date.msPerDay)
  | .week => some (windowStart + 7 * Date.msPerDay)
  | .month =>
      Date.utc (Date.getUTCFullYear windowStart) (Date.getUTCMonth windowStart + 1) 1 0 0 0 0

/-- The bounds of the window of an instant; of all instants there are the two are numbers. -/
def windowOf (period : Period) (now : Int) : Int × Int :=
  let windowStart := (windowStartFor period now).getD 0
  (windowStart, (resetsAtFor period windowStart).getD 0)

/-! ## The store -/

structure Slot where
  value : Rat
  expiresAt : Int
  deriving DecidableEq

abbrev Store := JsString → Option Slot

/-- `_slot` -/
def slot (now : Instant) (key : JsString) (windowMs : Int) (store : Store) : Slot :=
  match store key with
  | some e => if e.expiresAt ≤ now.val then ⟨0, now.val + windowMs⟩ else e
  | none => ⟨0, now.val + windowMs⟩

structure Reserved where
  allowed : Bool
  used : Rat

def reserve (now : Instant) (key : JsString) (amount limit : Rat) (windowMs : Int) (store : Store) :
    Reserved × Store :=
  let e := slot now key windowMs store
  if limit < e.value + amount then (⟨false, e.value⟩, Function.update store key (some e))
  else (⟨true, e.value + amount⟩,
    Function.update store key (some { e with value := e.value + amount }))

def add (now : Instant) (key : JsString) (amount : Rat) (windowMs : Int) (store : Store) :
    Rat × Store :=
  let e := slot now key windowMs store
  (e.value + amount, Function.update store key (some { e with value := e.value + amount }))

def get (now : Instant) (key : JsString) (store : Store) : Rat :=
  match store key with
  | some e => if e.expiresAt ≤ now.val then 0 else e.value
  | none => 0

/-! ## The enforcer -/

inductive Err where
  | badTenant
  | badModel
  | badAmount
  /-- The `URIError` of a lone surrogate. -/
  | malformed
  | exceeded (used limit amount : Rat)
  deriving DecidableEq

def joinedKey (tenantId model : JsString) : JsString := tenantId ++ unit '|' :: model

/-- `_limitFor` -/
def limitFor (o : Opts) (tenantId model : JsString) : Rat :=
  ((o.perTenantModel.get (joinedKey tenantId model)).or
    ((o.perTenant.get tenantId).or (o.perModel.get model))).getD o.limit

/-- `encodeURIComponent`, which throws at a lone surrogate. -/
def encode (s : JsString) : Option JsString :=
  if WellFormed s then some (encodeURIComponent (scalars s)) else none

/-- What every key of a tenant begins with: `_keyPrefixForTenant`. -/
def keyPrefixForTenant (o : Opts) (tenantId : JsString) : Option JsString :=
  (encode tenantId).map fun tenant =>
    units "aiq:" ++ o.dimension.text ++ unit ':' :: o.period.text ++ unit ':' :: tenant ++
      [unit ':']

/-- `_keyFor` -/
def keyFor (o : Opts) (tenantId model : JsString) (windowStart : Int) : Option JsString := do
  let start ← keyPrefixForTenant o tenantId
  let model ← encode model
  pure (start ++ model ++ unit ':' :: intText windowStart)

structure Result where
  used : Rat
  limit : Rat
  remaining : Rat
  allowed : Bool
  exceeded : Bool
  enforcement : Mode
  windowStart : Int
  resetsAt : Int
  deriving DecidableEq

/-- `_result`, without what it repeats of the call and of the options. -/
def result (used limit : Rat) (window : Int × Int) (mode : Mode) (allowed exceeded : Bool) :
    Result :=
  ⟨used, limit, if limit - used < 0 then 0 else limit - used, allowed, exceeded, mode, window.1,
    window.2⟩

def consume (o : Opts) (now storeNow : Instant) (tenantId model : JsString) (amount : Rat)
    (override : Option Mode) (store : Store) : Except Err Result × Store :=
  if tenantId = [] then (.error .badTenant, store)
  else if model = [] then (.error .badModel, store)
  else if amount < 0 then (.error .badAmount, store)
  else
    let mode := override.getD o.enforcement
    let window := windowOf o.period now
    let limit := limitFor o tenantId model
    match keyFor o tenantId model window.1 with
    | none => (.error .malformed, store)
    | some key =>
        if mode = .hard then
          let (rv, store') := reserve storeNow key amount limit (window.2 - window.1) store
          if rv.allowed then (.ok (result rv.used limit window mode true false), store')
          else (.error (.exceeded rv.used limit amount), store')
        else
          let (used, store') := add storeNow key amount (window.2 - window.1) store
          if limit < used then (.ok (result used limit window mode (mode = .warn) true), store')
          else (.ok (result used limit window mode true false), store')

def check (o : Opts) (now storeNow : Instant) (tenantId model : JsString) (store : Store) :
    Except Err Result :=
  if tenantId = [] then .error .badTenant
  else if model = [] then .error .badModel
  else
    let window := windowOf o.period now
    let limit := limitFor o tenantId model
    match keyFor o tenantId model window.1 with
    | none => .error .malformed
    | some key =>
        let used := get storeNow key store
        .ok (result used limit window o.enforcement (used < limit) (limit ≤ used))

/-- What a reset is of. -/
inductive Scope where
  | all
  | tenant (tenantId : JsString)
  | pair (tenantId model : JsString)

def reset (o : Opts) (now : Instant) (scope : Scope) (store : Store) : Except Err Unit × Store :=
  match scope with
  | .all => (.ok (), fun _ => none)
  | .tenant tenantId =>
      if tenantId = [] then (.error .badTenant, store)
      else
        match keyPrefixForTenant o tenantId with
        | none => (.error .malformed, store)
        | some start => (.ok (), fun k => if start <+: k then none else store k)
  | .pair tenantId model =>
      if tenantId = [] then (.error .badTenant, store)
      else if model = [] then (.error .badModel, store)
      else
        match keyFor o tenantId model (windowOf o.period now).1 with
        | none => (.error .malformed, store)
        | some key => (.ok (), Function.update store key none)

/-! ## Runs -/

/-- What a call has charged. -/
structure Charge where
  tenantId : JsString
  model : JsString
  windowStart : Int
  amount : Rat
  mode : Mode

structure St where
  clock : Instant
  store : Store
  charges : List Charge

def St.init (clock : Instant) : St := ⟨clock, fun _ => none, []⟩

inductive Act where
  | consume (now storeNow : Instant) (tenantId model : JsString) (amount : Rat)
      (override : Option Mode)
  | check (now storeNow : Instant) (tenantId model : JsString)
  | reset (now : Instant) (scope : Scope)

/-- Whether a reset takes a charge out. -/
def Scope.covers (scope : Scope) (windowStart : Int) (c : Charge) : Bool :=
  match scope with
  | .all => true
  | .tenant tenantId => c.tenantId = tenantId
  | .pair tenantId model =>
      c.tenantId = tenantId && c.model = model && c.windowStart = windowStart

def step (o : Opts) (s : St) : Act → Option St
  | .consume now storeNow tenantId model amount override =>
      if s.clock.val ≤ now.val ∧ now.val ≤ storeNow.val then
        let r := consume o now storeNow tenantId model amount override s.store
        some ⟨storeNow, r.2, match r.1 with
          | .ok res => s.charges ++ [⟨tenantId, model, res.windowStart, amount, res.enforcement⟩]
          | .error _ => s.charges⟩
      else none
  | .check now storeNow _ _ =>
      if s.clock.val ≤ now.val ∧ now.val ≤ storeNow.val then some { s with clock := storeNow }
      else none
  | .reset now scope =>
      if s.clock.val ≤ now.val then
        let r := reset o now scope s.store
        some ⟨now, r.2, match r.1 with
          | .ok _ => s.charges.filter fun c => !scope.covers (windowOf o.period now).1 c
          | .error _ => s.charges⟩
      else none

end Blamejs.AiQuota
