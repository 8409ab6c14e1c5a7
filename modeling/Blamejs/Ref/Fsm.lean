import Blamejs.Js.JsonText
import Blamejs.Lib.Checked
import Blamejs.Lib.Run

/-!
# State machines (`lib/fsm.js`)

`define` compiles a definition; `create` and `restore` build an instance, and
`transition` queues a call behind the instance's lock. The lock is a chain of
promises, each call chained on the settling of the one before it whichever way
that went, so the calls run one at a time in the order they were made: `St`
keeps the settled calls, the one that is running and the ones that wait.

Guards and hooks are the operator's functions. An action carries what they did
when the machine called them — returned, refused, threw, answered a promise,
changed the context — so that every behaviour is some sequence of actions. A
call is cut where the code awaits: at a promise from `onExit`, before the
commit, and at one from `onEnter`, after it.
-/

namespace Blamejs.Fsm

open Blamejs.Js Checked Run

/-- `FsmError`. -/
structure FsmError where
  code : JsString
  message : JsString
  deriving DecidableEq, Repr

/-- A value where the code wants a string: one, or something else, of which
only the text `JSON.stringify` gives it reaches a message. -/
inductive Named where
  | str (s : JsString)
  | other (json : JsString)
  deriving DecidableEq, Repr

def Named.json : Named → JsString
  | .str s => quote s
  | .other json => json

/-- What `typeof` says of a guard or hook slot. -/
inductive Slot where
  | undefined
  | function
  | other
  deriving DecidableEq, Repr

/-- A value of `definition.states`; hooks are checked on objects only. -/
structure StateBody where
  isObject : Bool
  onEnter : Slot
  onExit : Slot
  deriving DecidableEq, Repr

structure TransitionDef where
  fromState : Named
  toState : Named
  on : Named
  guard : Slot
  deriving DecidableEq, Repr

/-- The argument of `define`; `none` is a field that is not of the type the code
asks for, in `transitions` an entry that is no object. `states` is in
`Object.keys` order. -/
structure Definition where
  name : Named
  initial : Option JsString
  states : Option (List (JsString × StateBody))
  transitions : Option (List (Option TransitionDef))
  deriving DecidableEq, Repr

/-! ## Compiling -/

/-- `codepointClass.isAsciiLetter`. -/
def isAsciiLetter (u : UInt16) : Bool :=
  (65 ≤ u.toNat && u.toNat ≤ 90) || (97 ≤ u.toNat && u.toNat ≤ 122)

/-- `IDENTIFIER_TAIL`: letters, digits and underscores. -/
def isIdentTail (u : UInt16) : Bool :=
  isAsciiLetter u || (48 ≤ u.toNat && u.toNat ≤ 57) || u == unit '_'

/-- `safeSql.isDefaultIdentifier`. -/
def isIdent : JsString → Bool
  | [] => false
  | u :: rest => (isAsciiLetter u || u == unit '_') && rest.all isIdentTail

def identMaxLen : Nat := 63

def identShape : JsString :=
  units "a letter or underscore followed by letters, digits and underscores"

def badInput (message : JsString) : FsmError := ⟨units "fsm/bad-input", message⟩

/-- `_assertIdent`: answers the string it accepted. -/
def assertIdent (value : Named) (label : JsString) : Except FsmError JsString :=
  match value with
  | .str s => if s.length ≤ identMaxLen ∧ isIdent s then .ok s else .error (bad value.json)
  | .other json => .error (bad json)
where
  bad (json : JsString) : FsmError :=
    ⟨units "fsm/bad-name", label ++ units " must be " ++ identShape ++
      units " and be <= 63 chars (got " ++ json ++ units ")"⟩

/-- One round of the loop over `stateNames`. -/
def checkState (entry : JsString × StateBody) : Except FsmError Unit := do
  let name ← assertIdent (.str entry.1) (units "define: state name")
  ensure (¬ (entry.2.isObject ∧ entry.2.onEnter = .other))
    (badInput (units "define: states." ++ name ++ units ".onEnter must be a function"))
  ensure (¬ (entry.2.isObject ∧ entry.2.onExit = .other))
    (badInput (units "define: states." ++ name ++ units ".onExit must be a function"))

/-- A transition of a compiled machine. -/
structure Edge where
  fromState : JsString
  toState : JsString
  on : JsString
  guarded : Bool
  deriving DecidableEq, Repr

/-- `transitions[i]` as the messages spell it. -/
def slotLabel (index : Nat) (field : String) : JsString :=
  units "define: transitions[" ++ (Nat.toDigits 10 index).map unit ++ units "]" ++ units field

/-- One round of the loop over `definition.transitions`: `seen` are the edges of
the rounds before. -/
def checkTransition (states : List (JsString × StateBody)) (seen : List Edge) (index : Nat)
    (entry : Option TransitionDef) : Except FsmError Edge :=
  match entry with
  | none => .error (badInput (slotLabel index " must be an object"))
  | some t => do
    let fromState ← assertIdent t.fromState (slotLabel index ".from")
    let toState ← assertIdent t.toState (slotLabel index ".to")
    let on ← assertIdent t.on (slotLabel index ".on")
    ensure ((states.map Prod.fst).contains fromState)
      (badInput (units "define: transition '" ++ on ++
        units "' references unknown from-state '" ++ fromState ++ units "'"))
    ensure ((states.map Prod.fst).contains toState)
      (badInput (units "define: transition '" ++ on ++
        units "' references unknown to-state '" ++ toState ++ units "'"))
    ensure (t.guard ≠ .other)
      (badInput (units "define: transition '" ++ on ++ units "'.guard must be a function"))
    ensure (¬ seen.any fun e => e.fromState == fromState && e.on == on)
      (badInput (units "define: duplicate transition (from='" ++ fromState ++
        units "', on='" ++ on ++ units "')"))
    .ok ⟨fromState, toState, on, t.guard = .function⟩

def checkTransitions (states : List (JsString × StateBody)) :
    List Edge → Nat → List (Option TransitionDef) → Except FsmError (List Edge)
  | seen, _, [] => .ok seen
  | seen, index, t :: rest => do
    let e ← checkTransition states seen index t
    checkTransitions states (seen ++ [e]) (index + 1) rest

/-- The hooks of a state that are there to be called. -/
structure Hooks where
  onEnter : Bool
  onExit : Bool
  deriving DecidableEq, Repr

/-- What `define` answers; `_byName[name]` is the edges on `name`, in order. -/
structure Machine where
  name : JsString
  initial : JsString
  states : List (JsString × Hooks)
  transitions : List Edge
  deriving DecidableEq, Repr

/-- A required field, or why it will not do. -/
def required {α : Type} (field : Option α) (message : String) : Except FsmError α :=
  match field with
  | some a => .ok a
  | none => .error (badInput (units message))

def define (d : Definition) : Except FsmError Machine := do
  let name ← assertIdent d.name (units "define: definition.name")
  let initial ← required d.initial "define: definition.initial required"
  let states ← required d.states "define: definition.states must be an object"
  let transitions ← required d.transitions "define: definition.transitions must be an array"
  ensure (states ≠ []) (badInput (units "define: at least one state required"))
  states.forM checkState
  ensure ((states.map Prod.fst).contains initial)
    (badInput (units "define: initial state '" ++ initial ++ units "' not declared in states"))
  ensure (transitions ≠ []) (badInput (units "define: at least one transition required"))
  let edges ← checkTransitions states [] 0 transitions
  .ok ⟨name, initial,
    states.map fun s => (s.1, ⟨s.2.onEnter = .function, s.2.onExit = .function⟩), edges⟩

/-! ## Instances -/

/-- A historyEntry; `actor` and `metadata` are there when the caller gave them. -/
structure HistoryEntry (V : Type) where
  fromState : JsString
  toState : JsString
  on : JsString
  atMs : Int
  actor : Option V
  metadata : Option V
  deriving DecidableEq, Repr

structure Instance (C V : Type) where
  state : JsString
  context : C
  history : List (HistoryEntry V)

/-- The argument of `restore`; `history` is `none` when it is no array. -/
structure Snapshot (C V : Type) where
  state : Named
  history : Option (List (HistoryEntry V))
  context : C

variable {C V : Type}

/-- `_createInstance`. -/
def create (m : Machine) (initialContext : C) : Instance C V := ⟨m.initial, initialContext, []⟩

/-- `_restoreInstance`. -/
def restore (m : Machine) (snapshot : Snapshot C V) : Except FsmError (Instance C V) :=
  match snapshot.state with
  | .str state =>
      if (m.states.map Prod.fst).contains state then
        .ok ⟨state, snapshot.context, snapshot.history.getD []⟩
      else .error (unknown state)
  | .other json => .error (unknown json)
where
  unknown (state : JsString) : FsmError :=
    badInput (units "restore: snapshot.state '" ++ state ++ units "' not declared in machine '" ++
      m.name ++ units "'")

/-- `_toJSON`. -/
def toJSON (i : Instance C V) : Snapshot C V := ⟨.str i.state, some i.history, i.context⟩

/-! ## Transitions -/

/-- What an operator's function throws: whether JavaScript takes it for true, and
the text `(e && e.message) || String(e)`. -/
structure Thrown where
  truthy : Bool
  text : JsString
  deriving DecidableEq, Repr

/-- The options of `transition`. -/
structure CallOpts (V : Type) where
  actor : Option V
  metadata : Option V
  audit : Bool
  deriving DecidableEq, Repr

/-- A call of `transition(name, opts)`. -/
structure Call (V : Type) where
  name : Named
  opts : CallOpts V
  deriving DecidableEq, Repr

/-- What a guard did, and the context it left behind. -/
inductive GuardResult (C : Type) where
  | verdict (isTrue : Bool) (context : C)
  | threw (thrown : Thrown) (context : C)

/-- What a hook did before it handed control back. -/
inductive HookResult (C : Type) where
  | returned (context : C)
  | promised (context : C)
  | threw (thrown : Thrown) (context : C)

/-- How a hook's promise settled. -/
inductive Settling where
  | resolved
  | rejected (thrown : Thrown)

/-- How a call settled: the middle three are thrown before the commit. -/
inductive Outcome (V : Type) where
  | fulfilled (entry : HistoryEntry V)
  | illegal (error : FsmError)
  | guardRefused (error : FsmError)
  | exitThrew (thrown : Thrown)
  | enterThrew (entry : HistoryEntry V) (thrown : Thrown)
  deriving DecidableEq, Repr

/-- Where the running call waits. -/
inductive Waiting (V : Type) where
  | exiting (edge : Edge)
  | entering (entry : HistoryEntry V)

/-- One `audit().namespaced("fsm")` record; the error text is there on failure. -/
structure AuditRecord (V : Type) where
  entry : HistoryEntry V
  onEnterError : Option JsString
  deriving DecidableEq, Repr

/-- An instance with its calls. -/
structure St (C V : Type) where
  inst : Instance C V
  settled : List (Call V × Outcome V)
  running : Option (Call V × Waiting V)
  queue : List (Call V)
  audited : List (AuditRecord V)

def St.init (i : Instance C V) : St C V := ⟨i, [], none, [], []⟩

def illegalTransition (message : JsString) : FsmError :=
  ⟨units "fsm/illegal-transition", message⟩

/-- The edge a call takes from `state`, or why there is none. -/
def matchEdge (m : Machine) (state : JsString) : Named → Except FsmError Edge
  | .other _ => .error (badInput (units "transition: name must be a string"))
  | .str name =>
      match m.transitions.filter (·.on == name) with
      | [] => .error (illegalTransition (units "transition: '" ++ name ++
          units "' is not declared in machine '" ++ m.name ++ units "'"))
      | defs =>
          match defs.find? (·.fromState == state) with
          | some edge => .ok edge
          | none => .error (illegalTransition (units "transition: '" ++ name ++
              units "' not allowed from state '" ++ state ++ units "' (machine '" ++ m.name ++
              units "')"))

/-- The hooks of a state. -/
def hooksOf (m : Machine) (state : JsString) : Hooks :=
  (m.states.lookup state).getD ⟨false, false⟩

def St.settle (s : St C V) (call : Call V) (outcome : Outcome V) : St C V :=
  { s with settled := s.settled ++ [(call, outcome)], running := none }

/-- The audit record of a transition, unless the caller asked for none. -/
def St.emit (s : St C V) (call : Call V) (entry : HistoryEntry V) (enterErr : Option Thrown) :
    St C V :=
  if call.opts.audit then
    { s with audited := s.audited ++ [⟨entry, enterErr.map (·.text)⟩] }
  else s

/-- The end of `_runTransition`: the audit record and the answer. A falsy value
thrown by `onEnter` does not count as an error. -/
def St.finish (s : St C V) (call : Call V) (entry : HistoryEntry V) (enterErr : Option Thrown) :
    St C V :=
  match enterErr.filter (·.truthy) with
  | some thrown => (s.emit call entry (some thrown)).settle call (.enterThrew entry thrown)
  | none => (s.emit call entry none).settle call (.fulfilled entry)

/-- The commit and what follows it up to the next await. The state the call left
from was read before `onExit` ran, when it was the edge's. -/
def St.commit (m : Machine) (s : St C V) (call : Call V) (edge : Edge) (nowMs : Int)
    (enter : HookResult C) : St C V :=
  let entry : HistoryEntry V :=
    ⟨edge.fromState, edge.toState, edge.on, nowMs, call.opts.actor, call.opts.metadata⟩
  let s' := { s with inst :=
    { s.inst with state := edge.toState, history := s.inst.history ++ [entry] } }
  if (hooksOf m edge.toState).onEnter then
    match enter with
    | .returned context => { s' with inst.context := context }.finish call entry none
    | .threw thrown context => { s' with inst.context := context }.finish call entry (some thrown)
    | .promised context =>
        { s' with inst.context := context, running := some (call, .entering entry) }
  else s'.finish call entry none

/-- `onExit`, when the state has one, up to its promise or through the commit. -/
def St.leave (m : Machine) (s : St C V) (call : Call V) (edge : Edge) (nowMs : Int)
    (exit enter : HookResult C) : St C V :=
  if (hooksOf m s.inst.state).onExit then
    match exit with
    | .returned context => { s with inst.context := context }.commit m call edge nowMs enter
    | .threw thrown context =>
        { s with inst.context := context }.settle call (.exitThrew thrown)
    | .promised context =>
        { s with inst.context := context, running := some (call, .exiting edge) }
  else s.commit m call edge nowMs enter

/-- `_runTransition` up to its first await. -/
def St.run (m : Machine) (s : St C V) (call : Call V) (nowMs : Int) (guard : GuardResult C)
    (exit enter : HookResult C) : St C V :=
  match matchEdge m s.inst.state call.name with
  | .error e => s.settle call (.illegal e)
  | .ok edge =>
      if edge.guarded then
        match guard with
        | .threw thrown context =>
            { s with inst.context := context }.settle call (.guardRefused
              ⟨units "fsm/guard-threw", units "transition: '" ++ edge.on ++
                units "' guard threw: " ++ thrown.text⟩)
        | .verdict false context =>
            { s with inst.context := context }.settle call (.guardRefused
              ⟨units "fsm/guard-refused", units "transition: '" ++ edge.on ++
                units "' refused by guard (from state '" ++ s.inst.state ++ units "')"⟩)
        | .verdict true context =>
            { s with inst.context := context }.leave m call edge nowMs exit enter
      else s.leave m call edge nowMs exit enter

inductive Action (C V : Type) where
  /-- somebody calls `transition` -/
  | call (c : Call V)
  /-- the lock reaches the next call -/
  | start (nowMs : Int) (guard : GuardResult C) (exit enter : HookResult C)
  /-- the promise of `onExit` settles -/
  | exited (r : Settling) (context : C) (nowMs : Int) (enter : HookResult C)
  /-- the promise of `onEnter` settles -/
  | entered (r : Settling) (context : C)
  /-- the operator's code changes the context -/
  | touch (context : C)

def step (m : Machine) (s : St C V) : Action C V → Option (St C V)
  | .call c => some { s with queue := s.queue ++ [c] }
  | .touch context => some { s with inst.context := context }
  | .start nowMs guard exit enter =>
      match s.running, s.queue with
      | none, c :: rest => some ({ s with queue := rest }.run m c nowMs guard exit enter)
      | _, _ => none
  | .exited r context nowMs enter =>
      match s.running with
      | some (c, .exiting edge) =>
          let s' := { s with inst.context := context }
          match r with
          | .resolved => some (s'.commit m c edge nowMs enter)
          | .rejected thrown => some (s'.settle c (.exitThrew thrown))
      | _ => none
  | .entered r context =>
      match s.running with
      | some (c, .entering entry) =>
          let s' := { s with inst.context := context }
          match r with
          | .resolved => some (s'.finish c entry none)
          | .rejected thrown => some (s'.finish c entry (some thrown))
      | _ => none

end Blamejs.Fsm
