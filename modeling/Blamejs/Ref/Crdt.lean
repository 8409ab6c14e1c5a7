import Blamejs.Js.NumberText
import Blamejs.Lib.Replicas

/-!
# The observed-remove set and map (`orSet` and `orMap` of `lib/crdt.js`)

An element is a string or a value of `J`, the values that `JSON.stringify` writes; `stringify`
and `parse` stand for it and for `safeJson.parse`. Elements are kept by their key, tags are
strings and the token of a tag is given with the call of `add`.

`step` is any program that makes sets, calls their methods, takes snapshots with `state`, and
merges or restores a snapshot any number of times; `merge` with another set is `merge` with its
state of the moment. Every call of `add` and `remove` is an event. The numbers beside a set and
a snapshot say which events have had an effect on it; nothing reads these and `events`.
-/

namespace Blamejs.OrSet

open Js

variable {J : Type}

inductive Elem (J : Type) where
  | str (s : JsString)
  | json (x : J)

/-- The own properties of `elems`: the tags of each key. -/
abbrev Elems := List (JsString × List JsString)

structure State where
  elems : Elems
  tombstones : List JsString

structure Replica where
  replicaId : JsString
  tombstoneRetention : Option Nat
  elems : Elems
  tombstones : List JsString
  seq : Nat

/-- `elems[key] || []`. -/
def tagsOf (elems : Elems) (key : JsString) : List JsString := (elems.lookup key).getD []

/-- `elems[key] = f(elems[key] || [])`. -/
def alter (key : JsString) (f : List JsString → List JsString) : Elems → Elems
  | [] => [(key, f [])]
  | (k, tags) :: rest => if k = key then (k, f tags) :: rest else (k, tags) :: alter key f rest

/-- `set.add(t)` of a `Set`, for each in turn. -/
def addAll (set : List JsString) (more : List JsString) : List JsString :=
  more.foldl (fun set t => if t ∈ set then set else set ++ [t]) set

def tag (s : Replica) (token : JsString) : JsString :=
  s.replicaId ++ units ":" ++ natText (s.seq + 1) ++ units ":" ++ token

def liveTags (s : Replica) (key : JsString) : List JsString :=
  (tagsOf s.elems key).filter (· ∉ s.tombstones)

def gcTombstones (s : Replica) : Replica :=
  match s.tombstoneRetention with
  | none => s
  | some retention =>
      if s.tombstones.length ≤ retention then s
      else { s with tombstones := s.tombstones.drop (s.tombstones.length - retention) }

def state (s : Replica) : State := ⟨s.elems, s.tombstones⟩

def merge (s : Replica) (o : State) : Replica where
  replicaId := s.replicaId
  tombstoneRetention := s.tombstoneRetention
  elems := (o.elems.map Prod.fst).foldl
    (fun e key => alter key (fun tags => (tags ++ tagsOf o.elems key).eraseDups) e) s.elems
  tombstones := addAll s.tombstones o.tombstones
  seq := 0

def fromState (o : State) (replicaId : JsString) (tombstoneRetention : Option Nat) : Replica :=
  ⟨replicaId, tombstoneRetention, o.elems, addAll [] o.tombstones, 0⟩

section

variable (stringify : J → JsString) (parse : JsString → Option J)

/-- `_key`. -/
def key : Elem J → JsString
  | .str s => unit 's' :: unit ':' :: s
  | .json x => unit 'j' :: unit ':' :: stringify x

/-- One key of `_decodeKeys`. -/
def decodeKey (k : JsString) : Option (Elem J) :=
  if k.head? = some (unit 's') then some (.str (k.drop 2))
  else (parse (k.drop 2)).map .json

/-- `_decodeKeys`; `none` is that `safeJson.parse` throws. -/
def decodeKeys (set : List JsString) : Option (List (Elem J)) :=
  (set.insertionSort unitLE).mapM (decodeKey parse)

def add (s : Replica) (x : Elem J) (token : JsString) : Replica :=
  { s with
    elems := alter (key stringify x) (· ++ [tag s token]) s.elems
    seq := s.seq + 1 }

def remove (s : Replica) (x : Elem J) : Replica :=
  gcTombstones { s with tombstones := addAll s.tombstones (liveTags s (key stringify x)) }

def has (s : Replica) (x : Elem J) : Bool := !(liveTags s (key stringify x)).isEmpty

def value (s : Replica) : Option (List (Elem J)) :=
  decodeKeys parse (((s.elems.map Prod.fst).filter fun k => !(liveTags s k).isEmpty).eraseDups)

/-! ## Replicas -/

inductive Event (J : Type) where
  | add (x : Elem J) (tag : JsString)
  /-- A call of `remove`, and the events its replica had received. -/
  | remove (x : Elem J) (observed : List Nat)

structure World (J : Type) where
  sets : List (Replica × List Nat)
  snapshots : List (State × List Nat)
  events : List (Event J)

def World.init (J : Type) : World J := ⟨[], [], []⟩

inductive Act (J : Type) where
  | create (replicaId : JsString)
  | add (i : Nat) (x : Elem J) (token : JsString)
  | remove (i : Nat) (x : Elem J)
  | snapshot (i : Nat)
  | merge (i k : Nat)
  | restore (k : Nat) (replicaId : JsString)

/-- `tombstoneRetention` is unset. -/
def step (w : World J) : Act J → Option (World J)
  | .create replicaId =>
      some { w with sets := w.sets ++ [(⟨replicaId, none, [], [], 0⟩, [])] }
  | .add i x token => do
      let p ← w.sets[i]?
      some { w with
        sets := w.sets.set i (add stringify p.1 x token, p.2 ++ [w.events.length])
        events := w.events ++ [.add x (tag p.1 token)] }
  | .remove i x => do
      let p ← w.sets[i]?
      some { w with
        sets := w.sets.set i (remove stringify p.1 x, p.2 ++ [w.events.length])
        events := w.events ++ [.remove x p.2] }
  | .snapshot i => do
      let p ← w.sets[i]?
      some { w with snapshots := w.snapshots ++ [(state p.1, p.2)] }
  | .merge i k => do
      let p ← w.sets[i]?
      let o ← w.snapshots[k]?
      some { w with sets := w.sets ++ [(merge p.1 o.1, p.2 ++ o.2)] }
  | .restore k replicaId => do
      let o ← w.snapshots[k]?
      some { w with sets := w.sets ++ [(fromState o.1 replicaId none, o.2)] }

/-- The tag of an add is not the tag of an earlier one. -/
def Fresh (w : World J) : Act J → Prop
  | .add i _ token => ∀ p, w.sets[i]? = some p → ∀ y, Event.add y (tag p.1 token) ∉ w.events
  | _ => True

end

end Blamejs.OrSet

/-!
## The observed-remove map (`orMap`)

The keys are an `orSet` and the values the state of a register each, in a plain object. Reading
a property that `vals` does not own goes to `Object.prototype`, which answers for
`inheritedNames`: with the object itself under `__proto__` and with functions under the others.
`_reg` takes none of these for a register and throws. Methods that throw return the message, and
`set` the map it leaves as well.
-/

namespace Blamejs.OrMap

open Js

variable {V : Type}

/-- What `_mapKey` lets through. -/
structure Key where
  text : JsString
  nonempty : text ≠ []

def protoName : JsString := units "__proto__"

/-- The property names `Object.prototype` has. -/
def inheritedNames : List JsString :=
  [units "constructor", units "__defineGetter__", units "__defineSetter__",
    units "hasOwnProperty", units "__lookupGetter__", units "__lookupSetter__",
    units "isPrototypeOf", units "propertyIsEnumerable", units "toString", units "valueOf",
    protoName, units "toLocaleString"]

/-- `current` of an `lwwRegister`. -/
structure Reg (V : Type) where
  value : V
  ts : Int
  replicaId : JsString

/-- `_beats`. -/
def beats (a b : Reg V) : Prop := b.ts < a.ts ∨ a.ts = b.ts ∧ ¬ unitLE a.replicaId b.replicaId

instance (a b : Reg V) : Decidable (beats a b) :=
  inferInstanceAs (Decidable (b.ts < a.ts ∨ a.ts = b.ts ∧ ¬ unitLE a.replicaId b.replicaId))

/-- `set` of the register. -/
def Reg.set (current : Reg V) (replicaId : JsString) (v : V) (ts : Nat) : Reg V :=
  let cand : Reg V := ⟨v, ts, replicaId⟩
  if beats cand current then cand else current

/-- `merge` of the register. -/
def Reg.merge (current o : Reg V) : Reg V := if beats o current then o else current

structure Replica (V : Type) where
  keys : OrSet.Replica
  /-- The own properties of `vals`. -/
  vals : List (JsString × Reg V)

structure State (V : Type) where
  keys : OrSet.State
  vals : List (JsString × Reg V)

/-- `object[key] = x`, for a name that is not `__proto__`. -/
def put {α : Type} (key : JsString) (x : α) : List (JsString × α) → List (JsString × α)
  | [] => [(key, x)]
  | (k, y) :: rest => if k = key then (k, x) :: rest else (k, y) :: put key x rest

/-- Why `lwwRegister.fromState` does not take what `Object.prototype` has under a name. -/
def inheritedError (key : JsString) : JsString :=
  if key = protoName then units "crdt: expected a lwwRegister state, got 'undefined'"
  else units "crdt: expected a lwwRegister state object"

def Replica.empty (V : Type) (replicaId : JsString) : Replica V :=
  ⟨⟨replicaId, none, [], [], 0⟩, []⟩

def keyOf (text : JsString) : OrSet.Elem Empty := .str text

def textOf : OrSet.Elem Empty → JsString
  | .str s => s

/-- `_key` of a string. -/
def elemKey (text : JsString) : JsString := OrSet.key Empty.elim (keyOf text)

section

variable (null : V)

/-- `_reg`. -/
def reg (m : Replica V) (key : JsString) : Except JsString (Reg V) :=
  match m.vals.lookup key with
  | some r => .ok r
  | none =>
      if key ∈ inheritedNames then .error (inheritedError key) else .ok ⟨null, -1, []⟩

/-- `set`, with the token of the tag; the second part is what it throws. -/
def set (m : Replica V) (key : Key) (v : V) (ts : Nat) (token : JsString) :
    Replica V × Option JsString :=
  let m := { m with keys := OrSet.add Empty.elim m.keys (keyOf key.text) token }
  match reg null m key.text with
  | .error e => (m, some e)
  | .ok r => ({ m with vals := put key.text (r.set m.keys.replicaId v ts) m.vals }, none)

def remove (m : Replica V) (key : Key) : Replica V where
  keys := OrSet.remove Empty.elim m.keys (keyOf key.text)
  vals := m.vals.filter (·.1 ≠ key.text)

def has (m : Replica V) (key : Key) : Bool := OrSet.has Empty.elim m.keys (keyOf key.text)

/-- `get`; `none` is `undefined`. -/
def get (m : Replica V) (key : Key) : Except JsString (Option V) :=
  if has m key then (reg null m key.text).map fun r => some r.value else .ok none

/-- The strings `keys.value()` lists. -/
def liveKeys (m : Replica V) : List JsString :=
  ((OrSet.value (fun _ => none) m.keys).getD []).map textOf

/-- The properties of `value()`. -/
def value (m : Replica V) : Except JsString (List (JsString × V)) :=
  (liveKeys m).foldlM (fun out key => (reg null m key).map fun r => put key r.value out) []

end

def state (m : Replica V) : State V := ⟨OrSet.state m.keys, m.vals⟩

def fromState (s : State V) (replicaId : JsString) : Replica V :=
  ⟨OrSet.fromState s.keys replicaId none, s.vals⟩

/-- The loop of `merge` over the own properties of the other state. -/
def mergeVals (vals other : List (JsString × Reg V)) :
    Except JsString (List (JsString × Reg V)) :=
  other.foldlM (fun v p => match v.lookup p.1 with
    | some current => .ok (put p.1 (current.merge p.2) v)
    | none =>
        if p.1 ∈ inheritedNames then .error (inheritedError p.1) else .ok (put p.1 p.2 v)) vals

def merge (m : Replica V) (o : State V) : Except JsString (Replica V) :=
  (mergeVals m.vals o.vals).map fun vals =>
    fromState ⟨OrSet.state (OrSet.merge m.keys o.keys), vals⟩ m.keys.replicaId

/-- The maps that programs make. -/
inductive Made (null : V) : Replica V → Prop
  | empty (replicaId : JsString) : Made null (Replica.empty V replicaId)
  | set {m : Replica V} (key : Key) (v : V) (ts : Nat) (token : JsString) :
      Made null m → Made null (set null m key v ts token).1
  | remove {m : Replica V} (key : Key) : Made null m → Made null (remove m key)
  | merge {m o m' : Replica V} : Made null m → Made null o → merge m (state o) = .ok m' →
      Made null m'
  | restore {m : Replica V} (replicaId : JsString) :
      Made null m → Made null (fromState (state m) replicaId)

end Blamejs.OrMap

/-!
## The two-phase set and the register (`twoPSet` and `lwwRegister`)

Each is an object of replicas that merge. A `remove` is written down with the elements that had
been added where it was made, and a write with its replica.
-/

namespace Blamejs.TwoPSet

open Js OrSet Replicas

variable {J : Type}

structure State where
  adds : List JsString
  removes : List JsString

inductive Update (J : Type) where
  | add (x : Elem J)
  | remove (x : Elem J)

inductive Event (J : Type) where
  | add (x : Elem J)
  | remove (x : Elem J) (observed : List (Elem J))

def merge (s o : State) : State := ⟨addAll s.adds o.adds, addAll s.removes o.removes⟩

/-- The elements that the events received add. -/
def added (received : List (Event J)) : List (Elem J) :=
  received.filterMap fun
    | .add x => some x
    | .remove _ _ => none

section

variable (stringify : J → JsString) (parse : JsString → Option J)

def add (s : State) (x : Elem J) : State := { s with adds := addAll s.adds [key stringify x] }

def remove (s : State) (x : Elem J) : State :=
  let k := key stringify x
  if k ∈ s.adds then { s with removes := addAll s.removes [k] } else s

def has (s : State) (x : Elem J) : Bool :=
  let k := key stringify x
  decide (k ∈ s.adds) && !decide (k ∈ s.removes)

def value (s : State) : Option (List (Elem J)) :=
  decodeKeys parse (s.adds.filter (· ∉ s.removes))

def object : Object JsString State (Update J) (Event J) where
  empty := ⟨[], []⟩
  apply _ u s := match u with
    | .add x => add stringify s x
    | .remove x => remove stringify s x
  merge := merge
  event _ u received := match u with
    | .add x => .add x
    | .remove x => .remove x (added received)

end

end Blamejs.TwoPSet

namespace Blamejs.LwwRegister

open Js OrMap Replicas

variable {V : Type}

/-- `set` with a timestamp, at the replica that gives its name. -/
def object (null : V) : Object JsString (Reg V) (V × Nat) (Reg V) where
  empty := ⟨null, -1, []⟩
  apply id u current := current.set id u.1 u.2
  merge := Reg.merge
  event id u _ := ⟨u.1, u.2, id⟩

end Blamejs.LwwRegister
