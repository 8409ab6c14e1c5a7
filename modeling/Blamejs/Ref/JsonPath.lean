import Blamejs.Js.Number
import Blamejs.Js.Text
import Blamejs.Lib.Checked

/-!
# The JSONPath evaluator (`lib/json-path.js`)

`_evalSegments` and what it calls, over the syntax that the parser builds: a query in a
comparison or in `length` is singular there, so that it is a list of names and indices.
The functions `match` and `search` and the parser itself are left out.

`root` is what the code passes on as the root, which a `$` inside a filter refers to.
-/

namespace Blamejs.JsonPath

open Blamejs.Js

inductive Err where
  /-- `json-path/too-large`. -/
  | tooLarge (message : String)
  deriving DecidableEq, Repr

def maxDescendNodes : Nat := 1000000

def maxTotalNodes : Nat := 1000000

/-- A JSON document; the members of an object in the order of `Object.keys`. -/
inductive Json where
  | null
  | bool (b : Bool)
  | num (x : Double)
  | str (s : JsString)
  | arr (items : List Json)
  | obj (entries : List (JsString × Json))

inductive Token where
  | name (s : JsString)
  | index (i : Nat)
  deriving DecidableEq, Repr

structure Node where
  value : Json
  path : List Token

/-! ## Syntax -/

inductive Op where
  | eq
  | ne
  | lt
  | gt
  | le
  | ge
  deriving DecidableEq, Repr

/-- A segment of a singular query. -/
inductive Single where
  | name (name : JsString)
  | index (i : Int)
  deriving DecidableEq, Repr

mutual

inductive Selector where
  | name (name : JsString)
  | wildcard
  | index (i : Int)
  | slice (start stop step : Option Int)
  | filter (e : Logical)

inductive Segment where
  | mk (descendant : Bool) (selectors : List Selector)

/-- What a comparison and `length` take; a query begins at the root or at the current
node. -/
inductive Comparable where
  | lit (v : Json)
  | query (absolute : Bool) (path : List Single)
  | length (arg : Comparable)
  | count (absolute : Bool) (segments : List Segment)
  | value (absolute : Bool) (segments : List Segment)

inductive Logical where
  | or (a b : Logical)
  | and (a b : Logical)
  | not (e : Logical)
  | compare (op : Op) (a b : Comparable)
  | query (absolute : Bool) (segments : List Segment)

end

/-! ## Selectors -/

def childItems (path : List Token) : Nat → List Json → List Node
  | _, [] => []
  | i, v :: vs => ⟨v, path ++ [.index i]⟩ :: childItems path (i + 1) vs

def children (node : Node) : List Node :=
  match node.value with
  | .arr items => childItems node.path 0 items
  | .obj entries => entries.map fun e => ⟨e.2, node.path ++ [.name e.1]⟩
  | _ => []

def member (name : JsString) : Json → Option Json
  | .obj entries => entries.lookup name
  | _ => none

/-- The place in an array of `len` elements, when it is there. -/
def place (len : Nat) (i : Int) : Option Nat :=
  let idx := if i < 0 then len + i else i
  if 0 ≤ idx ∧ idx < len then some idx.toNat else none

def element (i : Int) : Json → Option Json
  | .arr items => (place items.length i).bind fun n => items[n]?
  | _ => none

/-- `for (i = lower; i < upper; i += step)` -/
def countUp (upper step : Int) : Nat → Int → List Int
  | 0, _ => []
  | fuel + 1, i => if i < upper then i :: countUp upper step fuel (i + step) else []

/-- `for (j = lower; j > upper; j += step)` -/
def countDown (upper step : Int) : Nat → Int → List Int
  | 0, _ => []
  | fuel + 1, j => if j > upper then j :: countDown upper step fuel (j + step) else []

/-- The indices of `_applySlice`. -/
def sliceIndices (start stop step : Option Int) (len : Nat) : List Int :=
  let step := step.getD 1
  if step = 0 then []
  else if step > 0 then
    let start := start.getD 0
    let stop := stop.getD len
    let lower := if start < 0 then max (len + start) 0 else min start len
    let upper := if stop < 0 then max (len + stop) 0 else min stop len
    countUp upper step len lower
  else
    let start := start.getD (len - 1)
    let stop := stop.getD (-len - 1)
    let lower := if start < 0 then max (len + start) (-1) else min start (len - 1)
    let upper := if stop < 0 then max (len + stop) (-1) else min stop (len - 1)
    countDown upper step len lower

def pick (node : Node) (items : List Json) (i : Int) : Option Node :=
  items[i.toNat]?.map fun v => ⟨v, node.path ++ [.index i.toNat]⟩

def applySlice (start stop step : Option Int) (node : Node) : List Node :=
  match node.value with
  | .arr items => (sliceIndices start stop step items.length).filterMap (pick node items)
  | _ => []

mutual

/-- `_descend`: a node and everything below it. -/
def descend : Json → List Token → List Node
  | .arr items, path => ⟨.arr items, path⟩ :: descendItems path 0 items
  | .obj entries, path => ⟨.obj entries, path⟩ :: descendEntries path entries
  | .null, path => [⟨.null, path⟩]
  | .bool b, path => [⟨.bool b, path⟩]
  | .num x, path => [⟨.num x, path⟩]
  | .str s, path => [⟨.str s, path⟩]

def descendItems (path : List Token) : Nat → List Json → List Node
  | _, [] => []
  | i, v :: vs => descend v (path ++ [.index i]) ++ descendItems path (i + 1) vs

def descendEntries (path : List Token) : List (JsString × Json) → List Node
  | [] => []
  | (k, v) :: es => descend v (path ++ [.name k]) ++ descendEntries path es

end

/-- The nodes of a descendant segment, unless they are too many. -/
def walk (nodes : List Node) : Except Err (List Node) :=
  let acc := nodes.flatMap fun node => descend node.value node.path
  if acc.length > maxDescendNodes + 1 then
    .error (.tooLarge "jsonPath: descendant walk exceeded the node cap")
  else .ok acc

/-! ## Comparisons -/

mutual

/-- `_deepEqual`. -/
def deepEqual : Json → Json → Bool
  | .null, .null => true
  | .bool a, .bool b => a == b
  | .num x, .num y => x.strictEq y
  | .str s, .str t => s == t
  | .arr xs, .arr ys => deepItems xs ys
  | .obj es, .obj fs => es.length == fs.length && deepEntries es fs
  | _, _ => false

def deepItems : List Json → List Json → Bool
  | [], [] => true
  | x :: xs, y :: ys => deepEqual x y && deepItems xs ys
  | _, _ => false

def deepEntries : List (JsString × Json) → List (JsString × Json) → Bool
  | [], _ => true
  | (k, v) :: es, fs =>
      (match fs.lookup k with
        | some w => deepEqual v w
        | none => false) && deepEntries es fs

end

/-- `a < b` of strings: by code unit. -/
def stringLess : JsString → JsString → Bool
  | [], [] => false
  | [], _ :: _ => true
  | _ :: _, [] => false
  | u :: s, v :: t => if u = v then stringLess s t else decide (u.toNat < v.toNat)

def equals : Option Json → Option Json → Bool
  | some a, some b => deepEqual a b
  | none, none => true
  | _, _ => false

/-- `_less`; `none` is `NOTHING`. -/
def less : Option Json → Option Json → Bool
  | some (.num x), some (.num y) => x.lt y
  | some (.str s), some (.str t) => stringLess s t
  | _, _ => false

def compare (op : Op) (a b : Option Json) : Bool :=
  match op with
  | .eq => equals a b
  | .ne => !equals a b
  | .lt => less a b
  | .gt => less b a
  | .le => less a b || equals a b
  | .ge => less b a || equals a b

/-- One step of `_singularValue`. -/
def single : Single → Json → Option Json
  | .name name, v => member name v
  | .index i, v => element i v

/-- `_singularValue` from its start on. -/
def singularValue : List Single → Json → Option Json
  | [], v => some v
  | s :: path, v => (single s v).bind (singularValue path)

/-- `Array.from(s).length` -/
def codePoints (s : JsString) : Nat := (scalars s).length

def lengthOf : Option Json → Option Json
  | some (.str s) => some (.num (.ofInt (codePoints s)))
  | some (.arr items) => some (.num (.ofInt items.length))
  | some (.obj entries) => some (.num (.ofInt entries.length))
  | _ => none

/-- The value of `value`. -/
def onlyValue : List Node → Option Json
  | [node] => some node.value
  | _ => none

/-! ## Evaluation -/

/-- The nodes that a test keeps. -/
def keep {ε : Type} (test : Node → Except ε Bool) : List Node → Except ε (List Node)
  | [] => .ok []
  | node :: nodes => do
      let b ← test node
      let kept ← keep test nodes
      .ok (if b then node :: kept else kept)

/-- What one step gives for each node, one after the other. -/
def collect {ε : Type} (f : Node → Except ε (List Node)) : List Node → Except ε (List Node)
  | [] => .ok []
  | node :: nodes => do
      let a ← f node
      let b ← collect f nodes
      .ok (a ++ b)

mutual

/-- `_applySelector`. -/
def applySelector : Selector → Json → Node → Except Err (List Node)
  | .name name, _, node =>
      .ok ((member name node.value).map fun v => ⟨v, node.path ++ [.name name]⟩).toList
  | .wildcard, _, node => .ok (children node)
  | .index i, _, node =>
      .ok (match node.value with
        | .arr items => ((place items.length i).bind fun n => pick node items n).toList
        | _ => [])
  | .slice start stop step, _, node => .ok (applySlice start stop step node)
  | .filter e, root, node => keep (evalLogical e root) (children node)

def applySelectors : List Selector → Json → Node → Except Err (List Node)
  | [], _, _ => .ok []
  | sel :: sels, root, node => do
      let a ← applySelector sel root node
      let b ← applySelectors sels root node
      .ok (a ++ b)

/-- `_evalSegments` from a nodelist on. -/
def evalSegments : List Segment → Json → List Node → Except Err (List Node)
  | [], _, nodes => .ok nodes
  | .mk descendant selectors :: segs, root, nodes => do
      let base ← (if descendant then walk nodes else .ok nodes)
      let found ← collect (applySelectors selectors root) base
      if found.length > maxTotalNodes then .error (.tooLarge
        "jsonPath: nodelist exceeded 1000000 nodes (chained selector cross-product)")
      else evalSegments segs root found

/-- `_evalComparable`; the nodes of a query are those of `_queryNodes`, which takes the
start of the query for its root. -/
def evalComparable : Comparable → Json → Node → Except Err (Option Json)
  | .lit v, _, _ => .ok (some v)
  | .query absolute path, root, current =>
      .ok (singularValue path (if absolute then root else current.value))
  | .length arg, root, current => do
      let v ← evalComparable arg root current
      .ok (lengthOf v)
  | .count absolute segments, root, current => do
      let start := if absolute then root else current.value
      let nodes ← evalSegments segments start [⟨start, []⟩]
      .ok (some (.num (.ofInt nodes.length)))
  | .value absolute segments, root, current => do
      let start := if absolute then root else current.value
      let nodes ← evalSegments segments start [⟨start, []⟩]
      .ok (onlyValue nodes)

/-- `_evalLogical`. -/
def evalLogical : Logical → Json → Node → Except Err Bool
  | .or a b, root, current => do
      let x ← evalLogical a root current
      if x then .ok true else evalLogical b root current
  | .and a b, root, current => do
      let x ← evalLogical a root current
      if x then evalLogical b root current else .ok false
  | .not e, root, current => do
      let x ← evalLogical e root current
      .ok (!x)
  | .compare op a b, root, current => do
      let x ← evalComparable a root current
      let y ← evalComparable b root current
      .ok (compare op x y)
  | .query absolute segments, root, current => do
      let start := if absolute then root else current.value
      let nodes ← evalSegments segments start [⟨start, []⟩]
      .ok (!nodes.isEmpty)

end

/-- `query`, with the nodes in place of their values only. -/
def query (doc : Json) (segments : List Segment) : Except Err (List Node) :=
  evalSegments segments doc [⟨doc, []⟩]

end Blamejs.JsonPath
