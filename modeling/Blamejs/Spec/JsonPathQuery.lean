import Blamejs.Ref.JsonPath

/-!
# What a JSONPath query selects (RFC 9535)

The nodelist of a query, without caps: the nodelists of the selectors one after the
other, for one node after the other. `$` is the document wherever it stands, a singular
query in a comparison is the value of its only node, strings are ordered by their scalar
values, and two objects are equal when each member of one has an equal one in the other.
-/

namespace Blamejs.JsonPath

open Blamejs.Js

/-! ## Values -/

/-- Equal values. -/
inductive Equal : Json → Json → Prop
  | null : Equal .null .null
  | bool (b : Bool) : Equal (.bool b) (.bool b)
  | num {x y : Double} (h : x.strictEq y = true) : Equal (.num x) (.num y)
  | str (s : JsString) : Equal (.str s) (.str s)
  | arr {xs ys : List Json} (h : List.Forall₂ Equal xs ys) : Equal (.arr xs) (.arr ys)
  | obj {es fs : List (JsString × Json)} (twin : JsString × Json → Json)
      (hlength : es.length = fs.length) (htwin : ∀ p ∈ es, fs.lookup p.1 = some (twin p))
      (h : ∀ p ∈ es, Equal p.2 (twin p)) : Equal (.obj es) (.obj fs)

/-- The order of strings by scalar value. -/
def scalarLess (s t : JsString) : Bool :=
  decide ((scalars s).map Char.toNat < (scalars t).map Char.toNat)

/-- `a == b`, with nothing on either side. -/
def Equals : Option Json → Option Json → Prop
  | some v, some w => Equal v w
  | none, none => True
  | _, _ => False

def Less : Option Json → Option Json → Prop
  | some (.num x), some (.num y) => x.lt y = true
  | some (.str s), some (.str t) => scalarLess s t = true
  | _, _ => False

def Compares (op : Op) (a b : Option Json) : Prop :=
  match op with
  | .eq => Equals a b
  | .ne => ¬ Equals a b
  | .lt => Less a b
  | .gt => Less b a
  | .le => Less a b ∨ Equals a b
  | .ge => Less b a ∨ Equals a b

/-! ## Slices -/

/-- An index from the end counts from the length. -/
def normalizeIndex (i : Int) (len : Nat) : Int := if i ≥ 0 then i else len + i

/-- The indices that a slice selects, in order. -/
def sliceOf (start stop step : Option Int) (len : Nat) : List Int :=
  let step := step.getD 1
  if step = 0 then []
  else if step > 0 then
    let nStart := normalizeIndex (start.getD 0) len
    let nStop := normalizeIndex (stop.getD len) len
    countUp (min (max nStop 0) len) step len (min (max nStart 0) len)
  else
    let nStart := normalizeIndex (start.getD (len - 1)) len
    let nStop := normalizeIndex (stop.getD (-len - 1)) len
    countDown (min (max nStop (-1)) (len - 1)) step len (min (max nStart (-1)) (len - 1))

/-! ## Queries -/

/-- The segment of a general query that a singular one's is. -/
def Single.segment : Single → Segment
  | .name key => .mk false [.name key]
  | .index i => .mk false [.index i]

/-- The member of that name. -/
def named (name : JsString) (node : Node) : List Node :=
  ((member name node.value).map fun v => ⟨v, node.path ++ [.name name]⟩).toList

/-- The element at that index. -/
def indexed (i : Int) (node : Node) : List Node :=
  match node.value with
  | .arr items => ((place items.length i).bind fun n => pick node items n).toList
  | _ => []

def Single.nodes : Single → Node → List Node
  | .name key, node => named key node
  | .index i, node => indexed i node

/-- The nodes of a path of names and indices. -/
def singleNodes : List Single → List Node → List Node
  | [], nodes => nodes
  | s :: path, nodes => singleNodes path (nodes.flatMap s.nodes)

section select

variable (doc : Json)

open Classical in
mutual

/-- What a selector selects from a node. -/
noncomputable def select : Selector → Node → List Node
  | .name name, node => named name node
  | .wildcard, node => children node
  | .index i, node => indexed i node
  | .slice start stop step, node =>
      match node.value with
      | .arr items => (sliceOf start stop step items.length).filterMap (pick node items)
      | _ => []
  | .filter e, node => (children node).filter fun child => decide (Holds e child)

noncomputable def selectAll : List Selector → Node → List Node
  | [], _ => []
  | sel :: sels, node => select sel node ++ selectAll sels node

/-- The nodelist behind the segments. -/
noncomputable def nodelist : List Segment → List Node → List Node
  | [], nodes => nodes
  | .mk descendant selectors :: segs, nodes =>
      let base := if descendant then nodes.flatMap fun node => descend node.value node.path
        else nodes
      nodelist segs (base.flatMap (selectAll selectors))

noncomputable def valueOf : Comparable → Node → Option Json
  | .lit v, _ => some v
  | .query absolute path, current =>
      onlyValue (singleNodes path [⟨if absolute then doc else current.value, []⟩])
  | .length arg, current => lengthOf (valueOf arg current)
  | .count absolute segments, current =>
      some (.num (.ofInt (nodelist segments
        [⟨if absolute then doc else current.value, []⟩]).length))
  | .value absolute segments, current =>
      onlyValue (nodelist segments [⟨if absolute then doc else current.value, []⟩])

noncomputable def Holds : Logical → Node → Prop
  | .or a b, current => Holds a current ∨ Holds b current
  | .and a b, current => Holds a current ∧ Holds b current
  | .not e, current => ¬ Holds e current
  | .compare op a b, current => Compares op (valueOf a current) (valueOf b current)
  | .query absolute segments, current =>
      nodelist segments [⟨if absolute then doc else current.value, []⟩] ≠ []

end

end select

/-! ## Plain queries -/

mutual

/-- Every string value below satisfies `P`. -/
def Json.Strings (P : JsString → Prop) : Json → Prop
  | .str s => P s
  | .arr items => itemStrings P items
  | .obj entries => entryStrings P entries
  | .null => True
  | .bool _ => True
  | .num _ => True

def itemStrings (P : JsString → Prop) : List Json → Prop
  | [] => True
  | v :: vs => v.Strings P ∧ itemStrings P vs

def entryStrings (P : JsString → Prop) : List (JsString × Json) → Prop
  | [] => True
  | (_, v) :: es => v.Strings P ∧ entryStrings P es

end

mutual

/-- The literals satisfy `P`, and a `$` stands nowhere inside a query from `@`; `atRoot`
says that there is no such query around. -/
def Selector.Plain (P : JsString → Prop) (atRoot : Bool) : Selector → Prop
  | .filter e => e.Plain P atRoot
  | .name _ => True
  | .wildcard => True
  | .index _ => True
  | .slice _ _ _ => True

def selectorsPlain (P : JsString → Prop) (atRoot : Bool) : List Selector → Prop
  | [] => True
  | sel :: sels => sel.Plain P atRoot ∧ selectorsPlain P atRoot sels

def segmentsPlain (P : JsString → Prop) (atRoot : Bool) : List Segment → Prop
  | [] => True
  | .mk _ selectors :: segs => selectorsPlain P atRoot selectors ∧ segmentsPlain P atRoot segs

def Comparable.Plain (P : JsString → Prop) (atRoot : Bool) : Comparable → Prop
  | .lit v => v.Strings P
  | .query absolute _ => absolute = true → atRoot = true
  | .length arg => arg.Plain P atRoot
  | .count absolute segments =>
      (absolute = true → atRoot = true) ∧ segmentsPlain P absolute segments
  | .value absolute segments =>
      (absolute = true → atRoot = true) ∧ segmentsPlain P absolute segments

def Logical.Plain (P : JsString → Prop) (atRoot : Bool) : Logical → Prop
  | .or a b => a.Plain P atRoot ∧ b.Plain P atRoot
  | .and a b => a.Plain P atRoot ∧ b.Plain P atRoot
  | .not e => e.Plain P atRoot
  | .compare _ a b => a.Plain P atRoot ∧ b.Plain P atRoot
  | .query absolute segments =>
      (absolute = true → atRoot = true) ∧ segmentsPlain P absolute segments

end

end Blamejs.JsonPath
