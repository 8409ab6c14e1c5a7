import Blamejs.Spec.JsonPathQuery
import Blamejs.Lib.Checked

/-!
# The evaluator selects what the query says

A walk over the syntax: each evaluation that ends without a cap gives the nodelist, the
value or the truth of the standard. Two things are not the standard's. The order of
strings is that of their code units, and the root of a query from `@` is its own start,
so that a `$` inside it means another value. `Plain` keeps the second one out, and the
first one does not show where the two orders agree on the strings at hand.
-/

namespace Blamejs.JsonPath

open Blamejs.Js

/-! ## Values -/

mutual

theorem deepEqual_iff : ∀ a b : Json, deepEqual a b = true ↔ Equal a b
  | .null, b => by
      cases b <;> simp only [deepEqual, Bool.false_eq_true, false_iff, true_iff]
      case null => exact .null
      all_goals exact fun h => nomatch h
  | .bool x, b => by
      cases b <;> simp only [deepEqual, Bool.false_eq_true, false_iff]
      case bool y =>
        rw [beq_iff_eq]
        exact ⟨fun h => h ▸ .bool x, fun h => by cases h; rfl⟩
      all_goals exact fun h => nomatch h
  | .num x, b => by
      cases b <;> simp only [deepEqual, Bool.false_eq_true, false_iff]
      case num y => exact ⟨.num, fun h => by cases h; assumption⟩
      all_goals exact fun h => nomatch h
  | .str s, b => by
      cases b <;> simp only [deepEqual, Bool.false_eq_true, false_iff]
      case str t =>
        rw [beq_iff_eq]
        exact ⟨fun h => h ▸ .str s, fun h => by cases h; rfl⟩
      all_goals exact fun h => nomatch h
  | .arr xs, b => by
      cases b <;> simp only [deepEqual, Bool.false_eq_true, false_iff]
      case arr ys =>
        rw [deepItems_iff xs ys]
        exact ⟨.arr, fun h => by cases h; assumption⟩
      all_goals exact fun h => nomatch h
  | .obj es, b => by
      cases b <;> simp only [deepEqual, Bool.false_eq_true, false_iff]
      case obj fs =>
        rw [Bool.and_eq_true, beq_iff_eq, deepEntries_iff es fs]
        constructor
        · rintro ⟨hlength, h⟩
          refine .obj (fun p => (fs.lookup p.1).getD .null) hlength (fun p hp => ?_) fun p hp => ?_
          · obtain ⟨w, hw, -⟩ := h p hp
            rw [hw]
            rfl
          · obtain ⟨w, hw, heq⟩ := h p hp
            rw [hw]
            exact heq
        · intro h
          cases h with
          | obj twin hlength htwin h => exact ⟨hlength, fun p hp => ⟨twin p, htwin p hp, h p hp⟩⟩
      all_goals exact fun h => nomatch h

theorem deepItems_iff : ∀ xs ys : List Json, deepItems xs ys = true ↔ List.Forall₂ Equal xs ys
  | [], ys => by cases ys <;> simp [deepItems]
  | x :: xs, ys => by
      cases ys with
      | nil => simp [deepItems]
      | cons y ys =>
          rw [deepItems, Bool.and_eq_true, deepEqual_iff x y, deepItems_iff xs ys,
            List.forall₂_cons]

theorem deepEntries_iff : ∀ es fs : List (JsString × Json), deepEntries es fs = true ↔
    ∀ p ∈ es, ∃ w, fs.lookup p.1 = some w ∧ Equal p.2 w
  | [], fs => by simp [deepEntries]
  | (k, v) :: es, fs => by
      rw [deepEntries, Bool.and_eq_true, deepEntries_iff es fs, List.forall_mem_cons]
      refine and_congr_left fun _ => ?_
      cases hw : fs.lookup k with
      | none => simp
      | some w =>
          rw [deepEqual_iff v w]
          exact ⟨fun h => ⟨w, rfl, h⟩, fun ⟨w', hw', h⟩ => by
            cases hw'
            exact h⟩

end

/-- The strings of a value, if there is one. -/
def ValueStrings (P : JsString → Prop) (v : Option Json) : Prop := ∀ x ∈ v, x.Strings P

section comparing

variable {P : JsString → Prop} (hless : ∀ s t, P s → P t → stringLess s t = scalarLess s t)
  {a b : Option Json}

theorem equals_iff : equals a b = true ↔ Equals a b := by
  cases a with
  | none => cases b <;> simp [equals, Equals]
  | some v =>
      cases b with
      | none => simp [equals, Equals]
      | some w => exact deepEqual_iff v w

include hless in
theorem less_iff (ha : ValueStrings P a) (hb : ValueStrings P b) : less a b = true ↔ Less a b := by
  cases a with
  | none => simp [less, Less]
  | some v =>
      cases b with
      | none => cases v <;> simp [less, Less]
      | some w =>
          cases v
          case str s =>
            cases w
            case str t =>
              have hs : P s := ha (.str s) rfl
              have ht : P t := hb (.str t) rfl
              rw [less, Less, hless s t hs ht]
            all_goals simp [less, Less]
          all_goals cases w <;> simp [less, Less]

include hless in
theorem compare_iff (op : Op) (ha : ValueStrings P a) (hb : ValueStrings P b) :
    compare op a b = true ↔ Compares op a b := by
  cases op with
  | eq => exact equals_iff
  | ne =>
      rw [compare, Compares, ← equals_iff]
      simp
  | lt => exact less_iff hless ha hb
  | gt => exact less_iff hless hb ha
  | le => rw [compare, Compares, Bool.or_eq_true, less_iff hless ha hb, equals_iff]
  | ge => rw [compare, Compares, Bool.or_eq_true, less_iff hless hb ha, equals_iff]

end comparing

/-! ## Slices -/

theorem sliceIndices_eq (start stop step : Option Int) (len : Nat) :
    sliceIndices start stop step len = sliceOf start stop step len := by
  rw [sliceIndices, sliceOf]
  dsimp only
  split
  · rfl
  · split
    · generalize start.getD 0 = i
      generalize stop.getD (len : Int) = j
      have hlower : (if i < 0 then max ((len : Int) + i) 0 else min i len) =
          min (max (normalizeIndex i len) 0) len := by
        rw [normalizeIndex]
        split <;> split <;> omega
      have hupper : (if j < 0 then max ((len : Int) + j) 0 else min j len) =
          min (max (normalizeIndex j len) 0) len := by
        rw [normalizeIndex]
        split <;> split <;> omega
      rw [hlower, hupper]
    · generalize start.getD ((len : Int) - 1) = i
      generalize stop.getD (-(len : Int) - 1) = j
      have hlower : (if i < 0 then max ((len : Int) + i) (-1) else min i (len - 1)) =
          min (max (normalizeIndex i len) (-1)) (len - 1) := by
        rw [normalizeIndex]
        split <;> split <;> omega
      have hupper : (if j < 0 then max ((len : Int) + j) (-1) else min j (len - 1)) =
          min (max (normalizeIndex j len) (-1)) (len - 1) := by
        rw [normalizeIndex]
        split <;> split <;> omega
      rw [hlower, hupper]

/-! ## Singular queries -/

theorem named_values (name : JsString) (node : Node) :
    (named name node).map Node.value = (member name node.value).toList := by
  rw [named]
  cases member name node.value <;> rfl

theorem indexed_values (i : Int) (node : Node) :
    (indexed i node).map Node.value = (element i node.value).toList := by
  rw [indexed, element.eq_def]
  cases node.value with
  | arr items =>
      dsimp only
      cases place items.length i with
      | none => rfl
      | some n =>
          simp only [Option.bind_some, pick, Int.toNat_natCast]
          cases items[n]? <;> rfl
  | _ => rfl

theorem single_values (s : Single) (node : Node) :
    (s.nodes node).map Node.value = (single s node.value).toList := by
  cases s with
  | name name => exact named_values name node
  | index i => exact indexed_values i node

/-- A path of names and indices leads to the value of the fast path, or nowhere. -/
theorem singleNodes_values (path : List Single) (nodes : List Node) (v : Option Json)
    (h : nodes.map Node.value = v.toList) :
    (singleNodes path nodes).map Node.value = (v.bind (singularValue path)).toList := by
  induction path generalizing nodes v with
  | nil =>
      rw [singleNodes, h]
      cases v <;> rfl
  | cons s path ih =>
      rw [singleNodes, ih _ (v.bind (single s))]
      · cases v with
        | none => rfl
        | some v => rfl
      · cases v with
        | none =>
            rw [List.map_eq_nil_iff.mp h]
            rfl
        | some v =>
            match nodes, h with
            | [node], h =>
                obtain rfl : node.value = v := by simpa using h
                rw [List.flatMap_singleton, single_values]
                rfl

theorem onlyValue_of_values {nodes : List Node} {v : Option Json}
    (h : nodes.map Node.value = v.toList) : onlyValue nodes = v := by
  cases v with
  | none =>
      rw [List.map_eq_nil_iff.mp h]
      rfl
  | some v =>
      match nodes, h with
      | [node], h => exact congrArg some (by simpa using h)

theorem singularValue_eq (path : List Single) (node : Node) :
    singularValue path node.value = onlyValue (singleNodes path [node]) :=
  (onlyValue_of_values (singleNodes_values path [node] (some node.value) rfl)).symm

/-! ## Strings of the nodes -/

section strings

variable {P : JsString → Prop}

theorem itemStrings_iff {items : List Json} : itemStrings P items ↔ ∀ v ∈ items, v.Strings P := by
  induction items with
  | nil => simp [itemStrings]
  | cons v vs ih => rw [itemStrings, ih, List.forall_mem_cons]

theorem entryStrings_iff {entries : List (JsString × Json)} :
    entryStrings P entries ↔ ∀ e ∈ entries, e.2.Strings P := by
  induction entries with
  | nil => simp [entryStrings]
  | cons e es ih => rw [entryStrings, ih, List.forall_mem_cons]

/-- All nodes have strings that satisfy `P`. -/
def NodeStrings (P : JsString → Prop) (nodes : List Node) : Prop := ∀ n ∈ nodes, n.value.Strings P

theorem childItems_strings {path : List Token} {items : List Json} {i : Nat}
    (h : itemStrings P items) : NodeStrings P (childItems path i items) := by
  induction items generalizing i with
  | nil => exact fun n hn => nomatch hn
  | cons v vs ih =>
      rintro n (_ | ⟨_, hn⟩)
      · exact h.1
      · exact ih h.2 n hn

theorem children_strings {node : Node} (h : node.value.Strings P) :
    NodeStrings P (children node) := by
  rw [children]
  split
  · next items hv =>
      rw [hv] at h
      exact childItems_strings h
  · next entries hv =>
      rw [hv] at h
      intro n hn
      obtain ⟨e, he, rfl⟩ := List.mem_map.mp hn
      exact entryStrings_iff.mp h e he
  · exact fun n hn => nomatch hn

theorem pick_strings {node n : Node} {items : List Json} {i : Int} (h : itemStrings P items)
    (hn : pick node items i = some n) : n.value.Strings P := by
  obtain ⟨v, hv, rfl⟩ := Option.map_eq_some_iff.mp hn
  exact itemStrings_iff.mp h v (List.mem_of_getElem? hv)

theorem named_strings {name : JsString} {node : Node} (h : node.value.Strings P) :
    NodeStrings P (named name node) := by
  intro n hn
  obtain ⟨v, hv, rfl⟩ := Option.map_eq_some_iff.mp (Option.mem_toList.mp hn)
  rw [member.eq_def] at hv
  split at hv
  · next entries hvalue =>
      rw [hvalue] at h
      obtain ⟨_, _, rfl, -⟩ := List.lookup_eq_some_iff.mp hv
      exact entryStrings_iff.mp h (name, v)
        (List.mem_append_right _ List.mem_cons_self)
  · cases hv

theorem indexed_strings {i : Int} {node : Node} (h : node.value.Strings P) :
    NodeStrings P (indexed i node) := by
  rw [indexed]
  split
  · next items hvalue =>
      rw [hvalue] at h
      intro n hn
      obtain ⟨k, -, hk⟩ := Option.bind_eq_some_iff.mp (Option.mem_toList.mp hn)
      exact pick_strings h hk
  · exact fun n hn => nomatch hn

mutual

theorem descend_strings : ∀ (v : Json) (path : List Token), v.Strings P →
    NodeStrings P (descend v path)
  | .arr items, path, h => by
      rintro n (_ | ⟨_, hn⟩)
      · exact h
      · exact descendItems_strings items path 0 h n hn
  | .obj entries, path, h => by
      rintro n (_ | ⟨_, hn⟩)
      · exact h
      · exact descendEntries_strings entries path h n hn
  | .null, path, h => List.forall_mem_singleton.mpr h
  | .bool b, path, h => List.forall_mem_singleton.mpr h
  | .num x, path, h => List.forall_mem_singleton.mpr h
  | .str s, path, h => List.forall_mem_singleton.mpr h

theorem descendItems_strings : ∀ (items : List Json) (path : List Token) (i : Nat),
    itemStrings P items → NodeStrings P (descendItems path i items)
  | [], _, _, _ => fun _ hn => nomatch hn
  | v :: vs, path, i, h => fun n hn => (List.mem_append.mp hn).elim
      (descend_strings v _ h.1 n) (descendItems_strings vs path (i + 1) h.2 n)

theorem descendEntries_strings : ∀ (entries : List (JsString × Json)) (path : List Token),
    entryStrings P entries → NodeStrings P (descendEntries path entries)
  | [], _, _ => fun _ hn => nomatch hn
  | (_, v) :: es, path, h => fun n hn => (List.mem_append.mp hn).elim
      (descend_strings v _ h.1 n) (descendEntries_strings es path h.2 n)

end

variable {doc : Json}

theorem select_strings {sel : Selector} {node : Node} (h : node.value.Strings P) :
    NodeStrings P (select doc sel node) := by
  cases sel with
  | name name =>
      rw [select]
      exact named_strings h
  | wildcard =>
      rw [select]
      exact children_strings h
  | index i =>
      rw [select]
      exact indexed_strings h
  | slice start stop step =>
      rw [select]
      split
      · next items hvalue =>
          rw [hvalue] at h
          intro n hn
          obtain ⟨i, -, hi⟩ := List.mem_filterMap.mp hn
          exact pick_strings h hi
      · exact fun n hn => nomatch hn
  | filter e =>
      rw [select]
      exact fun n hn => children_strings h n (List.mem_of_mem_filter hn)

theorem selectAll_strings {sels : List Selector} {node : Node} (h : node.value.Strings P) :
    NodeStrings P (selectAll doc sels node) := by
  induction sels with
  | nil =>
      rw [selectAll]
      exact fun n hn => nomatch hn
  | cons sel sels ih =>
      rw [selectAll]
      exact fun n hn => (List.mem_append.mp hn).elim (select_strings h n) (ih n)

theorem flatMap_strings {f : Node → List Node} {nodes : List Node} (h : NodeStrings P nodes)
    (hf : ∀ n, n.value.Strings P → NodeStrings P (f n)) : NodeStrings P (nodes.flatMap f) := by
  intro n hn
  obtain ⟨m, hm, hn⟩ := List.mem_flatMap.mp hn
  exact hf m (h m hm) n hn

theorem base_strings {descendant : Bool} {nodes : List Node} (h : NodeStrings P nodes) :
    NodeStrings P (if descendant then nodes.flatMap fun node => descend node.value node.path
      else nodes) := by
  split
  · exact flatMap_strings h fun n hn => descend_strings n.value n.path hn
  · exact h

theorem nodelist_strings {segs : List Segment} {nodes : List Node} (h : NodeStrings P nodes) :
    NodeStrings P (nodelist doc segs nodes) := by
  induction segs generalizing nodes with
  | nil =>
      rw [nodelist]
      exact h
  | cons seg segs ih =>
      obtain ⟨descendant, selectors⟩ := seg
      rw [nodelist]
      exact ih (flatMap_strings (base_strings h) fun n hn => selectAll_strings hn)

theorem onlyValue_strings {nodes : List Node} (h : NodeStrings P nodes) :
    ValueStrings P (onlyValue nodes) := by
  intro x hx
  match nodes, hx with
  | [node], hx =>
      cases hx
      exact h node List.mem_cons_self

theorem lengthOf_strings (v : Option Json) : ValueStrings P (lengthOf v) := by
  intro x hx
  rw [lengthOf.eq_def] at hx
  split at hx
  all_goals first
    | (cases hx; trivial)
    | cases hx

theorem singleNodes_strings {path : List Single} {nodes : List Node} (h : NodeStrings P nodes) :
    NodeStrings P (singleNodes path nodes) := by
  induction path generalizing nodes with
  | nil => exact h
  | cons s path ih =>
      refine ih (flatMap_strings h fun n hn => ?_)
      cases s with
      | name name => exact named_strings hn
      | index i => exact indexed_strings hn

/-- The start of a query has the strings of the document or of the current node. -/
theorem start_strings {absolute : Bool} {current : Node} (hdoc : doc.Strings P)
    (hcurrent : current.value.Strings P) :
    NodeStrings P [⟨if absolute then doc else current.value, []⟩] := by
  refine List.forall_mem_singleton.mpr ?_
  dsimp only
  split
  · exact hdoc
  · exact hcurrent

theorem valueOf_strings {c : Comparable} {atRoot : Bool} {current : Node}
    (hplain : c.Plain P atRoot) (hdoc : doc.Strings P) (hcurrent : current.value.Strings P) :
    ValueStrings P (valueOf doc c current) := by
  cases c with
  | lit v =>
      rw [valueOf]
      intro x hx
      cases hx
      rw [Comparable.Plain] at hplain
      exact hplain
  | query absolute path =>
      rw [valueOf]
      exact onlyValue_strings (singleNodes_strings (start_strings hdoc hcurrent))
  | length arg =>
      rw [valueOf]
      exact lengthOf_strings _
  | count absolute segments =>
      rw [valueOf]
      intro x hx
      cases hx
      trivial
  | value absolute segments =>
      rw [valueOf]
      exact onlyValue_strings (nodelist_strings (start_strings hdoc hcurrent))

end strings

/-! ## The walk over the syntax -/

theorem keep_ok {test : Node → Except Err Bool} {H : Node → Prop} [DecidablePred H]
    {nodes ns : List Node} (htest : ∀ n ∈ nodes, ∀ b, test n = .ok b → (b = true ↔ H n))
    (h : keep test nodes = .ok ns) : ns = nodes.filter fun n => decide (H n) := by
  induction nodes generalizing ns with
  | nil => cases h; rfl
  | cons n nodes ih =>
      obtain ⟨b, hb, h⟩ := Checked.bind_eq_ok.mp h
      obtain ⟨kept, hkept, h⟩ := Checked.bind_eq_ok.mp h
      cases h
      have hn := htest n List.mem_cons_self b hb
      rw [ih (fun m hm => htest m (List.mem_cons_of_mem _ hm)) hkept]
      cases b with
      | true => rw [if_pos rfl, List.filter_cons, if_pos (decide_eq_true (hn.mp rfl))]
      | false =>
          have hnot : ¬ H n := fun hholds => Bool.false_ne_true (hn.mpr hholds)
          rw [if_neg Bool.false_ne_true, List.filter_cons, if_neg]
          exact fun hholds => hnot (of_decide_eq_true hholds)

theorem collect_ok {f : Node → Except Err (List Node)} {g : Node → List Node}
    {nodes ns : List Node} (hf : ∀ n ∈ nodes, ∀ ms, f n = .ok ms → ms = g n)
    (h : collect f nodes = .ok ns) : ns = nodes.flatMap g := by
  induction nodes generalizing ns with
  | nil => cases h; rfl
  | cons n nodes ih =>
      obtain ⟨a, ha, h⟩ := Checked.bind_eq_ok.mp h
      obtain ⟨b, hb, h⟩ := Checked.bind_eq_ok.mp h
      cases h
      rw [List.flatMap_cons, hf n List.mem_cons_self a ha,
        ih (fun m hm => hf m (List.mem_cons_of_mem _ hm)) hb]

theorem walk_ok {nodes base : List Node} (h : walk nodes = .ok base) :
    base = nodes.flatMap fun node => descend node.value node.path := by
  rw [walk] at h
  split at h
  · cases h
  · cases h
    rfl

section evaluate

variable {P : JsString → Prop} (hless : ∀ s t, P s → P t → stringLess s t = scalarLess s t)
  {doc : Json} (hdoc : doc.Strings P)

/-- The start of a query is the standard's, and the root of what is inside is the
document if the query begins there. -/
theorem start_eq {absolute atRoot : Bool} {root : Json} (current : Node)
    (hroot : atRoot = true → root = doc) (habsolute : absolute = true → atRoot = true) :
    (if absolute then root else current.value) = (if absolute then doc else current.value) ∧
      (absolute = true → (if absolute then root else current.value) = doc) := by
  cases absolute with
  | true => exact ⟨hroot (habsolute rfl), fun _ => hroot (habsolute rfl)⟩
  | false => exact ⟨rfl, fun h => nomatch h⟩

include hdoc in
/-- The nodes of a query in a filter, from what its segments give. -/
theorem queryNodes_ok {absolute atRoot : Bool} {segments : List Segment} {root : Json}
    {current : Node} {nodes : List Node}
    (hsegments : ∀ (root : Json) (nodes ns : List Node), (absolute = true → root = doc) →
      NodeStrings P nodes → evalSegments segments root nodes = .ok ns →
        ns = nodelist doc segments nodes)
    (hroot : atRoot = true → root = doc) (habsolute : absolute = true → atRoot = true)
    (hcurrent : current.value.Strings P)
    (h : evalSegments segments (if absolute then root else current.value)
      [⟨if absolute then root else current.value, []⟩] = .ok nodes) :
    nodes = nodelist doc segments [⟨if absolute then doc else current.value, []⟩] := by
  obtain ⟨hstart, hinside⟩ := start_eq current hroot habsolute
  rw [hstart] at h hinside
  exact hsegments _ _ _ hinside (start_strings hdoc hcurrent) h

include hless hdoc

set_option linter.unusedSectionVars false

mutual

theorem applySelector_ok : ∀ (sel : Selector) (atRoot : Bool) (root : Json) (node : Node)
    (ns : List Node), sel.Plain P atRoot → (atRoot = true → root = doc) → node.value.Strings P →
    applySelector sel root node = .ok ns → ns = select doc sel node
  | .name name, _, root, node, ns, _, _, _, h => by
      rw [applySelector] at h
      cases h
      rw [select]
      rfl
  | .wildcard, _, root, node, ns, _, _, _, h => by
      rw [applySelector] at h
      cases h
      rw [select]
  | .index i, _, root, node, ns, _, _, _, h => by
      rw [applySelector] at h
      cases h
      rw [select]
      rfl
  | .slice start stop step, _, root, node, ns, _, _, _, h => by
      rw [applySelector] at h
      cases h
      rw [select, applySlice]
      cases node.value with
      | arr items =>
          dsimp only
          rw [sliceIndices_eq]
      | _ => rfl
  | .filter e, atRoot, root, node, ns, hplain, hroot, hnode, h => by
      rw [applySelector] at h
      rw [select]
      rw [Selector.Plain] at hplain
      classical
      refine keep_ok (fun n hn b hb => ?_) h
      exact evalLogical_ok e atRoot root n b hplain hroot (children_strings hnode n hn) hb

theorem applySelectors_ok : ∀ (sels : List Selector) (atRoot : Bool) (root : Json) (node : Node)
    (ns : List Node), selectorsPlain P atRoot sels → (atRoot = true → root = doc) →
    node.value.Strings P → applySelectors sels root node = .ok ns → ns = selectAll doc sels node
  | [], _, root, node, ns, _, _, _, h => by
      rw [applySelectors] at h
      cases h
      rw [selectAll]
  | sel :: sels, atRoot, root, node, ns, hplain, hroot, hnode, h => by
      rw [applySelectors] at h
      rw [selectorsPlain] at hplain
      obtain ⟨a, ha, h⟩ := Checked.bind_eq_ok.mp h
      obtain ⟨b, hb, h⟩ := Checked.bind_eq_ok.mp h
      cases h
      rw [selectAll, ← applySelector_ok sel atRoot root node a hplain.1 hroot hnode ha,
        ← applySelectors_ok sels atRoot root node b hplain.2 hroot hnode hb]

theorem evalSegments_ok : ∀ (segs : List Segment) (atRoot : Bool) (root : Json)
    (nodes ns : List Node), segmentsPlain P atRoot segs → (atRoot = true → root = doc) →
    NodeStrings P nodes → evalSegments segs root nodes = .ok ns → ns = nodelist doc segs nodes
  | [], _, root, nodes, ns, _, _, _, h => by
      rw [evalSegments] at h
      cases h
      rw [nodelist]
  | .mk descendant selectors :: segs, atRoot, root, nodes, ns, hplain, hroot, hnodes, h => by
      rw [evalSegments] at h
      rw [segmentsPlain] at hplain
      obtain ⟨base, hbase, h⟩ := Checked.bind_eq_ok.mp h
      obtain ⟨found, hfound, h⟩ := Checked.bind_eq_ok.mp h
      have hbase' : base = if descendant then nodes.flatMap fun node => descend node.value node.path
          else nodes := by
        cases descendant with
        | true => exact walk_ok hbase
        | false => cases hbase; rfl
      have hstrings : NodeStrings P base := hbase' ▸ base_strings hnodes
      have hfound' := collect_ok (fun n hn ms hms => applySelectors_ok selectors atRoot root n ms
        hplain.1 hroot (hstrings n hn) hms) hfound
      split at h
      · cases h
      · rw [nodelist, ← hbase', ← hfound']
        refine evalSegments_ok segs atRoot root found ns hplain.2 hroot ?_ h
        rw [hfound']
        exact flatMap_strings hstrings fun n hn => selectAll_strings hn

theorem evalComparable_ok : ∀ (c : Comparable) (atRoot : Bool) (root : Json) (current : Node)
    (v : Option Json), c.Plain P atRoot → (atRoot = true → root = doc) →
    current.value.Strings P → evalComparable c root current = .ok v → v = valueOf doc c current
  | .lit w, _, root, current, v, _, _, _, h => by
      rw [evalComparable] at h
      cases h
      rw [valueOf]
  | .query absolute path, atRoot, root, current, v, hplain, hroot, _, h => by
      rw [evalComparable] at h
      rw [Comparable.Plain] at hplain
      cases h
      rw [valueOf, (start_eq current hroot hplain).1, ← singularValue_eq]
  | .length arg, atRoot, root, current, v, hplain, hroot, hcurrent, h => by
      rw [evalComparable] at h
      rw [Comparable.Plain] at hplain
      obtain ⟨w, hw, h⟩ := Checked.bind_eq_ok.mp h
      cases h
      rw [valueOf, ← evalComparable_ok arg atRoot root current w hplain hroot hcurrent hw]
  | .count absolute segments, atRoot, root, current, v, hplain, hroot, hcurrent, h => by
      rw [evalComparable] at h
      rw [Comparable.Plain] at hplain
      obtain ⟨nodes, hnodes, h⟩ := Checked.bind_eq_ok.mp h
      cases h
      rw [valueOf, ← queryNodes_ok hdoc (fun root ns ms hinside hstrings hms =>
        evalSegments_ok segments absolute root ns ms hplain.2 hinside hstrings hms)
        hroot hplain.1 hcurrent hnodes]
  | .value absolute segments, atRoot, root, current, v, hplain, hroot, hcurrent, h => by
      rw [evalComparable] at h
      rw [Comparable.Plain] at hplain
      obtain ⟨nodes, hnodes, h⟩ := Checked.bind_eq_ok.mp h
      cases h
      rw [valueOf, ← queryNodes_ok hdoc (fun root ns ms hinside hstrings hms =>
        evalSegments_ok segments absolute root ns ms hplain.2 hinside hstrings hms)
        hroot hplain.1 hcurrent hnodes]

theorem evalLogical_ok : ∀ (e : Logical) (atRoot : Bool) (root : Json) (current : Node) (b : Bool),
    e.Plain P atRoot → (atRoot = true → root = doc) → current.value.Strings P →
    evalLogical e root current = .ok b → (b = true ↔ Holds doc e current)
  | .or e f, atRoot, root, current, b, hplain, hroot, hcurrent, h => by
      rw [evalLogical] at h
      rw [Logical.Plain] at hplain
      obtain ⟨x, hx, h⟩ := Checked.bind_eq_ok.mp h
      have hleft := evalLogical_ok e atRoot root current x hplain.1 hroot hcurrent hx
      rw [Holds, ← hleft]
      cases x with
      | true =>
          cases h
          exact ⟨fun _ => Or.inl rfl, fun _ => rfl⟩
      | false =>
          rw [evalLogical_ok f atRoot root current b hplain.2 hroot hcurrent h]
          exact ⟨Or.inr, fun hor => hor.resolve_left Bool.false_ne_true⟩
  | .and e f, atRoot, root, current, b, hplain, hroot, hcurrent, h => by
      rw [evalLogical] at h
      rw [Logical.Plain] at hplain
      obtain ⟨x, hx, h⟩ := Checked.bind_eq_ok.mp h
      have hleft := evalLogical_ok e atRoot root current x hplain.1 hroot hcurrent hx
      rw [Holds, ← hleft]
      cases x with
      | true =>
          rw [evalLogical_ok f atRoot root current b hplain.2 hroot hcurrent h]
          exact ⟨fun hright => ⟨rfl, hright⟩, fun hand => hand.2⟩
      | false =>
          cases h
          exact Iff.intro (fun hfalse => absurd hfalse Bool.false_ne_true)
            (fun hand => absurd hand.1 Bool.false_ne_true)
  | .not e, atRoot, root, current, b, hplain, hroot, hcurrent, h => by
      rw [evalLogical] at h
      rw [Logical.Plain] at hplain
      obtain ⟨x, hx, h⟩ := Checked.bind_eq_ok.mp h
      cases h
      rw [Holds, ← evalLogical_ok e atRoot root current x hplain hroot hcurrent hx]
      cases x <;> simp
  | .compare op c d, atRoot, root, current, b, hplain, hroot, hcurrent, h => by
      rw [evalLogical] at h
      rw [Logical.Plain] at hplain
      obtain ⟨x, hx, h⟩ := Checked.bind_eq_ok.mp h
      obtain ⟨y, hy, h⟩ := Checked.bind_eq_ok.mp h
      cases h
      rw [Holds, evalComparable_ok c atRoot root current x hplain.1 hroot hcurrent hx,
        evalComparable_ok d atRoot root current y hplain.2 hroot hcurrent hy]
      exact compare_iff hless op (valueOf_strings hplain.1 hdoc hcurrent)
        (valueOf_strings hplain.2 hdoc hcurrent)
  | .query absolute segments, atRoot, root, current, b, hplain, hroot, hcurrent, h => by
      rw [evalLogical] at h
      rw [Logical.Plain] at hplain
      obtain ⟨nodes, hnodes, h⟩ := Checked.bind_eq_ok.mp h
      cases h
      rw [Holds, ← queryNodes_ok hdoc (fun root ns ms hinside hstrings hms =>
        evalSegments_ok segments absolute root ns ms hplain.2 hinside hstrings hms)
        hroot hplain.1 hcurrent hnodes]
      cases nodes <;> simp

end

end evaluate

/-! ## The fast path -/

theorem single_length (s : Single) (node : Node) : (s.nodes node).length ≤ 1 := by
  rw [← List.length_map Node.value, single_values]
  cases single s node.value <;> simp

theorem applySelectors_single (s : Single) (root : Json) (node : Node) :
    ∀ descendant selectors, s.segment = .mk descendant selectors →
      descendant = false ∧ applySelectors selectors root node = .ok (s.nodes node) := by
  intro descendant selectors hsegment
  cases s
  all_goals
    cases hsegment
    refine ⟨rfl, ?_⟩
    rw [applySelectors, applySelector, applySelectors]
    exact congrArg Except.ok (List.append_nil _)

theorem evalSegments_single (path : List Single) (root : Json) {nodes : List Node}
    (hnodes : nodes.length ≤ 1) :
    evalSegments (path.map Single.segment) root nodes = .ok (singleNodes path nodes) := by
  induction path generalizing nodes with
  | nil => rw [List.map_nil, evalSegments, singleNodes]
  | cons s path ih =>
      obtain ⟨descendant, selectors, hsegment⟩ : ∃ d sels, s.segment = .mk d sels := by
        cases s <;> exact ⟨_, _, rfl⟩
      obtain rfl := (applySelectors_single s root ⟨.null, []⟩ descendant selectors hsegment).1
      have happly : ∀ node, applySelectors selectors root node = .ok (s.nodes node) :=
        fun node => (applySelectors_single s root node false selectors hsegment).2
      have hcollect : collect (applySelectors selectors root) nodes =
          .ok (nodes.flatMap s.nodes) := by
        match nodes, hnodes with
        | [], _ => rfl
        | [node], _ =>
            rw [collect, happly, collect, List.flatMap_singleton]
            exact congrArg Except.ok (List.append_nil _)
      have hfound : (nodes.flatMap s.nodes).length ≤ 1 := by
        match nodes, hnodes with
        | [], _ => exact Nat.zero_le 1
        | [node], _ =>
            rw [List.flatMap_singleton]
            exact single_length s node
      rw [List.map_cons, hsegment, evalSegments, singleNodes, ← ih hfound]
      show (collect _ nodes >>= _) = _
      rw [hcollect]
      exact if_neg (by unfold maxTotalNodes; omega)

/-! ## The query -/

/-- Below the caps a query gives the nodelist, and the fast path of a singular query the
value of the general one. -/
theorem query_selects (P : JsString → Prop) (doc : Json) (segments : List Segment)
    (hless : ∀ s t, P s → P t → stringLess s t = scalarLess s t) (hdoc : doc.Strings P)
    (hplain : segmentsPlain P true segments) :
    (∀ nodes, query doc segments = .ok nodes → nodes = nodelist doc segments [⟨doc, []⟩]) ∧
      ∀ path root start, ∃ nodes,
        evalSegments (path.map Single.segment) root [⟨start, []⟩] = .ok nodes ∧
          nodes.map Node.value = (singularValue path start).toList := by
  refine ⟨fun nodes h => ?_, fun path root start => ⟨_, evalSegments_single path root le_rfl, ?_⟩⟩
  · have hstart : NodeStrings P [⟨doc, []⟩] := List.forall_mem_singleton.mpr hdoc
    exact evalSegments_ok hless hdoc segments true doc _ nodes hplain (fun _ => rfl) hstart h
  · exact singleNodes_values path [⟨start, []⟩] (some start) rfl

/-- `$[?@.a < s]` -/
def below (s : JsString) : List Segment :=
  [.mk false [.filter (.compare .lt (.query false [.name (units "a")]) (.lit (.str s)))]]

/-- `[{"a": s}]` -/
def holding (s : JsString) : Json := .arr [.obj [(units "a", .str s)]]

theorem query_selects_below : nodelist (holding (units "b")) (below (units "c"))
    [⟨holding (units "b"), []⟩] = [⟨.obj [(units "a", .str (units "b"))], [.index 0]⟩] := by
  have hless : ∀ s t, (s = units "b" ∨ s = units "c") → (t = units "b" ∨ t = units "c") →
      stringLess s t = scalarLess s t := by
    rintro s t (rfl | rfl) (rfl | rfl) <;> decide
  have hdoc : (holding (units "b")).Strings fun s => s = units "b" ∨ s = units "c" :=
    ⟨⟨Or.inl rfl, trivial⟩, trivial⟩
  have hplain : segmentsPlain (fun s => s = units "b" ∨ s = units "c") true
      (below (units "c")) := by
    simp [below, segmentsPlain, selectorsPlain, Selector.Plain, Logical.Plain, Comparable.Plain,
      Json.Strings]
  have hquery : query (holding (units "b")) (below (units "c")) =
      .ok [⟨.obj [(units "a", .str (units "b"))], [.index 0]⟩] := by
    with_unfolding_all rfl
  exact ((query_selects _ _ _ hless hdoc hplain).1 _ hquery).symm

/-- `{"c": true, "x": {"a": [{"b": true}]}}` -/
def nested : Json :=
  .obj [(units "c", .bool true),
    (units "x", .obj [(units "a", .arr [.obj [(units "b", .bool true)]])])]

/-- `$[?@.a[?@.b == $.c]]` -/
def throughRoot : List Segment :=
  [.mk false [.filter (.query false [.mk false [.name (units "a")],
    .mk false [.filter (.compare .eq (.query false [.name (units "b")])
      (.query true [.name (units "c")]))]])]]

/-- U+10000 is before U+FFFF by code unit, and `$` is not the document inside a query
from `@`. -/
theorem not_the_nodelist :
    (query (holding [0xD800, 0xDC00]) (below [0xFFFF]) =
        .ok [⟨.obj [(units "a", .str [0xD800, 0xDC00])], [.index 0]⟩] ∧
      nodelist (holding [0xD800, 0xDC00]) (below [0xFFFF])
        [⟨holding [0xD800, 0xDC00], []⟩] = []) ∧
    query nested throughRoot = .ok [] ∧
      nodelist nested throughRoot [⟨nested, []⟩] ≠ [] := by
  refine ⟨⟨?_, ?_⟩, ?_, ?_⟩
  · with_unfolding_all rfl
  · have hscalar : scalarLess [0xD800, 0xDC00] [0xFFFF] = false := by decide
    simp [below, holding, nodelist, selectAll, select, children, childItems, Holds, Compares,
      valueOf, singleNodes, Single.nodes, named, member, onlyValue, Less, hscalar]
  · with_unfolding_all rfl
  · have hkept : Holds nested (.query false [.mk false [.name (units "a")],
        .mk false [.filter (.compare .eq (.query false [.name (units "b")])
          (.query true [.name (units "c")]))]])
        ⟨.obj [(units "a", .arr [.obj [(units "b", .bool true)]])], [.name (units "x")]⟩ := by
      have hequal : Equal (.bool true) (.bool true) := .bool true
      simp [nested, units, nodelist, selectAll, select, children, childItems, Holds, Compares,
        valueOf, singleNodes, Single.nodes, named, member, onlyValue, Equals, hequal]
    simp [throughRoot, nodelist, selectAll, select]
    exact ⟨_, List.mem_cons_of_mem _ List.mem_cons_self, hkept⟩

end Blamejs.JsonPath
