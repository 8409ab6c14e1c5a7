import Blamejs.Lib.Checked
import Blamejs.Lib.DepthFirst
import Blamejs.Ref.Permissions

/-!
# What a role grants

`expandOne` is a depth-first search that collects permissions on the way (`expandOne_visit`,
`expandOne_out`), so `expand` finds the permissions of the roles that the table reaches, and
the table is the role map but for a role named `__proto__`. A wildcard at the end of a pattern
covers no segment as well as many, one in the middle exactly one: two of them side by side are
where `match` is not transitive (`matchParts_trans`).
-/

namespace Blamejs.Permissions

open Blamejs.Js DepthFirst

variable {roles roles' : Roles} {t t' : Table} {names names' : List JsString}
variable {name scope : JsString} {p q r : List JsString}

/-! ## Scopes -/

/-- A pattern that ends in two wildcards, one segment longer than another one, and that one
segment longer than a third. -/
def TwoStarsOver (p q r : List JsString) : Prop :=
  (∃ front, p = front ++ [star, star]) ∧ p.length = q.length + 1 ∧ q.length = r.length + 1

theorem matchParts_star (q : List JsString) : matchParts [star] q = true := by
  unfold matchParts
  rw [if_pos rfl, if_pos rfl]

/-- One segment of a pattern, in front of others. -/
theorem matchParts_cons {g : JsString} {p : List JsString} (h : g ≠ star ∨ p ≠ []) :
    matchParts (g :: p) q = true ↔ ∃ x q', q = x :: q' ∧ (g = star ∨ g = x) ∧
      matchParts p q' = true := by
  rw [matchParts.eq_def]
  dsimp only
  by_cases hg : g = star
  · rw [if_pos hg, if_neg (h.resolve_left (fun hne => hne hg))]
    cases q with
    | nil => simp
    | cons x q => simp [hg]
  · rw [if_neg hg]
    cases q with
    | nil => simp
    | cons x q =>
        by_cases hx : g = x
        · simp [hx]
        · simp [hx, hg]

theorem matchParts_refl (p : List JsString) : matchParts p p = true := by
  induction p with
  | nil => rfl
  | cons g p ih =>
      by_cases hlast : g = star ∧ p = []
      · obtain ⟨rfl, rfl⟩ := hlast
        exact matchParts_star _
      · exact (matchParts_cons (not_and_or.mp hlast)).mpr ⟨g, p, rfl, Or.inr rfl, ih⟩

theorem matchParts_nil (h : matchParts p [] = true) : p = [] ∨ p = [star] := by
  cases p with
  | nil => exact Or.inl rfl
  | cons g p =>
      by_cases hlast : g = star ∧ p = []
      · obtain ⟨rfl, rfl⟩ := hlast
        exact Or.inr rfl
      · obtain ⟨x, q, hq, -⟩ := (matchParts_cons (not_and_or.mp hlast)).mp h
        cases hq

theorem twoStarsOver_cons {g x y : JsString} :
    TwoStarsOver (g :: p) (x :: q) (y :: r) ↔ TwoStarsOver p q r := by
  rw [TwoStarsOver, TwoStarsOver]
  simp only [List.length_cons, Nat.add_right_cancel_iff]
  refine and_congr_left fun hlen => ⟨?_, ?_⟩
  · intro ⟨front, hfront⟩
    cases front with
    | nil =>
        have := congrArg List.length hfront
        simp at this
        omega
    | cons g' front => exact ⟨front, (List.cons.inj hfront).2⟩
  · intro ⟨front, hfront⟩
    exact ⟨g :: front, by rw [hfront]; rfl⟩

/-- What a pattern covers is covered by what covers the pattern, but for two wildcards at the
end over one. -/
theorem matchParts_trans (hpq : matchParts p q = true) (hqr : matchParts q r = true) :
    matchParts p r = true ↔ ¬ TwoStarsOver p q r := by
  induction p generalizing q r with
  | nil =>
      have hq : q = [] := by simpa [matchParts] using hpq
      subst hq
      exact ⟨fun _ h => by simpa using h.2.1, fun _ => hqr⟩
  | cons g p ih =>
      by_cases hlast : g = star ∧ p = []
      · obtain ⟨rfl, rfl⟩ := hlast
        refine ⟨fun _ ⟨⟨front, hfront⟩, _⟩ => ?_, fun _ => matchParts_star r⟩
        have := congrArg List.length hfront
        simp at this
      · have hcons := not_and_or.mp hlast
        obtain ⟨x, q, rfl, hgx, hrest⟩ := (matchParts_cons hcons).mp hpq
        by_cases hend : x = star ∧ q = []
        · -- the second pattern ends here in a wildcard, and the first has one more
          obtain ⟨rfl, rfl⟩ := hend
          have hstar : g = star := hgx.elim id id
          subst hstar
          obtain rfl := (matchParts_nil hrest).resolve_left (hcons.resolve_left fun h => h rfl)
          rw [matchParts_cons hcons]
          cases r with
          | nil => simp [TwoStarsOver]
          | cons y r => simp [TwoStarsOver, matchParts_star]
        · obtain ⟨y, r, rfl, hxy, hrest'⟩ := (matchParts_cons (not_and_or.mp hend)).mp hqr
          have hgy : g = star ∨ g = y := by
            rcases hgx with hg | rfl
            · exact Or.inl hg
            · exact hxy
          rw [twoStarsOver_cons, ← ih hrest hrest', matchParts_cons hcons]
          constructor
          · intro ⟨y', r', heq, _, hmatch⟩
            cases heq
            exact hmatch
          · intro hmatch
            exact ⟨y, r, rfl, hgy, hmatch⟩

/-! ## Roles -/

def extendsOf (roles : Roles) (name : JsString) : List JsString :=
  ((roles.lookup name).map Spec.extends_).getD []

def permissionsOf (roles : Roles) (name : JsString) : List JsString :=
  ((roles.lookup name).map Spec.permissions).getD []

/-- A scope is among the permissions of the roles that are reached through `extends`. -/
def Granted (roles : Roles) (names : List JsString) (scope : JsString) : Prop :=
  ∃ name ∈ names, ∃ role, Reaches (extendsOf roles) name role ∧ scope ∈ permissionsOf roles role

/-- Roles, edges and permissions are added. -/
def Extended (roles roles' : Roles) : Prop :=
  ∀ name, extendsOf roles name ⊆ extendsOf roles' name ∧
    permissionsOf roles name ⊆ permissionsOf roles' name

theorem granted_mono (hroles : Extended roles roles') (hnames : names ⊆ names')
    (h : Granted roles names scope) : Granted roles' names' scope := by
  obtain ⟨name, hname, role, hreach, hscope⟩ := h
  refine ⟨name, hnames hname, role, ?_, (hroles role).2 hscope⟩
  exact Relation.ReflTransGen.mono (fun _ _ hedge => (hroles _).1 hedge) _ _ hreach

/-! ## The table -/

/-- The roles that become own keys. -/
def ownRoles (roles : Roles) : Roles := roles.filter fun role => role.1 ≠ proto

theorem normalizeRoles_own (h : normalizeRoles roles t = .ok t') :
    t'.own = t.own ++ ownRoles roles := by
  induction roles generalizing t with
  | nil =>
      cases h
      exact (List.append_nil _).symm
  | cons role roles ih =>
      obtain ⟨name, spec⟩ := role
      rw [normalizeRoles] at h
      split at h
      · cases h
      · split at h
        · cases h
        · split at h
          · cases h
          · rw [ih h, Table.assign, ownRoles, ownRoles]
            by_cases hproto : name = proto
            · rw [if_pos hproto, List.filter_cons_of_neg (by simp [hproto])]
            · rw [if_neg hproto, List.filter_cons_of_pos (by simp [hproto])]
              simp

theorem get_of_ne (h : name ≠ proto) : t.get name = t.own.lookup name := by
  rw [Table.get, if_neg h, Option.or_none]

/-- What an accepted table is. -/
theorem validateRoles_ok (h : validateRoles roles = .ok t) : t.own = ownRoles roles ∧
    ∀ name ∈ t.own.map Prod.fst, ∀ extended ∈ extendsOf t.own name, t.hasOwn extended = true := by
  rw [validateRoles] at h
  split at h
  · cases h
  · obtain ⟨t', hnorm, h⟩ := Checked.bind_eq_ok.mp h
    split at h
    · cases h
    · next hknown =>
        split at h
        · cases h
        · cases h
          have hown := normalizeRoles_own hnorm
          rw [List.nil_append] at hown
          refine ⟨hown, fun name hname extended hext => ?_⟩
          by_contra hnot
          refine hknown (List.any_eq_true.mpr ?_)
          rw [hown] at hname
          obtain ⟨role, hrole, rfl⟩ := List.mem_map.mp hname
          refine ⟨role, List.mem_of_mem_filter hrole, List.any_eq_true.mpr ⟨extended, ?_, ?_⟩⟩
          · rwa [get_of_ne (by simpa using List.of_mem_filter hrole)]
          · simpa using hnot

theorem lookup_ownRoles (h : name ≠ proto) : (ownRoles roles).lookup name = roles.lookup name := by
  induction roles with
  | nil => rfl
  | cons role roles ih =>
      obtain ⟨key, spec⟩ := role
      by_cases hkey : key = proto
      · have hne : (name == key) = false := beq_eq_false_iff_ne.mpr fun heq => h (heq.trans hkey)
        rw [ownRoles, List.filter_cons_of_neg (by simp [hkey]), List.lookup_cons, hne]
        exact ih
      · rw [ownRoles, List.filter_cons_of_pos (by simp [hkey]), List.lookup_cons, List.lookup_cons]
        split
        · rfl
        · exact ih

theorem lookup_proto : (ownRoles roles).lookup proto = none := by
  rw [List.lookup_eq_none_iff]
  intro role hrole
  have hne : role.1 ≠ proto := by simpa using List.of_mem_filter hrole
  exact bne_iff_ne.mpr hne.symm

theorem hasOwn_iff : t.hasOwn name = true ↔ name ∈ t.own.map Prod.fst := by
  rw [Table.hasOwn, ← not_iff_not, Bool.not_eq_true, Option.isSome_eq_false_iff,
    Option.isNone_iff_eq_none, List.lookup_eq_none_iff, List.mem_map]
  constructor
  · intro h ⟨role, hrole, heq⟩
    simpa [heq] using h role hrole
  · intro h role hrole
    exact bne_iff_ne.mpr fun heq => h ⟨role, hrole, heq.symm⟩

/-! ## Expansion -/

/-- Roles of the table extend roles of the table. -/
def Closed (t : Table) : Prop :=
  ∀ name, t.hasOwn name = true → ∀ extended ∈ extendsOf t.own name, t.hasOwn extended = true

theorem get_of_hasOwn (h : t.hasOwn name = true) :
    ∃ spec, t.own.lookup name = some spec ∧ t.get name = some spec := by
  obtain ⟨spec, hspec⟩ := Option.isSome_iff_exists.mp h
  exact ⟨spec, hspec, by rw [Table.get, hspec, Option.some_or]⟩

/-- One role that was not visited. -/
theorem expandOne_succ {fuel : Nat} {visited out : List JsString} (hname : t.hasOwn name = true)
    (hnew : name ∉ visited) : expandOne t (fuel + 1) name (visited, out) =
      ((extendsOf t.own name).foldlM (fun state extended => expandOne t fuel extended state)
        (name :: visited, out)).map fun state =>
          (state.1, (permissionsOf t.own name).foldl pushScope state.2) := by
  obtain ⟨spec, hlookup, hget⟩ := get_of_hasOwn hname
  rw [expandOne, if_neg hnew, hget, extendsOf, permissionsOf, hlookup, Option.map_eq_bind]
  rfl

/-- What a run of walks marks, where each marks what the search does. -/
theorem foldlM_fst {walk : List JsString × List JsString → JsString →
      Option (List JsString × List JsString)}
    {mark : List JsString → JsString → Option (List JsString)} {names : List JsString}
    (h : ∀ name ∈ names, ∀ state, (walk state name).map Prod.fst = mark state.1 name)
    (state : List JsString × List JsString) :
    (names.foldlM walk state).map Prod.fst = names.foldlM mark state.1 := by
  induction names generalizing state with
  | nil => rfl
  | cons name names ih =>
      obtain ⟨hname, hnames⟩ := List.forall_mem_cons.mp h
      rw [List.foldlM_cons, List.foldlM_cons, ← hname]
      cases walk state name with
      | none => rfl
      | some state' => exact ih hnames state'

theorem expandOne_visit (hclosed : Closed t) {fuel : Nat} {state : List JsString × List JsString}
    (hname : t.hasOwn name = true) :
    (expandOne t fuel name state).map Prod.fst = visit (extendsOf t.own) fuel name state.1 := by
  induction fuel generalizing name state with
  | zero => rfl
  | succ fuel ih =>
      obtain ⟨visited, out⟩ := state
      rw [visit]
      by_cases hseen : name ∈ visited
      · rw [if_pos hseen, expandOne, if_pos hseen]
        rfl
      · rw [if_neg hseen, expandOne_succ hname hseen, Option.map_map,
          ← foldlM_fst (fun extended hext _ => ih (hclosed name hname extended hext))
            (name :: visited, out)]
        rfl

theorem mem_pushScope {out : List JsString} {x : JsString} :
    scope ∈ pushScope out x ↔ scope ∈ out ∨ scope = x := by
  rw [pushScope]
  split
  · next hmem => exact ⟨Or.inl, fun h => h.elim id fun heq => heq ▸ hmem⟩
  · rw [List.mem_append, List.mem_singleton]

theorem mem_foldl_pushScope {xs out : List JsString} :
    scope ∈ xs.foldl pushScope out ↔ scope ∈ out ∨ scope ∈ xs := by
  induction xs generalizing out with
  | nil => simp
  | cons x xs ih => rw [List.foldl_cons, ih, mem_pushScope, List.mem_cons, or_assoc]

/-- What a walk adds: the permissions of what it marked. -/
def Collects (t : Table) (state state' : List JsString × List JsString) : Prop :=
  state.1 ⊆ state'.1 ∧ ∀ scope, scope ∈ state'.2 ↔ scope ∈ state.2 ∨
    ∃ role ∈ state'.1, role ∉ state.1 ∧ scope ∈ permissionsOf t.own role

theorem Collects.refl (state : List JsString × List JsString) : Collects t state state :=
  ⟨fun _ h => h, fun scope => ⟨Or.inl, fun h => h.elim id fun ⟨_, hin, hnot, _⟩ => absurd hin hnot⟩⟩

theorem Collects.trans {state state' state'' : List JsString × List JsString}
    (h : Collects t state state') (h' : Collects t state' state'') : Collects t state state'' := by
  refine ⟨fun _ hx => h'.1 (h.1 hx), fun scope => ?_⟩
  rw [h'.2, h.2]
  constructor
  · rintro ((hin | ⟨role, hrole, hnot, hscope⟩) | ⟨role, hrole, hnot, hscope⟩)
    · exact Or.inl hin
    · exact Or.inr ⟨role, h'.1 hrole, hnot, hscope⟩
    · exact Or.inr ⟨role, hrole, fun hin => hnot (h.1 hin), hscope⟩
  · rintro (hin | ⟨role, hrole, hnot, hscope⟩)
    · exact Or.inl (Or.inl hin)
    · by_cases hmid : role ∈ state'.1
      · exact Or.inl (Or.inr ⟨role, hmid, hnot, hscope⟩)
      · exact Or.inr ⟨role, hrole, hmid, hscope⟩

theorem collects_foldlM {walk : List JsString × List JsString → JsString →
      Option (List JsString × List JsString)} {names : List JsString}
    (hwalk : ∀ name ∈ names, ∀ state state', walk state name = some state' →
      Collects t state state')
    {state state' : List JsString × List JsString} (h : names.foldlM walk state = some state') :
    Collects t state state' := by
  induction names generalizing state with
  | nil =>
      cases h
      exact .refl _
  | cons name names ih =>
      obtain ⟨hname, hnames⟩ := List.forall_mem_cons.mp hwalk
      obtain ⟨mid, hmid, h⟩ := Option.bind_eq_some_iff.mp h
      exact (hname state mid hmid).trans (ih hnames h)

theorem expandOne_collects (hclosed : Closed t) {fuel : Nat}
    {state state' : List JsString × List JsString} (hname : t.hasOwn name = true)
    (h : expandOne t fuel name state = some state') : Collects t state state' := by
  induction fuel generalizing name state state' with
  | zero => cases h
  | succ fuel ih =>
      obtain ⟨visited, out⟩ := state
      by_cases hseen : name ∈ visited
      · rw [expandOne, if_pos hseen] at h
        cases h
        exact .refl _
      · rw [expandOne_succ hname hseen] at h
        obtain ⟨mid, hfold, rfl⟩ := Option.map_eq_some_iff.mp h
        have hmid : Collects t (name :: visited, out) mid :=
          collects_foldlM (fun extended hext _ _ => ih (hclosed name hname extended hext)) hfold
        have hmark : name ∈ mid.1 := hmid.1 List.mem_cons_self
        refine ⟨fun x hx => hmid.1 (List.mem_cons_of_mem name hx), fun scope => ?_⟩
        rw [mem_foldl_pushScope, hmid.2]
        constructor
        · rintro ((hin | ⟨role, hrole, hnot, hscope⟩) | hscope)
          · exact Or.inl hin
          · exact Or.inr ⟨role, hrole, fun hin => hnot (List.mem_cons_of_mem name hin), hscope⟩
          · exact Or.inr ⟨name, hmark, hseen, hscope⟩
        · rintro (hin | ⟨role, hrole, hnot, hscope⟩)
          · exact Or.inl (Or.inl hin)
          · by_cases heq : role = name
            · exact Or.inr (heq ▸ hscope)
            · have hnew : role ∉ name :: visited := by
                rw [List.mem_cons, not_or]
                exact ⟨heq, hnot⟩
              exact Or.inl (Or.inr ⟨role, hrole, hnew, hscope⟩)

/-- Expansion ends, with what is granted by the roles of the table. -/
theorem expand_granted (hclosed : Closed t) (names : List JsString) :
    ∃ out, expand t names = some out ∧
      ∀ scope, scope ∈ out ↔ Granted t.own (names.filter t.hasOwn) scope := by
  have hown : ∀ name ∈ names.filter t.hasOwn, t.hasOwn name = true :=
    fun name hname => List.of_mem_filter hname
  rw [expand]
  generalize names.filter t.hasOwn = starts at hown ⊢
  have hvisit : (starts.foldlM (fun state name => expandOne t (t.own.length + 1) name state)
      ([], [])).map Prod.fst = visitAll (extendsOf t.own) (t.own.length + 1) starts :=
    foldlM_fst (fun name hname state => expandOne_visit hclosed (hown name hname)) ([], [])
  obtain ⟨seen, hseen⟩ := @visitAll_total _ _ (extendsOf t.own) (t.own.length + 1) starts
    (t.own.map Prod.fst) (fun name hname extended hext =>
      hasOwn_iff.mp (hclosed name (hasOwn_iff.mpr hname) extended hext))
    (fun name hname => hasOwn_iff.mp (hown name hname)) (by rw [List.length_map]; omega)
  rw [hseen] at hvisit
  obtain ⟨state, hstate, rfl⟩ := Option.map_eq_some_iff.mp hvisit
  have hcollects : Collects t ([], []) state :=
    collects_foldlM (fun name hname _ _ => expandOne_collects hclosed (hown name hname)) hstate
  refine ⟨state.2, by rw [hstate]; rfl, fun scope => ?_⟩
  rw [hcollects.2]
  constructor
  · rintro (hin | ⟨role, hrole, -, hscope⟩)
    · cases hin
    · obtain ⟨name, hname, hreach⟩ := (mem_visitAll hseen).mp hrole
      exact ⟨name, hname, role, hreach, hscope⟩
  · intro ⟨name, hname, role, hreach, hscope⟩
    exact Or.inr ⟨role, (mem_visitAll hseen).mpr ⟨name, hname, hreach⟩, List.not_mem_nil, hscope⟩

/-! ## The role map -/

theorem hasOwn_ne_proto (hown : t.own = ownRoles roles) (h : t.hasOwn name = true) :
    name ≠ proto := by
  rintro rfl
  rw [Table.hasOwn, hown, lookup_proto] at h
  cases h

theorem extendsOf_own (h : name ≠ proto) :
    extendsOf (ownRoles roles) name = extendsOf roles name := by
  rw [extendsOf, lookup_ownRoles h, extendsOf]

theorem permissionsOf_own (h : name ≠ proto) :
    permissionsOf (ownRoles roles) name = permissionsOf roles name := by
  rw [permissionsOf, lookup_ownRoles h, permissionsOf]

theorem closed_of_ok (h : validateRoles roles = .ok t) : Closed t := fun name hname =>
  (validateRoles_ok h).2 name (hasOwn_iff.mp hname)

/-- From a role of the table, the same is reached in the role map. -/
theorem reaches_own (h : validateRoles roles = .ok t) {role : JsString}
    (hname : t.hasOwn name = true) :
    (Reaches (extendsOf t.own) name role ↔ Reaches (extendsOf roles) name role) ∧
      (Reaches (extendsOf roles) name role → t.hasOwn role = true) := by
  have hown := (validateRoles_ok h).1
  have hedge : ∀ name, t.hasOwn name = true → extendsOf t.own name = extendsOf roles name :=
    fun name hname => by rw [hown, extendsOf_own (hasOwn_ne_proto hown hname)]
  have hclosed := closed_of_ok h
  have hback := fun hreach : Reaches (extendsOf roles) name role =>
    hreach.congr
      (fun name hname extended hext => hclosed name hname extended (by rwa [hedge name hname]))
      (fun name hname => (hedge name hname).symm) hname
  exact ⟨⟨fun hreach => (hreach.congr hclosed hedge hname).1, fun hreach => (hback hreach).1⟩,
    fun hreach => (hback hreach).2⟩

/-- Names that are no role of the map grant nothing. -/
theorem granted_of_lookup (hscope : Granted roles names scope) :
    ∃ name ∈ names, (roles.lookup name).isSome = true ∧ Granted roles [name] scope := by
  obtain ⟨name, hname, role, hreach, hperm⟩ := hscope
  refine ⟨name, hname, ?_, name, List.mem_singleton_self name, role, hreach, hperm⟩
  by_contra hnone
  rw [Bool.not_eq_true, Option.isSome_eq_false_iff, Option.isNone_iff_eq_none] at hnone
  rcases Relation.ReflTransGen.cases_head hreach with rfl | ⟨next, hnext, -⟩
  · rw [permissionsOf, hnone] at hperm
    cases hperm
  · rw [Edge, extendsOf, hnone] at hnext
    cases hnext

/-- What an accepted map expands to: what its roles grant, the one named `__proto__` apart. -/
theorem expand_ok (h : validateRoles roles = .ok t) (names : List JsString) :
    ∃ out, expand t names = some out ∧
      ∀ scope, scope ∈ out ↔ Granted roles (names.filter (· ≠ proto)) scope := by
  have hown := (validateRoles_ok h).1
  obtain ⟨out, hout, hmem⟩ := expand_granted (closed_of_ok h) names
  refine ⟨out, hout, fun scope => ?_⟩
  rw [hmem]
  constructor
  · intro ⟨name, hname, role, hreach, hscope⟩
    obtain ⟨hin, hhas⟩ := List.mem_filter.mp hname
    have hreach' := (reaches_own h hhas).1.mp hreach
    have hrole := (reaches_own h hhas).2 hreach'
    refine ⟨name, List.mem_filter.mpr ⟨hin, ?_⟩, role, hreach', ?_⟩
    · exact decide_eq_true (hasOwn_ne_proto hown hhas)
    · rwa [hown, permissionsOf_own (hasOwn_ne_proto hown hrole)] at hscope
  · intro hgranted
    obtain ⟨name, hname, hsome, name', hname', role, hreach, hscope⟩ := granted_of_lookup hgranted
    obtain rfl := List.mem_singleton.mp hname'
    obtain ⟨hin, hne⟩ := List.mem_filter.mp hname
    have hne : name' ≠ proto := of_decide_eq_true hne
    have hhas : t.hasOwn name' = true := by rwa [Table.hasOwn, hown, lookup_ownRoles hne]
    have hrole := (reaches_own h hhas).2 hreach
    refine ⟨name', List.mem_filter.mpr ⟨hin, hhas⟩, role, (reaches_own h hhas).1.mpr hreach, ?_⟩
    rwa [hown, permissionsOf_own (hasOwn_ne_proto hown hrole)]

/-- Expansion gives, for all names, exactly what the role map grants. -/
def Expands (roles : Roles) (t : Table) : Prop :=
  ∀ names, ∃ out, expand t names = some out ∧ ∀ scope, scope ∈ out ↔ Granted roles names scope

theorem expands_iff (h : validateRoles roles = .ok t) :
    Expands roles t ↔ ∀ scope, ¬ Granted roles [proto] scope := by
  constructor
  · intro hexpands scope hgranted
    obtain ⟨out, hout, hmem⟩ := hexpands [proto]
    obtain ⟨out', hout', hmem'⟩ := expand_ok h [proto]
    rw [hout] at hout'
    cases hout'
    obtain ⟨name, hname, -⟩ := (hmem' scope).mp ((hmem scope).mpr hgranted)
    simp at hname
  · intro hnone names
    obtain ⟨out, hout, hmem⟩ := expand_ok h names
    refine ⟨out, hout, fun scope => ?_⟩
    rw [hmem]
    constructor
    · intro ⟨name, hname, hrest⟩
      exact ⟨name, List.mem_of_mem_filter hname, hrest⟩
    · intro ⟨name, hname, hrest⟩
      have hne : name ≠ proto := by
        rintro rfl
        exact hnone scope ⟨proto, List.mem_singleton_self proto, hrest⟩
      exact ⟨name, List.mem_filter.mpr ⟨hname, decide_eq_true hne⟩, hrest⟩

/-- The second actor holds what the first does, and more roles. -/
def Promoted (actor actor' : Actor) : Prop :=
  actor'.scopes = actor.scopes ∧ ∀ held, actor.roles = some held →
    ∃ held', actor'.roles = some held' ∧ held ⊆ held'

/-- A check that was granted is granted with more roles, edges and permissions. -/
theorem check_mono (h : validateRoles roles = .ok t) (h' : validateRoles roles' = .ok t')
    (hroles : Extended roles roles') {actor actor' : Actor} (hactor : Promoted actor actor')
    (hcheck : check t actor scope = some true) : check t' actor' scope = some true := by
  obtain ⟨scopes, hscopes, hany⟩ := Option.map_eq_some_iff.mp hcheck
  obtain ⟨hsame, hheld⟩ := hactor
  suffices hmore : ∃ scopes', actorScopes t' actor' = some scopes' ∧ scopes ⊆ scopes' by
    obtain ⟨scopes', hscopes', hsub⟩ := hmore
    rw [check, hscopes', Option.map_some, Option.some.injEq]
    obtain ⟨held, hin, hmatch⟩ := List.any_eq_true.mp hany
    exact List.any_eq_true.mpr ⟨held, hsub hin, hmatch⟩
  rw [actorScopes] at hscopes ⊢
  rw [hsame]
  cases hfield : actor.scopes with
  | some held =>
      rw [hfield] at hscopes
      exact ⟨scopes, hscopes, fun _ hx => hx⟩
  | none =>
      rw [hfield] at hscopes
      cases hnames : actor.roles with
      | none =>
          rw [hnames] at hscopes
          cases hscopes
          cases actor'.roles with
          | none => exact ⟨[], rfl, fun _ hx => hx⟩
          | some held' =>
              obtain ⟨out, hout, -⟩ := expand_ok h' held'
              exact ⟨out, hout, List.nil_subset out⟩
      | some held =>
          rw [hnames] at hscopes
          obtain ⟨held', hheld', hsub⟩ := hheld held hnames
          rw [hheld']
          obtain ⟨out, hout, hmem⟩ := expand_ok h held
          obtain ⟨out', hout', hmem'⟩ := expand_ok h' held'
          have hscopes : expand t held = some scopes := hscopes
          rw [hout] at hscopes
          cases hscopes
          refine ⟨out', hout', fun scope hscope => (hmem' scope).mpr ?_⟩
          refine granted_mono hroles (fun name hname => ?_) ((hmem scope).mp hscope)
          obtain ⟨hin, hne⟩ := List.mem_filter.mp hname
          exact List.mem_filter.mpr ⟨hsub hin, hne⟩

/-! ## The laws -/

theorem matchScope_iff {granted required : JsString} : matchScope granted required = true ↔
    granted ≠ [] ∧ required ≠ [] ∧
      matchParts (granted.splitOn colon) (required.splitOn colon) = true := by
  rw [matchScope]
  split
  · next hempty =>
      constructor
      · intro h
        cases h
      · intro ⟨hgranted, hrequired, _⟩
        exact absurd hempty (not_or.mpr ⟨hgranted, hrequired⟩)
  · next hne =>
      rw [not_or] at hne
      exact ⟨fun h => ⟨hne.1, hne.2, h⟩, fun h => h.2.2⟩

/-- Expansion of an accepted map ends, and gives exactly what the map grants if no role named
`__proto__` grants anything; more roles, edges and permissions never revoke a scope; a pattern
covers itself, and what a pattern that it covers does, but where it ends in two wildcards over
one, and the scope has no segment there. -/
theorem permissions_laws (roles : Roles) (p q r : JsString) :
    (∀ t, validateRoles roles = .ok t → (∀ names, (expand t names).isSome = true) ∧
      (Expands roles t ↔ ∀ scope, ¬ Granted roles [proto] scope)) ∧
    (∀ t roles' t' actor actor' scope, validateRoles roles = .ok t →
      validateRoles roles' = .ok t' → Extended roles roles' → Promoted actor actor' →
      check t actor scope = some true → check t' actor' scope = some true) ∧
    (validScopePattern p = true → matchScope p p = true) ∧
    (matchScope p q = true → matchScope q r = true →
      (matchScope p r = true ↔
        ¬ TwoStarsOver (p.splitOn colon) (q.splitOn colon) (r.splitOn colon))) := by
  refine ⟨fun t h => ⟨fun names => ?_, expands_iff h⟩,
    fun _ _ _ _ _ _ h h' hroles hactor hcheck => check_mono h h' hroles hactor hcheck,
    fun hp => ?_, fun hpq hqr => ?_⟩
  · obtain ⟨out, hout, -⟩ := expand_ok h names
    rw [hout]
    rfl
  · have hne : p ≠ [] := by
      rintro rfl
      cases hp
    exact matchScope_iff.mpr ⟨hne, hne, matchParts_refl _⟩
  · obtain ⟨hp, -, hpq⟩ := matchScope_iff.mp hpq
    obtain ⟨-, hr, hqr⟩ := matchScope_iff.mp hqr
    rw [← matchParts_trans hpq hqr, matchScope_iff]
    exact ⟨fun h => h.2.2, fun h => ⟨hp, hr, h⟩⟩

/-- The table of the module's own example. -/
def exampleRoles : Roles :=
  [(units "admin", ⟨[units "editor"], [units "users:delete"]⟩),
    (units "editor", ⟨[], [units "users:read", units "posts:*"]⟩)]

theorem permissions_laws_example : ∃ t, validateRoles exampleRoles = .ok t ∧
    ∃ out, expand t [units "admin"] = some out ∧
      ∀ scope, scope ∈ out ↔ Granted exampleRoles [units "admin"] scope := by
  have hok : (validateRoles exampleRoles).toOption.isSome = true := by decide +kernel
  obtain ⟨t, ht⟩ := Option.isSome_iff_exists.mp hok
  have ht := Checked.ok_of_toOption ht
  have hnone : ∀ scope, ¬ Granted exampleRoles [proto] scope := by
    intro scope hscope
    obtain ⟨name, hname, hsome, -⟩ := granted_of_lookup hscope
    obtain rfl := List.mem_singleton.mp hname
    revert hsome
    decide
  exact ⟨t, ht, (((permissions_laws exampleRoles [] [] []).1 t ht).2.mpr hnone) [units "admin"]⟩

/-- Neither is every wildcard pattern that covers another one at least as wide, nor does every
accepted role grant its permissions. -/
theorem laws_broken :
    (matchScope (units "a:*:*") (units "a:*") = true ∧ matchScope (units "a:*") (units "a") = true ∧
      matchScope (units "a:*:*") (units "a") = false) ∧
    ∃ roles t, validateRoles roles = .ok t ∧ Granted roles [proto] (units "users:read") ∧
      expand t [proto] = some [] := by
  refine ⟨by decide, [(proto, ⟨[], [units "users:read"]⟩)],
    ⟨[], some ⟨[], [units "users:read"]⟩⟩, rfl, ?_, by decide⟩
  exact ⟨proto, List.mem_singleton_self proto, proto, .refl, by decide⟩

end Blamejs.Permissions
