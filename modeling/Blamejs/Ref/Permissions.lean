import Blamejs.Js.Text

/-!
# Roles and scopes (`lib/permissions.js`)

A role map is the list of its own keys with what they name. The table that `_validateRoles`
makes of it is a plain object: what is assigned to `__proto__` becomes its prototype and no
entry of its own, though reading the key gives it back. Recursion has fuel; that of a role
table, one unit a role, is shown to be enough.
-/

namespace Blamejs.Permissions

open Blamejs.Js

/-! ## Scopes -/

def colon : UInt16 := unit ':'

def star : JsString := units "*"

/-- The loop of `match`, over what is left of the segments of both. -/
def matchParts : List JsString → List JsString → Bool
  | [], rParts => rParts.isEmpty
  | g :: gParts, rParts =>
      if g = star then
        if gParts = [] then true
        else match rParts with
          | [] => false
          | _ :: rParts => matchParts gParts rParts
      else match rParts with
        | [] => false
        | r :: rParts => if g ≠ r then false else matchParts gParts rParts

/-- `match`. -/
def matchScope (granted required : JsString) : Bool :=
  if granted = [] ∨ required = [] then false
  else matchParts (granted.splitOn colon) (required.splitOn colon)

def scopeMaxLength : Nat := 256

/-- `[a-z0-9_*-]`. -/
def isScopeUnit (u : UInt16) : Bool :=
  (unit 'a' ≤ u && u ≤ unit 'z') || (unit '0' ≤ u && u ≤ unit '9') || u = unit '_' ||
    u = unit '*' || u = unit '-'

/-- `SCOPE_RE`. -/
def isScopeText (scope : JsString) : Bool :=
  (scope.splitOn colon).all fun part => part ≠ [] && part.all isScopeUnit

/-- `_validateScopePattern` takes a scope. -/
def validScopePattern (scope : JsString) : Bool :=
  scope ≠ [] && scope.length ≤ scopeMaxLength && isScopeText scope

/-! ## Roles -/

structure Spec where
  extends_ : List JsString
  permissions : List JsString
  deriving DecidableEq

/-- A map of own keys. -/
abbrev Roles := List (JsString × Spec)

def proto : JsString := units "__proto__"

inductive Err where
  | badOpt
  | badRole
  | badScope
  | unknownRole
  | cycle
  deriving DecidableEq

/-- `normalized`: its own keys, and its prototype where a role gave it one. -/
structure Table where
  own : Roles
  prototype : Option Spec

/-- `hasOwnProperty`. -/
def Table.hasOwn (t : Table) (name : JsString) : Bool := (t.own.lookup name).isSome

/-- `table[name]`. -/
def Table.get (t : Table) (name : JsString) : Option Spec :=
  (t.own.lookup name).or (if name = proto then t.prototype else none)

/-- `normalized[name] = spec`. -/
def Table.assign (t : Table) (name : JsString) (spec : Spec) : Table :=
  if name = proto then { t with prototype := some spec }
  else { t with own := t.own ++ [(name, spec)] }

/-- `_detectCycle`: none where it returns. -/
def detectCycle (t : Table) : Nat → JsString → List JsString → Option Err
  | 0, _, _ => none
  | fuel + 1, name, stack =>
      if name ∈ stack then some .cycle
      else ((t.get name).map Spec.extends_).getD [] |>.findSome? fun extended =>
        detectCycle t fuel extended (stack ++ [name])

/-- The first loop of `_validateRoles`. -/
def normalizeRoles : Roles → Table → Except Err Table
  | [], t => .ok t
  | (name, spec) :: rest, t =>
      if name = [] then .error .badRole
      else if spec.permissions.any fun scope => !validScopePattern scope then .error .badScope
      else if [] ∈ spec.extends_ then .error .badRole
      else normalizeRoles rest (t.assign name spec)

/-- `_validateRoles`. -/
def validateRoles (roles : Roles) : Except Err Table := do
  if roles = [] then .error .badOpt
  else do
    let t ← normalizeRoles roles ⟨[], none⟩
    if roles.any fun (name, _) => (((t.get name).map Spec.extends_).getD []).any fun extended =>
      !t.hasOwn extended then .error .unknownRole
    else match roles.findSome? fun (name, _) => detectCycle t (roles.length + 2) name [] with
      | some e => .error e
      | none => .ok t

/-- `out.push(scope)` where it is not there yet. -/
def pushScope (out : List JsString) (scope : JsString) : List JsString :=
  if scope ∈ out then out else out ++ [scope]

/-- `_expandOne`: what was visited and the scopes, none where the fuel ran out. -/
def expandOne (t : Table) : Nat → JsString → List JsString × List JsString →
    Option (List JsString × List JsString)
  | 0, _, _ => none
  | fuel + 1, name, (visited, out) =>
      if name ∈ visited then some (visited, out)
      else match t.get name with
        | none => some (name :: visited, out)
        | some spec => do
            let (visited, out) ← spec.extends_.foldlM (fun state extended =>
              expandOne t fuel extended state) (name :: visited, out)
            some (visited, spec.permissions.foldl pushScope out)

/-- `expand`. -/
def expand (t : Table) (roleNames : List JsString) : Option (List JsString) :=
  ((roleNames.filter t.hasOwn).foldlM (fun state name =>
    expandOne t (t.own.length + 1) name state) ([], [])).map Prod.snd

/-- An actor: none where a field is not an array. -/
structure Actor where
  scopes : Option (List JsString)
  roles : Option (List JsString)

/-- `_actorScopes`. -/
def actorScopes (t : Table) (actor : Actor) : Option (List JsString) :=
  match actor.scopes, actor.roles with
  | some scopes, _ => some scopes
  | none, some roles => expand t roles
  | none, none => some []

/-- `check`. -/
def check (t : Table) (actor : Actor) (requiredScope : JsString) : Option Bool :=
  (actorScopes t actor).map fun scopes => scopes.any fun scope => matchScope scope requiredScope

end Blamejs.Permissions
