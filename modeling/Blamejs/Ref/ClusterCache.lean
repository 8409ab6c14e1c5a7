import Blamejs.Js.Text
import Blamejs.Spec.AtomicEntry

/-!
# The cluster cache (`lib/cache.js`, `_clusterBackend`), one key

The row of one key, changed by single statements. `_updateRow` reads it, runs the
mutator, and deletes, inserts or updates with the text it read as the condition;
a transaction writes the table in one statement at most, so the two statements
of an attempt stand by themselves and the other operations may come between
them. `Pc` says how far a call has come. The table of tags is left out: `update`
only deletes from it, and answers nothing from it.

`Codec` is `safeJson` and the vault. `V` are the values that `safeJson.parse`,
told to read 64 MiB at most, gives back as they were stringified; sealing draws
on randomness, `X`.
-/

namespace Blamejs.ClusterCache

open Blamejs.Js AtomicEntry MemoryCache Run

variable {V D X : Type}

/-- A reading of the clock. -/
abbrev Date := { ms : Int // ms ≤ 8640000000000000 }

def cacheSealPrefix : JsString := units "blamejs:cache.sealed:"

structure Codec (V X : Type) where
  stringify : V → JsString
  parse : JsString → Option V
  vaultSeal : X → JsString → JsString
  vaultUnseal : JsString → Option JsString
  parse_stringify : ∀ v, parse (stringify v) = some v
  unseal_seal : ∀ x json, vaultUnseal (vaultSeal x json) = some json
  plain : ∀ v, ¬ cacheSealPrefix <+: stringify v

/-- The text a value is stored as; `x` is there when it is sealed. -/
def Codec.encode (c : Codec V X) (x : Option X) (value : V) : JsString :=
  match x with
  | some x => cacheSealPrefix ++ c.vaultSeal x (c.stringify value)
  | none => c.stringify value

/-- The value read off a text, unless that throws. -/
def Codec.decode (c : Codec V X) (stored : JsString) : Option V :=
  if cacheSealPrefix <+: stored then
    (c.vaultUnseal (stored.drop cacheSealPrefix.length)).bind c.parse
  else c.parse stored

structure Row where
  valueJson : JsString
  expiresAt : Int
  updatedAt : Int
  deriving DecidableEq, Repr

/-- The arguments of `_updateRow`; `sealed` is `meta.seal === true`. -/
structure Call (V D : Type) extends AtomicEntry.Call V D where
  sealed : Bool

/-- How far a call has come: an attempt is to read the row, or to carry out what
the mutator decided. -/
inductive Pc (V D : Type) where
  | idle
  | reading (call : Call V D) (attempt : Nat)
  | deleting (call : Call V D) (now : Date) (oldRaw : JsString)
  | inserting (call : Call V D) (attempt : Nat) (now : Date) (new : Row) (value : V)
  | updating (call : Call V D) (attempt : Nat) (now : Date) (oldRaw : JsString) (new : Row)
      (value : V)

/-- What an attempt does after it has read: answer, or another statement. -/
inductive Next (V D : Type) where
  | answer (u : Updated V D)
  | goto (pc : Pc V D)

/-- After the mutator; `oldRaw` is null unless the row read was live. -/
def Codec.decided (c : Codec V X) (call : Call V D) (attempt : Nat) (now : Date) (x : X)
    (oldRaw : Option JsString) : Option (Decision V D) → Next V D
  | none => .answer .threw
  | some (.abort data) => .answer (.aborted data)
  | some .delete =>
      match oldRaw with
      | none => .answer .deleted
      | some raw => .goto (.deleting call now raw)
  | some (.commit value ttlMs at_) =>
      let effExpires := effExpires now.val ttlMs at_ call.expiresAt
      let new : Row :=
        ⟨c.encode (if call.sealed then some x else none) value, storedExpires effExpires, now.val⟩
      match oldRaw with
      | none => .goto (.inserting call attempt now new value)
      | some raw => .goto (.updating call attempt now raw new value)

/-- An attempt of `_updateRow` up to its second statement. -/
def Codec.read (c : Codec V X) (call : Call V D) (attempt : Nat) (now : Date) (x : X)
    (row : Option Row) : Next V D :=
  match row.filter fun r => now.val < r.expiresAt with
  | none => c.decided call attempt now x none (call.mutatorFn none)
  | some r =>
      match c.decode r.valueJson with
      | none => .answer .threw
      | some current =>
        c.decided call attempt now x (some r.valueJson) (call.mutatorFn (some current))

/-- After a conflict: the next attempt, or `none` when there is none left. -/
def retry (call : Call V D) (attempt : Nat) : Option (Pc V D) :=
  if attempt + 1 < maxRetries then some (.reading call (attempt + 1)) else none

/-! ## The other operations -/

inductive Statement (V X : Type) where
  | set (value : V) (expiresAt : Millis) (x : Option X) (now : Date)
  | del
  | sweep (now : Date)
  | slide (now : Date) (defaultTtlMs : Int)

/-- The upsert of `set`; the DELETE of `del`, `clear` and `invalidateTag`; that of
`_sweep`, which `get` runs too when it finds the row expired; and the UPDATE with
which `get` slides the expiry. -/
def Statement.run (c : Codec V X) (row : Option Row) : Statement V X → Option Row
  | .set value expiresAt x now => some ⟨c.encode x value, storedExpires expiresAt, now.val⟩
  | .del => none
  | .sweep now => row.filter fun r => now.val < r.expiresAt
  | .slide now defaultTtlMs =>
      row.map fun r =>
        if now.val < r.expiresAt then
          { r with expiresAt := now.val + defaultTtlMs, updatedAt := now.val }
        else r

/-! ## Runs -/

structure St (V D : Type) where
  row : Option Row
  calls : Nat → Pc V D
  answers : List (Nat × Answer V D)

def St.init : St V D := ⟨none, fun _ => .idle, []⟩

def St.goto (s : St V D) (w : Nat) (pc : Pc V D) : St V D :=
  { s with calls := Function.update s.calls w pc }

def St.answer (s : St V D) (w : Nat) (a : Answer V D) : St V D :=
  { s with calls := Function.update s.calls w .idle, answers := s.answers ++ [(w, a)] }

def St.next (s : St V D) (w : Nat) : Next V D → St V D
  | .answer u => s.answer w (.settled u)
  | .goto pc => s.goto w pc

/-- A statement that matched no row. -/
def St.conflict (s : St V D) (w : Nat) (call : Call V D) (attempt : Nat) : St V D :=
  match retry call attempt with
  | some pc => s.goto w pc
  | none => s.answer w .updateContention

/-- The second statement of an attempt and its answer. -/
def St.write (s : St V D) (w : Nat) : Pc V D → Option (St V D)
  | .deleting _ _ oldRaw =>
      some (St.answer { s with row := s.row.filter fun r => r.valueJson ≠ oldRaw } w
        (.settled .deleted))
  | .inserting call attempt _ new value =>
      match s.row with
      | some _ => some (s.conflict w call attempt)
      | none => some (St.answer { s with row := some new } w (.settled (.updated value)))
  | .updating call attempt _ oldRaw new value =>
      if s.row.any fun r => r.valueJson = oldRaw then
        some (St.answer { s with row := some new } w (.settled (.updated value)))
      else some (s.conflict w call attempt)
  | _ => none

/-- `w` numbers the calls of `update`; `x` is what sealing draws. -/
inductive Action (V D X : Type) where
  | begin (w : Nat) (call : Call V D)
  | read (w : Nat) (now : Date) (x : X)
  | write (w : Nat)
  | other (statement : Statement V X)

def step (c : Codec V X) (s : St V D) : Action V D X → Option (St V D)
  | .begin w call =>
      match s.calls w with
      | .idle => some (s.goto w (.reading call 0))
      | _ => none
  | .read w now x =>
      match s.calls w with
      | .reading call attempt => some (s.next w (c.read call attempt now x s.row))
      | _ => none
  | .write w => s.write w (s.calls w)
  | .other statement => some { s with row := statement.run c s.row }

end Blamejs.ClusterCache
