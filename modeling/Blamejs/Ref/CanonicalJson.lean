import Blamejs.Js.JsonText

/-!
# Canonical JSON (`lib/canonical-json.js`)

`emit` is the one walk behind `stringify` and `stringifyJcs`. A `Value` is a
JavaScript value as that walk sorts them apart: the primitives, the buffers and
dates it has a text for, the collections it refuses by name, arrays and
everything else with own enumerable properties.

An array or object carries the identity the walk's `WeakSet` sees. The set is
never emptied on the way out, so a value that is shared is refused just as one
that is circular: what is accepted is a tree.
-/

namespace Blamejs.CanonicalJson

open Blamejs.Js

inductive Value where
  | null
  | undefined
  | bool (b : Bool)
  | num (x : Double)
  | str (s : JsString)
  | bigint (z : Int)
  | symbol
  | function
  /-- A `Number`, `String`, `Boolean`, `BigInt` or `Symbol` object. -/
  | boxed (v : Value)
  | buffer (bytes : List UInt8)
  | uint8Array (bytes : List UInt8)
  /-- A `Date`, with its `toISOString()` when it has a time value. -/
  | date (iso : Option JsString)
  /-- An object `_noJsonFormName` has a name for. -/
  | noForm (name : JsString)
  | arr (ref : Nat) (items : List Value)
  /-- The own enumerable properties, in the order `Object.keys` lists them. -/
  | obj (ref : Nat) (entries : List (JsString × Value))

/-- `bufferAs`. -/
inductive BufferAs where
  | hex
  | reject
  | rejectJcs
deriving DecidableEq, Repr

/-- `MAX_DEPTH`. -/
def maxDepth : Nat := 512

/-- A walk that knows which arrays and objects it has entered. -/
abbrev Walk := StateT (List Nat) (Except JsString)

def refuse {α : Type} (message : JsString) : Walk α := fun _ => .error message

/-- The order the keys are sorted in. -/
def keyLE {α : Type} (p q : JsString × α) : Prop := unitLE p.1 q.1

instance {α : Type} : DecidableRel (keyLE (α := α)) := fun p q =>
  inferInstanceAs (Decidable (unitLE p.1 q.1))

instance {α : Type} : Std.Total (keyLE (α := α)) :=
  ⟨fun p q => Std.Total.total (r := unitLE) p.1 q.1⟩

instance {α : Type} : IsTrans (JsString × α) keyLE :=
  ⟨fun p q r => IsTrans.trans (r := unitLE) p.1 q.1 r.1⟩

/-- Properties in sorted key order. -/
def sortKeys {α : Type} (entries : List (JsString × α)) : List (JsString × α) :=
  entries.insertionSort keyLE

/-- `buffer.toString("hex")`. -/
def hexText (bytes : List UInt8) : JsString :=
  bytes.flatMap fun b => [hexDigit (b.toNat / 16), hexDigit (b.toNat % 16)]

/-- `parts.join(",")`. -/
def joinComma (parts : List JsString) : JsString := [unit ','].intercalate parts

/-- The circularity and depth checks on entering an array or object. -/
def enter (ref depth : Nat) : Walk Unit := fun seen =>
  if ref ∈ seen then .error (units "canonical-json: circular reference detected")
  else if maxDepth < depth then
    .error (units "canonical-json: maximum nesting depth exceeded (" ++ natText maxDepth ++
      units ")")
  else .ok ((), ref :: seen)

theorem walk_bind {α β : Type} {m : Walk α} {f : α → Walk β} {seen seen' : List Nat} {a : α}
    (h : m seen = .ok (a, seen')) : (m >>= f) seen = f a seen' := by
  change (m seen).bind (fun p => f p.1 p.2) = _
  rw [h]
  rfl

theorem enter_fresh {ref depth : Nat} {seen : List Nat} (href : ref ∉ seen)
    (hdepth : depth ≤ maxDepth) : enter ref depth seen = .ok ((), ref :: seen) := by
  rw [enter, if_neg href, if_neg (Nat.not_lt.mpr hdepth)]

mutual

/-- `_emit(value, seen, bufferAs, depth)`. -/
def emit (bufferAs : BufferAs) (depth : Nat) : Value → Walk JsString
  | .null | .undefined => pure (units "null")
  | .boxed v => emit bufferAs depth v
  | .num x => pure (jsonNumber x)
  | .str s => pure (quote s)
  | .bool b => pure (jsonBool b)
  | .bigint z =>
      if bufferAs = .rejectJcs then
        refuse <| units ("canonical-json: BigInt is not serialisable under " ++
          "RFC 8785 (JCS); convert to a string or number before passing in")
      else pure (quote (intText z))
  | .symbol =>
      refuse <| units ("canonical-json: symbol value is not " ++
        "serialisable; convert to a string before passing in")
  | .function =>
      refuse <| units ("canonical-json: function value is not " ++
        "serialisable; convert to a string before passing in")
  | .buffer bytes =>
      if bufferAs = .reject ∨ bufferAs = .rejectJcs then
        refuse <| units ("canonical-json: Buffer is not serialisable in this " ++
          "context (bufferAs=reject); convert to a string or hex first")
      else pure (quote (hexText bytes))
  | .uint8Array bytes =>
      if bufferAs = .reject ∨ bufferAs = .rejectJcs then
        refuse <| units ("canonical-json: Uint8Array is not serialisable in " ++
          "this context (bufferAs=reject); convert to a string or hex first")
      else pure (quote (hexText bytes))
  | .date iso =>
      if bufferAs = .rejectJcs then
        refuse <| units ("canonical-json: Date is not serialisable under " ++
          "RFC 8785 (JCS); convert to ISO-8601 string before passing in")
      else match iso with
        | some text => pure (quote text)
        | none => refuse (units "Invalid time value")
  | .noForm name =>
      refuse (units "canonical-json: " ++ name ++ units (" has no JSON form; it would be " ++
        "written as \x7b\x7d and a signature would commit to bytes carrying none of it. " ++
        "Convert it to a plain primitive / array / object first"))
  | .arr ref items => do
      enter ref depth
      let parts ← emitItems bufferAs (depth + 1) items
      pure (unit '[' :: (joinComma parts ++ [unit ']']))
  | .obj ref entries => do
      enter ref depth
      let parts ← (sortKeys (emitEntries bufferAs (depth + 1) entries)).mapM fun p => do
        let text ← p.2
        pure (quote p.1 ++ unit ':' :: text)
      pure (unit '\x7b' :: (joinComma parts ++ [unit '\x7d']))

def emitItems (bufferAs : BufferAs) (depth : Nat) : List Value → Walk (List JsString)
  | [] => pure []
  | v :: vs => do
      let text ← emit bufferAs depth v
      let texts ← emitItems bufferAs depth vs
      pure (text :: texts)

/-- What emitting each property would do; the caller runs these in sorted
order. -/
def emitEntries (bufferAs : BufferAs) (depth : Nat) :
    List (JsString × Value) → List (JsString × Walk JsString)
  | [] => []
  | (k, v) :: es => (k, emit bufferAs depth v) :: emitEntries bufferAs depth es

end

/-- `_emit` from the outside, where nothing has been seen. -/
def emitTop (bufferAs : BufferAs) (v : Value) : Except JsString JsString :=
  (emit bufferAs 0 v).run' []

/-- `stringify(value, { bufferAs })`; `none` is the default. -/
def stringify (v : Value) (bufferAs : Option JsString) : Except JsString JsString :=
  let bufferAs := bufferAs.getD []
  if bufferAs = [] ∨ bufferAs = units "hex" then emitTop .hex v
  else if bufferAs = units "reject" then emitTop .reject v
  else if bufferAs = units "reject-jcs" then emitTop .rejectJcs v
  else .error (units "canonical-json: bufferAs must be 'hex' / 'reject' / 'reject-jcs'; got " ++
    quote bufferAs)

/-- `stringifyJcs(value)`. -/
def stringifyJcs (v : Value) : Except JsString JsString := emitTop .rejectJcs v

end Blamejs.CanonicalJson
