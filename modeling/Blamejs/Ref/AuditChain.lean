import Blamejs.Ref.CanonicalJson
import Blamejs.Js.ToNumber

/-!
# The audit chain (`lib/audit-chain.js`)

Row hashing, the forward walk and `verifyChain` on a single-chain table. A row
is what the database driver hands back: own properties in column order, each
name once. SHA3-512 is the only thing taken on trust; the walk calls it through
`sha3`.
-/

namespace Blamejs.AuditChain

open Blamejs.Js Blamejs.CanonicalJson

/-- A row object. -/
structure Row where
  entries : List (JsString × Value)
  nodup : (entries.map Prod.fst).Nodup

/-- `row[key]`. -/
def Row.prop (row : Row) (key : JsString) : Value := (row.entries.lookup key).getD .undefined

/-- `SHA3_512_HEX_LEN`. -/
def sha3HexLen : Nat := 128

/-- `ZERO_HASH`. -/
def zeroHash : JsString := List.replicate sha3HexLen (unit '0')

/-- A digit of either case. -/
def hexNibble (u : UInt16) : Option Nat :=
  let n := u.toNat
  if 48 ≤ n ∧ n ≤ 57 then some (n - 48)
  else if 97 ≤ n ∧ n ≤ 102 then some (n - 87)
  else if 65 ≤ n ∧ n ≤ 70 then some (n - 55)
  else none

/-- `Buffer.from(s, "hex")`: stops at the first pair that is not hex. -/
def hexBytes : JsString → List UInt8
  | a :: b :: rest =>
      match hexNibble a, hexNibble b with
      | some m, some n => UInt8.ofNat (16 * m + n) :: hexBytes rest
      | _, _ => []
  | _ => []

/-- `safeBuffer.isHex(s, expectedLength)`. -/
def isHex (s : JsString) (expectedLength : Nat) : Bool :=
  s.length == expectedLength && !s.isEmpty && s.all fun u => (hexNibble u).isSome

/-- The identities of the arrays and objects inside a value, bounded. -/
def maxRef : List Nat → Nat := List.foldr max 0

mutual

def refs : Value → List Nat
  | .arr ref items => ref :: refsItems items
  | .obj ref entries => ref :: refsEntries entries
  | .boxed v => refs v
  | _ => []

def refsItems : List Value → List Nat
  | [] => []
  | v :: vs => refs v ++ refsItems vs

def refsEntries : List (JsString × Value) → List Nat
  | [] => []
  | (_, v) :: es => refs v ++ refsEntries es

end

/-- A plain object made by assigning the properties in turn. Assigning to
`__proto__` sets no property. -/
def assigned (entries : List (JsString × Value)) : Value :=
  .obj (maxRef (refsEntries entries) + 1) (entries.filter (·.1 ≠ units "__proto__"))

/-- `canonicalize(row, excludeKeys)`, on the row's own properties. -/
def canonicalize (fields : List (JsString × Value)) (excludeKeys : List JsString) :
    Except JsString JsString :=
  stringify (assigned (sortKeys (fields.filter (·.1 ∉ excludeKeys)))) none

/-- `sha3Hash(data)`. -/
def sha3Hash (sha3 : List UInt8 → List UInt8) (data : List UInt8) : JsString :=
  hexText (sha3 data)

/-- The bytes a row hash is taken of. -/
def preimage (prevHash canonical : JsString) (nonce : List UInt8) : List UInt8 :=
  hexBytes prevHash ++ (utf8 canonical ++ nonce)

/-- `computeRowHash(prevHash, rowFields, nonce)`. -/
def computeRowHash (sha3 : List UInt8 → List UInt8) (prevHash : JsString)
    (rowFields : List (JsString × Value)) (nonce : List UInt8) : Except JsString JsString :=
  if prevHash.length ≠ sha3HexLen then
    .error (units "prevHash must be a " ++ natText sha3HexLen ++
      units "-char hex string (SHA3-512); got length " ++
      (if prevHash = [] then [] else natText prevHash.length))
  else if nonce = [] then .error (units "nonce must be a non-empty Buffer")
  else (canonicalize rowFields []).map fun canonical =>
    sha3Hash sha3 (preimage prevHash canonical nonce)

/-- The columns that are no logical field. -/
def chainColumns : List JsString :=
  [units "prevHash", units "rowHash", units "nonce", units "fencingToken"]

/-- `Object.assign({}, row)` less the chain columns: the fields a walk hashes. -/
def walkFields (row : Row) : List (JsString × Value) :=
  row.entries.filter fun p => p.1 ≠ units "__proto__" ∧ p.1 ∉ chainColumns

/-- `Buffer.isBuffer(v) ? v : Buffer.from(v)`, on what a driver returns for a
byte column. -/
def nonceBuffer : Value → Except JsString (List UInt8)
  | .buffer bytes | .uint8Array bytes => .ok bytes
  | .str s => .ok (utf8 s)
  | _ => .error (units "The first argument must be of type string or an instance of Buffer, " ++
      units "ArrayBuffer, or Array or an Array-like Object.")

inductive WalkResult where
  | ok (table : JsString) (rowsVerified : Nat) (lastHash : JsString)
  | broken (table : JsString) (breakAt : Nat) (breakRowId : Value) (reason : JsString)
      (expected actual : Value)
  /-- Refused before any row was walked. -/
  | refused (table reason : JsString)

def WalkResult.isOk : WalkResult → Bool
  | .ok .. => true
  | _ => false

/-- `row[key]`, when it is a string. -/
def Row.text? (row : Row) (key : String) : Option JsString :=
  match row.prop (units key) with
  | .str s => some s
  | _ => none

/-- The loop of `_walkRows` from row `i` on; `maxRows` 0 is no limit. -/
def walkFrom (sha3 : List UInt8 → List UInt8) (tableName : JsString) (maxRows : Nat) (i : Nat)
    (prevHash : JsString) : List Row → Except JsString WalkResult
  | [] => .ok (.ok tableName i prevHash)
  | row :: rest =>
      if row.text? "prevHash" ≠ some prevHash then
        .ok (.broken tableName i (row.prop (units "_id")) (units "prevHash mismatch")
          (.str prevHash) (row.prop (units "prevHash")))
      else do
        let nonceBuf ← nonceBuffer (row.prop (units "nonce"))
        let computed ← computeRowHash sha3 prevHash (walkFields row) nonceBuf
        if row.text? "rowHash" ≠ some computed then
          .ok (.broken tableName i (row.prop (units "_id")) (units "rowHash mismatch")
            (.str computed) (row.prop (units "rowHash")))
        else if maxRows ≠ 0 ∧ maxRows ≤ i + 1 then .ok (.ok tableName (i + 1) computed)
        else walkFrom sha3 tableName maxRows (i + 1) computed rest

/-- `_walkRows(rows, tableName, startPrevHash, opts)`. -/
def walkRows (sha3 : List UInt8 → List UInt8) (rows : List Row) (tableName : JsString)
    (startPrevHash : JsString) (maxRows : Nat) : Except JsString WalkResult :=
  walkFrom sha3 tableName maxRows 0 startPrevHash rows

/-! ## `verifyChain` -/

/-- The entries of `COLUMN_TYPES` that `coerceRow` acts on. -/
inductive ColumnType where
  | int
  | blob
deriving DecidableEq, Repr

def coerceValue : Option ColumnType → Value → Value
  | some .int, .str v =>
      let n := stringToNumber v
      if n.isSafeInteger ∧ numberText n = v then .num n else .str v
  | some .blob, .uint8Array bytes => .buffer bytes
  | _, v => v

/-- `frameworkSchema.coerceRow(row)`. -/
def coerceRow (columnTypes : JsString → Option ColumnType) (row : Row) : Row where
  entries := row.entries.map fun p => (p.1, coerceValue (columnTypes p.1) p.2)
  nodup := by
    rw [List.map_map]
    exact row.nodup

/-- `Number(v)`. What an object converts to is the object's own business. -/
def toNumber (objectToNumber : Value → Double) : Value → Double
  | .num x => x
  | .str s => stringToNumber s
  | .bigint z => Double.ofInt z
  | .bool b => Double.ofInt (if b then 1 else 0)
  | .null => Double.zero false
  | .undefined => Double.nan
  | v => objectToNumber v

/-- What an accepted purge anchor contributes to the walk. -/
structure Boundary where
  hash : JsString
  counter : Double

/-- `opts.from` and `opts.to`: absent, or a number that is finite. -/
def finiteBound (objectToNumber : Value → Double) : Value → Option Double
  | .null | .undefined => none
  | v => if (toNumber objectToNumber v).isFinite then some (toNumber objectToNumber v) else none

/-- The scan for the row just below `from`. -/
def findPred (counter : Row → Double) (fromCounter skip : Double) : Option Row → List Row →
    Option Row
  | pred, [] => pred
  | pred, row :: rest =>
      if (counter row).lt fromCounter ∧ skip.lt (counter row) then
        findPred counter fromCounter skip (some row) rest
      else if fromCounter.le (counter row) then pred
      else findPred counter fromCounter skip pred rest

/-- `Number(row.monotonicCounter)`. -/
def counterNumber (objectToNumber : Value → Double) (row : Row) : Double :=
  toNumber objectToNumber (row.prop (units "monotonicCounter"))

/-- The rows above `skip` and not above `toCounter`. -/
def selectRange (counter : Row → Double) (skip : Double) (toCounter : Option Double)
    (rows : List Row) : List Row :=
  if (Double.zero false).lt skip ∨ toCounter.isSome then
    rows.filter fun r => !(counter r).le skip && !toCounter.any fun t => t.lt (counter r)
  else rows

/-- The `from` and `to` options of `verifyChain`. -/
structure Range where
  from_ : Value
  to_ : Value

/-- `verifyChain` without `chainKey`, once the purge anchor has been decided:
`rows` is the answer to the ordered query, `anchor` the boundary an accepted
anchor supplies. -/
def verifyChain (sha3 : List UInt8 → List UInt8) (columnTypes : JsString → Option ColumnType)
    (objectToNumber : Value → Double) (rows : List Row) (tableName : JsString)
    (anchor : Option Boundary) (opts : Range) (maxRows : Nat) : Except JsString WalkResult :=
  let fromCounter := finiteBound objectToNumber opts.from_
  let toCounter := finiteBound objectToNumber opts.to_
  let rows := rows.map (coerceRow columnTypes)
  let counter := counterNumber objectToNumber
  let skip := (anchor.map (·.counter)).getD (Double.zero false)
  let prevHash := (anchor.map (·.hash)).getD zeroHash
  let pred := match fromCounter with
    | some f => if (skip.add (Double.ofInt 1)).lt f then findPred counter f skip none rows else none
    | none => none
  let walk := fun (prevHash : JsString) (skip : Double) =>
    walkRows sha3 (selectRange counter skip toCounter rows) tableName prevHash maxRows
  match pred with
  | some row =>
      match row.text? "rowHash" with
      | some hash =>
          if isHex hash sha3HexLen then walk hash (Double.max skip (counter row))
          else .ok (.refused tableName
            (units "incremental-verify anchor row has a corrupt rowHash"))
      | none => .ok (.refused tableName
          (units "incremental-verify anchor row has a corrupt rowHash"))
  | none => walk prevHash skip

end Blamejs.AuditChain
