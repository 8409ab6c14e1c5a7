import Blamejs.Js.Base64
import Blamejs.Js.LossyText
import Blamejs.Lib.Run

/-!
# Cells under a table key (`encryptCell`, `decryptCell`, `migrate` of `lib/break-glass.js`)

Any number of processes share the policies table. A call runs from one database statement
to the next: `_ensureDek` looks into the cache of its process, reads `dekSealed`, and where
there is none generates a key, writes it and caches it. `migrate` encrypts one cell after
another by calls of `encryptCell`; what it pages through is the environment's. The policies
do not change, and the vault of every process opens what another one has sealed, so the
column holds the key itself. A restart ends the calls of a process and empties its cache.
-/

namespace Blamejs.CellKey

open Blamejs.Js

abbrev Bytes := List UInt8

/-- `DEK_BYTES`. -/
def dekBytes : Nat := 32

abbrev Dek := { bytes : Bytes // bytes.length = dekBytes }

/-- What is read of a policy. -/
structure Policy where
  columns : List JsString
  cryptographic : Bool

/-- The characters of an SQL identifier. -/
def isIdentUnit (u : UInt16) : Bool :=
  (0x41 ≤ u.toNat && u.toNat ≤ 0x5A) || (0x61 ≤ u.toNat && u.toNat ≤ 0x7A) ||
    (0x30 ≤ u.toNat && u.toNat ≤ 0x39) || u.toNat == 0x5F

/-- The policies by table; `policy.set` lets only identifiers in. -/
structure Policies where
  get : JsString → Option Policy
  identifiers : ∀ table policy, get table = some policy →
    table.all isIdentUnit = true ∧ ∀ column ∈ policy.columns, column.all isIdentUnit = true

/-- `ctx`, with `String(rowId)`. -/
structure Cell where
  table : JsString
  rowId : JsString
  column : JsString
  deriving DecidableEq, Repr

/-- `lib/crypto.js`. -/
structure Crypto (Key Nonce : Type) where
  sha3Hash : JsString → Bytes
  kdf : Bytes → Key
  encryptPacked : Nonce → Bytes → Key → Bytes → Bytes
  /-- `none` where `decryptPacked` throws. -/
  decryptPacked : Bytes → Key → Bytes → Option Bytes

variable {Key Nonce : Type}

/-- `table + "|" + String(rowId) + "|" + column`. -/
def Cell.text (cell : Cell) : JsString :=
  cell.table ++ units "|" ++ cell.rowId ++ units "|" ++ cell.column

/-- `_aadFor`. -/
def aadFor (crypto : Crypto Key Nonce) (cell : Cell) : Bytes := crypto.sha3Hash cell.text

/-- `_kCell`. -/
def kCell (crypto : Crypto Key Nonce) (dek : Dek) (cell : Cell) : Key :=
  crypto.kdf (dek.val ++ utf8 (units "breakglass.cell|" ++ cell.text))

def cellPrefix : JsString := units "bgcell:1:"

/-- The end of `encryptCell`, behind `_ensureDek`. -/
def encryptWith (crypto : Crypto Key Nonce) (nonce : Nonce) (dek : Dek) (cell : Cell)
    (plaintext : JsString) : JsString :=
  cellPrefix ++ toBase64
    (crypto.encryptPacked nonce (utf8 plaintext) (kCell crypto dek cell) (aadFor crypto cell))

/-- The end of `decryptCell`, behind `_ensureDek`. -/
def decryptWith (crypto : Crypto Key Nonce) (dek : Dek) (cell : Cell) (ciphertext : JsString) :
    Option JsString :=
  let packed := ofBase64 (ciphertext.drop cellPrefix.length)
  (crypto.decryptPacked packed (kCell crypto dek cell) (aadFor crypto cell)).map utf8Text

/-- A call of `encryptCell`, by `migrate` or from outside, or of `decryptCell`. -/
inductive Job where
  | encrypt (cell : Cell) (plaintext : JsString) (inMigrate : Bool)
  | decrypt (cell : Cell) (ciphertext : JsString)

def Job.cell : Job → Cell
  | .encrypt cell _ _ => cell
  | .decrypt cell _ => cell

/-- Where a call stands in `_ensureDek`. -/
inductive Stage where
  | reading
  /-- The row is read. -/
  | got (dekSealed : Option Dek)
  /-- A key is generated and the update is sent. -/
  | writing (dek : Dek)
  | wrote (dek : Dek)
  /-- `_ensureDek` has returned. -/
  | ready (dek : Dek)

abbrev Proc := Nat

inductive Pc where
  | idle
  | run (p : Proc) (job : Job) (stage : Stage)
  /-- `migrate` between two cells. -/
  | migrating (p : Proc) (table : JsString)
  | done

/-- What a call of `encryptCell` returned, and what one of `decryptCell` came to: `none` where
it threw. -/
inductive Entry where
  | encrypted (cell : Cell) (plaintext ciphertext : JsString)
  | decrypted (cell : Cell) (ciphertext : JsString) (result : Option JsString)

structure St where
  /-- `dekSealed` of the policy of a table. -/
  db : JsString → Option Dek
  dekCache : Proc → JsString → Option Dek
  pc : Nat → Pc
  log : List Entry

def St.init : St := ⟨fun _ => none, fun _ _ => none, fun _ => .idle, []⟩

def St.setPc (s : St) (c : Nat) (pc : Pc) : St :=
  { s with pc := fun d => if d = c then pc else s.pc d }

/-- `dekCache.set(table, dek)`. -/
def St.setCache (s : St) (p : Proc) (table : JsString) (dek : Dek) : St :=
  { s with dekCache := fun q t => if q = p ∧ t = table then some dek else s.dekCache q t }

/-- The start of `_ensureDek`. -/
def St.ensureDek (s : St) (c : Nat) (p : Proc) (job : Job) : St :=
  match s.dekCache p job.cell.table with
  | some dek => s.setPc c (.run p job (.ready dek))
  | none => s.setPc c (.run p job .reading)

/-- A call of `decryptCell` that throws. -/
def St.throws (s : St) (c : Nat) : Job → St
  | .encrypt _ _ _ => s.setPc c .done
  | .decrypt cell ciphertext =>
      { s.setPc c .done with log := s.log ++ [.decrypted cell ciphertext none] }

/-- What `encryptCell` and `decryptCell` ask for before `_ensureDek`. -/
def accepted (policies : Policies) : Job → Bool
  | .encrypt cell _ _ =>
      !cell.table.isEmpty && !cell.column.isEmpty &&
        (policies.get cell.table).any fun policy =>
          policy.cryptographic && policy.columns.contains cell.column
  | .decrypt _ ciphertext => cellPrefix.isPrefixOf ciphertext

/-- A call up to its first statement. -/
def St.enter (policies : Policies) (s : St) (c : Nat) (p : Proc) (job : Job) : St :=
  if accepted policies job then s.ensureDek c p job else s.throws c job

/-- The call with its key. -/
def St.finish (crypto : Crypto Key Nonce) (s : St) (c : Nat) (p : Proc) (job : Job) (dek : Dek)
    (nonce : Nonce) : St :=
  match job with
  | .encrypt cell plaintext inMigrate =>
      let next := if inMigrate then Pc.migrating p cell.table else .done
      { s.setPc c next with
        log := s.log ++ [.encrypted cell plaintext (encryptWith crypto nonce dek cell plaintext)] }
  | .decrypt cell ciphertext =>
      { s.setPc c .done with
        log := s.log ++ [.decrypted cell ciphertext (decryptWith crypto dek cell ciphertext)] }

inductive Act (Nonce : Type) where
  | encryptCell (c : Nat) (p : Proc) (cell : Cell) (plaintext : JsString)
  | decryptCell (c : Nat) (p : Proc) (cell : Cell) (ciphertext : JsString)
  | migrate (c : Nat) (p : Proc) (table : JsString)
  /-- The next cell that `migrate` encrypts. -/
  | next (c : Nat) (rowId column plaintext : JsString)
  | migrated (c : Nat)
  /-- The statement that reads the row. -/
  | read (c : Nat)
  /-- The call goes on behind it; `dek` is what `generateBytes` gives. -/
  | resume (c : Nat) (dek : Dek)
  /-- The statement that writes the key. -/
  | write (c : Nat)
  | written (c : Nat)
  | finish (c : Nat) (nonce : Nonce)
  | restart (p : Proc)

def Pc.ofProc (p : Proc) : Pc → Bool
  | .run q _ _ => q == p
  | .migrating q _ => q == p
  | _ => false

def step (crypto : Crypto Key Nonce) (policies : Policies) (s : St) : Act Nonce → Option St
  | .encryptCell c p cell plaintext =>
      match s.pc c with
      | .idle => some (s.enter policies c p (.encrypt cell plaintext false))
      | _ => none
  | .decryptCell c p cell ciphertext =>
      match s.pc c with
      | .idle => some (s.enter policies c p (.decrypt cell ciphertext))
      | _ => none
  | .migrate c p table =>
      match s.pc c with
      | .idle =>
          let cryptographic := (policies.get table).any (·.cryptographic)
          some (s.setPc c (if cryptographic then .migrating p table else .done))
      | _ => none
  | .next c rowId column plaintext =>
      match s.pc c with
      | .migrating p table =>
          some (s.enter policies c p (.encrypt ⟨table, rowId, column⟩ plaintext true))
      | _ => none
  | .migrated c =>
      match s.pc c with
      | .migrating _ _ => some (s.setPc c .done)
      | _ => none
  | .read c =>
      match s.pc c with
      | .run p job .reading =>
          some (if (policies.get job.cell.table).isSome then
            s.setPc c (.run p job (.got (s.db job.cell.table))) else s.throws c job)
      | _ => none
  | .resume c dek =>
      match s.pc c with
      | .run p job (.got (some sealedDek)) =>
          some ((s.setCache p job.cell.table sealedDek).setPc c (.run p job (.ready sealedDek)))
      | .run p job (.got none) => some (s.setPc c (.run p job (.writing dek)))
      | _ => none
  | .write c =>
      match s.pc c with
      | .run p job (.writing dek) =>
          some ({ s with db := fun t => if t = job.cell.table then some dek else s.db t }.setPc c
            (.run p job (.wrote dek)))
      | _ => none
  | .written c =>
      match s.pc c with
      | .run p job (.wrote dek) =>
          some ((s.setCache p job.cell.table dek).setPc c (.run p job (.ready dek)))
      | _ => none
  | .finish c nonce =>
      match s.pc c with
      | .run p job (.ready dek) => some (s.finish crypto c p job dek nonce)
      | _ => none
  | .restart p =>
      some { s with
        dekCache := fun q => if q = p then fun _ => none else s.dekCache q
        pc := fun c => if (s.pc c).ofProc p then .done else s.pc c }

end Blamejs.CellKey
