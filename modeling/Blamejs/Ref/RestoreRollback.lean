import Blamejs.Lib.Run
import Mathlib.Data.List.Sort

/-!
# Swap, rollback and purge of a data directory (`lib/restore-rollback.js`)

The directories the calls move are the entries of `Disk.dirs`. A rollback point and its
marker are named by the timestamp of the swap that made them, and a timestamp is its
instant, for the strings of both formats sort as their instants do. What the file system
answers is part of a call: which renames work, and what becomes of the marker file. What is
removed is gone (`rmSync` and `unlinkSync` work).
-/

namespace Blamejs.RestoreRollback

/-- Where a directory can be. -/
inductive Loc where
  | dataDir
  | staging (path : Nat)
  | point (stamp : Nat)
  | discarded (stamp : Nat)
  deriving DecidableEq, Repr

/-- A marker file. `list` reads it back unless the write broke off, the file is larger than
64 KiB or the operator's metadata is refused by the parser. -/
structure Marker where
  swappedAt : Nat
  readable : Bool
  deriving DecidableEq, Repr

structure Disk (D : Type) where
  dirs : List (Loc × D)
  markers : List (Nat × Marker)

variable {D : Type}

/-- `nodeFs.existsSync` of a directory. -/
def Disk.existsSync (fs : Disk D) (l : Loc) : Bool := (fs.dirs.map Prod.fst).contains l

/-- The marker of a rollback point. -/
def Disk.marker (fs : Disk D) (stamp : Nat) : Option Marker := fs.markers.lookup stamp

/-- `atomicFile.renameWithRetry`, which throws when the system refuses the rename. -/
def Disk.renameWithRetry (works : Bool) (src dst : Loc) (fs : Disk D) : Option (Disk D) :=
  if works && fs.existsSync src && !fs.existsSync dst then
    some { fs with dirs := fs.dirs.map fun e => (if e.1 = src then dst else e.1, e.2) }
  else none

/-- What the file system does during a `swap`. -/
structure SwapIo where
  moves : Bool
  places : Bool
  undoes : Bool
  /-- `none` when no marker file is there afterwards, else whether it can be read back. -/
  marker : Option Bool
  deriving DecidableEq, Repr

/-- What the file system does during a `rollback`. -/
structure RollbackIo where
  moves : Bool
  places : Bool
  undoes : Bool
  deriving DecidableEq, Repr

inductive Failure where
  | noStaging
  | collision
  | noRollback
  | renameExistingFailed
  | renameStagingFailed
  | rollbackRenameFailed
  deriving DecidableEq, Repr

/-- The marker file of a `swap`; an existing file is left as it is. -/
def Disk.writeMarker (stamp now : Nat) (outcome : Option Bool) (fs : Disk D) : Disk D :=
  match outcome with
  | none => fs
  | some readable =>
      if (fs.marker stamp).isSome then fs
      else { fs with markers := (stamp, ⟨now, readable⟩) :: fs.markers }

/-- The `rollbackPath` and `swappedAt` a `swap` returns. -/
structure Swapped where
  rollbackPath : Option Nat
  swappedAt : Nat
  deriving DecidableEq, Repr

/-- `swap`, at the clock readings `stamp` and, for the marker, `now`. -/
def swap (staging stamp now : Nat) (io : SwapIo) (fs : Disk D) :
    Except Failure Swapped × Disk D :=
  if fs.existsSync (.staging staging) = false then (.error .noStaging, fs)
  else if fs.existsSync (.point stamp) = true ∨ (fs.marker stamp).isSome = true then
    (.error .collision, fs)
  else
    let hadDataDir := fs.existsSync .dataDir
    match (if hadDataDir then fs.renameWithRetry io.moves .dataDir (.point stamp) else some fs) with
    | none => (.error .renameExistingFailed, fs)
    | some moved =>
        match moved.renameWithRetry io.places (.staging staging) .dataDir with
        | none =>
            (.error .renameStagingFailed,
              if hadDataDir then
                (moved.renameWithRetry io.undoes (.point stamp) .dataDir).getD moved
              else moved)
        | some placed =>
            (.ok ⟨if hadDataDir then some stamp else none, stamp⟩,
              placed.writeMarker stamp now io.marker)

/-- The `restoredFrom` and `discardedAt` a `rollback` returns. -/
structure RolledBack where
  restoredFrom : Nat
  discardedAt : Option Nat
  deriving DecidableEq, Repr

/-- `rollback` to a point, at the clock reading `stamp`. -/
def rollback (target stamp : Nat) (io : RollbackIo) (fs : Disk D) :
    Except Failure RolledBack × Disk D :=
  if fs.existsSync (.point target) = false then (.error .noRollback, fs)
  else
    let hadDataDir := fs.existsSync .dataDir
    match (if hadDataDir then fs.renameWithRetry io.moves .dataDir (.discarded stamp)
      else some fs) with
    | none => (.error .renameExistingFailed, fs)
    | some moved =>
        match moved.renameWithRetry io.places (.point target) .dataDir with
        | none =>
            (.error .rollbackRenameFailed,
              if hadDataDir then
                (moved.renameWithRetry io.undoes (.discarded stamp) .dataDir).getD moved
              else moved)
        | some placed =>
            (.ok ⟨target, if hadDataDir then some stamp else none⟩,
              { placed with markers := placed.markers.filter fun m => m.1 != target })

/-- An entry of `list`. -/
structure Entry where
  rollbackPath : Nat
  swappedAt : Nat
  deriving DecidableEq, Repr

/-- The time a rollback point is listed with: that of its marker, else the modification
time of the directory. -/
def listedAt (mtime : D → Nat) (fs : Disk D) (stamp : Nat) (dir : D) : Nat :=
  match fs.marker stamp with
  | some m => if m.readable then m.swappedAt else mtime dir
  | none => mtime dir

/-- The entry of a directory, when it is a rollback point. -/
def entryOf (mtime : D → Nat) (fs : Disk D) : Loc × D → Option Entry
  | (.point stamp, dir) => some ⟨stamp, listedAt mtime fs stamp dir⟩
  | _ => none

/-- `list`, newest first. The comparison leaves the order of equal times open; here they stay
in the order of the directory. -/
def list (mtime : D → Nat) (fs : Disk D) : List Entry :=
  (fs.dirs.filterMap (entryOf mtime fs)).mergeSort fun a b => b.swappedAt ≤ a.swappedAt

def Loc.isDiscarded : Loc → Bool
  | .discarded _ => true
  | _ => false

/-- The first sweep of `purge`. -/
def Disk.sweep (fs : Disk D) : Disk D :=
  { fs with dirs := fs.dirs.filter fun e => !e.1.isDiscarded }

/-- The rollback points `purge` removes. -/
def toDelete (keep : Nat) (mtime : D → Nat) (fs : Disk D) : List Nat :=
  ((list mtime fs.sweep).drop keep).map (·.rollbackPath)

def Loc.isOneOf (stamps : List Nat) : Loc → Bool
  | .point stamp => stamps.contains stamp
  | _ => false

/-- `purge`. -/
def purge (keep : Nat) (mtime : D → Nat) (fs : Disk D) : Disk D :=
  let stamps := toDelete keep mtime fs
  { dirs := fs.sweep.dirs.filter fun e => !e.1.isOneOf stamps
    markers := fs.markers.filter fun m => !stamps.contains m.1 }

/-! ## Runs -/

inductive Call (D : Type) where
  /-- A new directory is put where a `swap` may take it from. -/
  | stage (path : Nat) (dir : D)
  | swap (staging stamp now : Nat) (io : SwapIo)
  | rollback (target stamp : Nat) (io : RollbackIo)
  | purge (keep : Nat) (mtime : D → Nat)

/-- The disk, with the directories that were ever live or staged, those `purge` removed, the
timestamps of the swaps that left a rollback point, newest first, and all timestamps. -/
structure St (D : Type) where
  disk : Disk D
  seen : List D
  purged : List D
  swaps : List Nat
  stamps : List Nat

def St.init (live : Option D) : St D where
  disk := ⟨live.toList.map fun d => (.dataDir, d), []⟩
  seen := live.toList
  purged := []
  swaps := []
  stamps := []

variable [DecidableEq D]

def step (s : St D) : Call D → Option (St D)
  | .stage path dir =>
      if dir ∈ s.seen ∨ s.disk.existsSync (.staging path) = true then none
      else
        some { s with
          disk := { s.disk with dirs := (.staging path, dir) :: s.disk.dirs }
          seen := dir :: s.seen }
  | .swap staging stamp now io =>
      if stamp ∈ s.stamps then none
      else
        let disk := (swap staging stamp now io s.disk).2
        some { s with
          disk := disk
          swaps := if disk.existsSync (.point stamp) then stamp :: s.swaps else s.swaps
          stamps := stamp :: s.stamps }
  | .rollback target stamp io =>
      if stamp ∈ s.stamps then none
      else
        some { s with
          disk := (rollback target stamp io s.disk).2
          stamps := stamp :: s.stamps }
  | .purge keep mtime =>
      some { s with
        disk := purge keep mtime s.disk
        purged := (s.disk.dirs.filter fun e =>
          e.1.isDiscarded || e.1.isOneOf (toDelete keep mtime s.disk)).map Prod.snd ++ s.purged }

end Blamejs.RestoreRollback
