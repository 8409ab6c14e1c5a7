import Blamejs.Js.Text
import Blamejs.Lib.FileTree

/-!
# Extracting a tar archive (`extract` of `lib/archive-tar-read.js`)

The entries are those of the walk over the archive. The file system is that of a POSIX
system; each operation on it may fail for reasons of its own, and what fails is given with
the entry, or with the path in the rollback. What `verifyExtractionPath` answers, which
looks at the file system, is a parameter. A path is the names from the root on.
-/

namespace Blamejs.TarExtract

open Blamejs.Js FileTree

abbrev Bytes := List UInt8

abbrev Fs := FileTree.Fs JsString

abbrev Path := Place JsString

inductive Err where
  | entryTypeRefused
  | guardRefused
  | pathRefused
  | destinationExists
  | totalTooLarge
  /-- An operation of the file system that throws. -/
  | io
  deriving DecidableEq, Repr

/-! ## Entries -/

inductive EntryType where
  | file
  | directory
  | symlink
  | hardlink
  | device
  | fifo
  | unknown
  deriving DecidableEq, Repr

/-- An entry of the walk. -/
structure Entry where
  name : JsString
  linkname : JsString
  typeflag : UInt16
  gnuSparse : Bool
  slashDirectory : Bool
  body : Bytes
  deriving DecidableEq, Repr

/-- `_classifyTypeflag`. -/
def classifyTypeflag (tf : UInt16) : EntryType :=
  if tf = unit '0' ∨ tf = 0 then .file
  else if tf = unit '5' ∨ tf = unit 'D' then .directory
  else if tf = unit '2' then .symlink
  else if tf = unit '1' then .hardlink
  else if tf = unit '3' ∨ tf = unit '4' then .device
  else if tf = unit '6' then .fifo
  else if tf = unit '7' then .file
  else .unknown

/-- `_classifyEntry`. -/
def classifyEntry (entry : Entry) : EntryType :=
  if entry.gnuSparse then .unknown
  else if entry.slashDirectory then .directory
  else classifyTypeflag entry.typeflag

structure Options where
  destination : Path
  /-- `allowDangerous.symlinks || entryTypePolicy.symlinks`. -/
  symlinks : Bool
  hardlinks : Bool
  maxTotalDecompressedBytes : Nat
  /-- `_assertGuardMetadata` throws. -/
  guardRefuses : Bool

/-- `_assertEntryTypeAllowed`. -/
def assertEntryTypeAllowed (o : Options) (entry : Entry) : Except Err EntryType :=
  match classifyEntry entry with
  | .device | .fifo | .unknown => .error .entryTypeRefused
  | .symlink => if o.symlinks then .ok .symlink else .error .entryTypeRefused
  | .hardlink => if o.hardlinks then .ok .hardlink else .error .entryTypeRefused
  | type => .ok type

/-! ## The file system -/

/-- What fails while an entry is extracted. -/
structure Fate where
  mkdirFails : Bool
  linkFails : Bool
  writeFails : Bool
  /-- The name of the temporary file, when a write fails and its `unlinkSync` throws too. -/
  tmpStays : Option JsString

structure Platform where
  /-- `verifyExtractionPath`, none where it throws. -/
  verify : Fs → JsString → Option Path

/-- `existsSync`. -/
abbrev existsSync (fs : Fs) (path : Path) : Bool := present fs path

/-- `mkdirSync(path, { recursive: true })`. -/
def mkdirSync (fate : Fate) (fs : Fs) (path : Path) : Fs × Bool :=
  if fate.mkdirFails then (fs, false) else mkdirs fs [] path

/-- The text of a link as a target. -/
def targetOf (text : JsString) : Node JsString :=
  .link (text.head? = some (unit '/'))
    (((text.splitOn (unit '/')).filter fun part => part ≠ [] && part ≠ units ".").map fun part =>
      if part = units ".." then none else some part)

/-- Something new at a path, if nothing is there. -/
def createAt (fs : Fs) (path : Path) (node : Node JsString) : Option Fs :=
  match locate fs path with
  | none => none
  | some p => match fs p with
      | none => some (put fs p node)
      | some _ => none

/-- `symlinkSync(linkname, path)`. -/
def symlinkSync (fate : Fate) (fs : Fs) (linkname : JsString) (path : Path) : Option Fs :=
  if fate.linkFails then none else createAt fs path (targetOf linkname)

/-- `path.join(destination, linkname)`. -/
def joinPath (destination : Path) (linkname : JsString) : Path :=
  (linkname.splitOn (unit '/')).foldl (fun path part =>
    if part = [] ∨ part = units "." then path
    else if part = units ".." then path.dropLast
    else path ++ [part]) destination

/-- `linkSync(target, path)`: a link at the end of the target is not followed, and what is
linked is no directory. -/
def linkSync (fate : Fate) (fs : Fs) (target path : Path) : Option Fs :=
  if fate.linkFails then none
  else
    match (locate fs target).bind fs with
    | none | some .dir => none
    | some node => createAt fs path node

/-- The `finally` of a write that failed: an `unlinkSync` that throws is passed over. -/
def unlinkTmp (fate : Fate) (fs : Fs) (path : Path) (data : Bytes) : Fs :=
  match fate.tmpStays with
  | none => fs
  | some name => (createAt fs (path.dropLast ++ [name]) (.file data)).getD fs

/-- `atomicFile.writeSync`: a temporary file is renamed over what is at the path, unless
that is a directory. -/
def writeSync (fate : Fate) (fs : Fs) (path : Path) (data : Bytes) : Fs × Bool :=
  if fate.writeFails then (unlinkTmp fate fs path data, false)
  else
    match locate fs path with
    | none => (unlinkTmp fate fs path data, false)
    | some p =>
        if fs p = some .dir then (unlinkTmp fate fs path data, false)
        else (put fs p (.file data), true)

/-- `rmSync(path)`. -/
def rmSync (rmFails : Path → Bool) (fs : Fs) (path : Path) : Option Fs :=
  if rmFails path then none
  else
    match locate fs path with
    | none => none
    | some p => match fs p with
        | none | some .dir => none
        | some _ => some (remove fs p)

/-! ## The loop -/

/-- The directory of a file is made if it is missing. -/
def ensureDir (fate : Fate) (fs : Fs) (dir : Path) : Fs × Bool :=
  if existsSync fs dir then (fs, true) else mkdirSync fate fs dir

/-- What one entry does: the file system after it, and the path it is recorded under and
the bytes so far, or the error. -/
def extractEntry (P : Platform) (o : Options) (fs : Fs) (total : Nat) (entry : Entry)
    (fate : Fate) : Fs × Except Err (Option Path × Nat) :=
  match assertEntryTypeAllowed o entry with
  | .error e => (fs, .error e)
  | .ok type =>
      match P.verify fs entry.name with
      | none => (fs, .error .pathRefused)
      | some path =>
          if type = .directory then
            ((mkdirSync fate fs path).1,
              if (mkdirSync fate fs path).2 then .ok (none, total) else .error .io)
          else if existsSync fs path then (fs, .error .destinationExists)
          else if type = .symlink ∨ type = .hardlink then
            match P.verify fs entry.linkname with
            | none => (fs, .error .pathRefused)
            | some _ =>
                match (if type = .symlink then symlinkSync fate fs entry.linkname path
                  else linkSync fate fs (joinPath o.destination entry.linkname) path) with
                | none => (fs, .error .io)
                | some fs' => (fs', .ok (some path, total))
          else
            let (fs, made) := ensureDir fate fs path.dropLast
            if !made then (fs, .error .io)
            else if o.maxTotalDecompressedBytes < total + entry.body.length then
              (fs, .error .totalTooLarge)
            else
              match writeSync fate fs path entry.body with
              | (fs', false) => (fs', .error .io)
              | (fs', true) => (fs', .ok (some path, total + entry.body.length))

/-- The `for` loop: the file system, the paths that were written, and the error. -/
def extractLoop (P : Platform) (o : Options) : Fs → Nat → List Path → List (Entry × Fate) →
    Fs × List Path × Option Err
  | fs, _, written, [] => (fs, written, none)
  | fs, total, written, (entry, fate) :: rest =>
      match extractEntry P o fs total entry fate with
      | (fs', .error e) => (fs', written, some e)
      | (fs', .ok (path, total')) => extractLoop P o fs' total' (written ++ path.toList) rest

/-- The `catch` clause: the first removal that throws ends it. -/
def rollback (rmFails : Path → Bool) : Fs → List Path → Fs
  | fs, [] => fs
  | fs, path :: rest =>
      if existsSync fs path then
        match rmSync rmFails fs path with
        | none => fs
        | some fs' => rollback rmFails fs' rest
      else rollback rmFails fs rest

/-- `extract`, from after its options are checked on: the file system, and the entries or
the error. -/
def extract (P : Platform) (o : Options) (fs : Fs) (mkdirFails : Bool)
    (entries : List (Entry × Fate)) (rmFails : Path → Bool) : Fs × Except Err (List Path) :=
  let (fs, made) := ensureDir ⟨mkdirFails, false, false, none⟩ fs o.destination
  if !made then (fs, .error .io)
  else if o.guardRefuses then (fs, .error .guardRefused)
  else
    match extractLoop P o fs 0 [] entries with
    | (fs', written, none) => (fs', .ok written)
    | (fs', written, some e) => (rollback rmFails fs' written, .error e)

end Blamejs.TarExtract
