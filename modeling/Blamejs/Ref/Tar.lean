import Blamejs.Js.ToNumber
import Blamejs.Js.LossyText
import Blamejs.Ref.TarExtract
import Mathlib.Algebra.GroupWithZero.Nat

/-!
# The tar builder and reader (`lib/archive-tar.js`, `lib/archive-tar-read.js`)

A text is its code points: names are well-formed, and what is read from bytes always is.
The reader keeps the bytes that are still to be read instead of a position, and an entry
its body instead of where it starts. What the archive guard says of the entries is a
parameter.
-/

namespace Blamejs.Tar

open Blamejs.Js

abbrev Bytes := List UInt8

abbrev Text := List Char

inductive Err where
  | badName
  | octalOverflow
  | fieldOverflow
  | chksumOverflow
  | badMagic
  | badChksum
  | badOctal
  | numericOutOfRange
  | badPaxRecord
  | badPaxName
  | badPaxSize
  | nameNotUtf8
  | entryTooLarge
  | truncatedEntry
  | redundantExtendedHeader
  | globalEntryAttribute
  | badLongRecord
  | danglingExtendedHeader
  | longNamePaxConflict
  | sizeOnNonFile
  | linkTargetOnNonLink
  | tooManyEntries
  | badSparseHeader
  | sourceTooLarge
  | guardRefused
  | entryTypeRefused
  | totalTooLarge
  deriving DecidableEq, Repr

/-- `Buffer.from(text, "utf8")`. -/
def encode (text : Text) : Bytes := text.flatMap String.utf8EncodeChar

/-- `nodeBuffer.isUtf8`. -/
def isUtf8 (bytes : Bytes) : Bool := (decodeUtf8 bytes).isSome

/-- `bytes.toString("utf8")`. -/
def toText (bytes : Bytes) : Text := (decodeUtf8 bytes).getD (scalars (utf8Text bytes))

def ascii (s : String) : Bytes := s.toList.map fun c => UInt8.ofNat c.toNat

/-- `String(n)`. -/
def decimal (n : Nat) : Bytes := (Nat.toDigits 10 n).map fun c => UInt8.ofNat c.toNat

/-! ## The builder -/

def blockSize : Nat := 512

def nameMax : Nat := 100

def prefixMax : Nat := 155

/-- `0o77777777777`. -/
def ustarSizeMax : Nat := 8 ^ 11 - 1

/-- `_normalizeName`. -/
def normalizeName (name : Text) : Except Err Text :=
  if name = [] then .error .badName
  else if '\x00' ∈ name then .error .badName
  else if '\r' ∈ name ∨ '\n' ∈ name then .error .badName
  else
    let normalized := (name.map fun c => if c = '\\' then '/' else c).dropWhile (· = '/')
    if ['.', '.'] ∈ normalized.splitOn '/' then .error .badName else .ok normalized

/-- `_padBlock`. -/
def padBlock (buf : Bytes) : Bytes :=
  buf ++ List.replicate ((blockSize - buf.length % blockSize) % blockSize) 0

/-- `_writeOctal`, the field of a width. -/
def writeOctal (value width : Nat) : Except Err Bytes :=
  let oct := (Nat.toDigits 8 value).map fun c => UInt8.ofNat c.toNat
  if width - 1 < oct.length then .error .octalOverflow
  else .ok (List.replicate (width - 1 - oct.length) 0x30 ++ oct ++ [0x20])

/-- `_writeString`, the field of a width. -/
def writeString (value : Text) (width : Nat) : Except Err Bytes :=
  if width < (encode value).length then .error .fieldOverflow
  else .ok (encode value ++ List.replicate (width - (encode value).length) 0)

/-- The sum of the bytes. -/
def sumBytes (buf : Bytes) : Nat := (buf.map UInt8.toNat).sum

/-- `_computeChecksum`. -/
def computeChecksum (buf : Bytes) : Nat :=
  sumBytes (buf.take 148) + 8 * 0x20 + sumBytes (buf.drop 156)

/-- The field of `_writeChecksum`. -/
def writeChecksum (sum : Nat) : Except Err Bytes :=
  let oct := (Nat.toDigits 8 sum).map fun c => UInt8.ofNat c.toNat
  if 6 < oct.length then .error .chksumOverflow
  else .ok (List.replicate (6 - oct.length) 0x30 ++ oct ++ [0, 0x20])

/-- The slashes of a name, from the last one on: what is in front of one and what behind. -/
def slashCuts : Text → List (Text × Text)
  | [] => []
  | c :: rest =>
      (slashCuts rest).map (fun (front, back) => (c :: front, back)) ++
        if c = '/' then [([], rest)] else []

/-- `_ustarNameSplit`: the name and the prefix. -/
def ustarNameSplit (name : Text) : Option (Text × Text) :=
  if (encode name).length ≤ nameMax then some (name, [])
  else
    ((slashCuts name).find? fun (front, back) =>
      front ≠ [] && back ≠ [] && (encode back).length ≤ nameMax &&
        (encode front).length ≤ prefixMax).map fun (front, back) => (back, front)

/-- `_utf8Prefix`. -/
def utf8Prefix (maxBytes : Nat) : Text → Text
  | [] => []
  | c :: rest =>
      let n := (String.utf8EncodeChar c).length
      if maxBytes < n then [] else c :: utf8Prefix (maxBytes - n) rest

/-- An entry as `_buildUstarHeader` takes it. -/
structure HeaderOf where
  name : Text
  mode : Nat
  uid : Nat
  gid : Nat
  size : Nat
  mtime : Nat
  typeflag : UInt8
  uname : Text
  gname : Text

/-- `_buildUstarHeader`. -/
def buildUstarHeader (e : HeaderOf) : Except Err Bytes := do
  let (name, pre) := (ustarNameSplit e.name).getD ("PaxHeader/data".toList, [])
  let name ← writeString name 100
  let mode ← writeOctal (if e.mode = 0 then 0o644 else e.mode) 8
  let uid ← writeOctal e.uid 8
  let gid ← writeOctal e.gid 8
  let size ← writeOctal e.size 12
  let mtime ← writeOctal e.mtime 12
  let uname ← writeString e.uname 32
  let gname ← writeString e.gname 32
  let pre ← writeString pre 155
  let front := name ++ mode ++ uid ++ gid ++ size ++ mtime
  let back := [e.typeflag] ++ List.replicate 100 0 ++ ascii "ustar\x00" ++ ascii "00" ++ uname ++
    gname ++ List.replicate 16 0 ++ pre ++ List.replicate 12 0
  let chksum ← writeChecksum (sumBytes front + 8 * 0x20 + sumBytes back)
  .ok (front ++ chksum ++ back)

/-- The loop of `_buildPaxRecord`. -/
def paxLength (bodyBytes : Nat) : Nat → Nat → Nat
  | 0, len => len
  | fuel + 1, len =>
      let total := (decimal len).length + 1 + bodyBytes
      if total = len then len else paxLength bodyBytes fuel total

/-- `_buildPaxRecord`, as bytes. -/
def buildPaxRecord (key : Bytes) (value : Bytes) : Bytes :=
  let keyVal := key ++ [0x3D] ++ value ++ [0x0A]
  let len := paxLength keyVal.length (keyVal.length + 4) (keyVal.length + 2)
  decimal len ++ [0x20] ++ keyVal

/-- `_buildPaxExtendedHeader`. -/
def buildPaxExtendedHeader (records : List (Bytes × Bytes)) (name : Text) : Except Err Bytes := do
  let body := records.flatMap fun (key, value) => buildPaxRecord key value
  let hdr ← buildUstarHeader ⟨name, 0o644, 0, 0, body.length, 0, 0x78, [], []⟩
  .ok (hdr ++ padBlock body)

/-- An entry of the builder. -/
structure Entry where
  name : Text
  directory : Bool
  body : Bytes
  mode : Nat
  mtime : Nat
  uid : Nat
  gid : Nat
  uname : Text
  gname : Text

/-- The options of an entry, with 0 and the empty text where none is given; the time is that
of the clock there. -/
structure Opts where
  mode : Option Nat
  mtime : Nat
  uid : Nat
  gid : Nat
  uname : Text
  gname : Text

/-- `addFile` and `addDirectory`. -/
inductive Call where
  | addFile (name : Text) (content : Bytes) (opts : Opts)
  | addDirectory (name : Text) (opts : Opts)

/-- `given || fallback`. -/
def orDefault (given : Option Nat) (fallback : Nat) : Nat := (given.filter (· ≠ 0)).getD fallback

/-- The entry that a call adds. -/
def Call.entry : Call → Except Err Entry
  | .addFile name content opts => do
      let normalized ← normalizeName name
      .ok ⟨normalized, false, content, orDefault opts.mode 0o644, opts.mtime, opts.uid, opts.gid,
        opts.uname, opts.gname⟩
  | .addDirectory name opts => do
      let normalized ← normalizeName name
      .ok ⟨if normalized.getLast? = some '/' then normalized else normalized ++ ['/'], true, [],
        orDefault opts.mode 0o755, opts.mtime, opts.uid, opts.gid, opts.uname, opts.gname⟩

/-- The entries of the builder after some calls. -/
def addAll : List Call → Except Err (List Entry)
  | [] => .ok []
  | c :: rest => do
      let e ← c.entry
      let more ← addAll rest
      .ok (e :: more)

def Entry.typeflag (e : Entry) : UInt8 := if e.directory then 0x35 else 0x30

/-- The pax records of `_entryBytes`. -/
def Entry.paxRecords (e : Entry) : List (Bytes × Bytes) :=
  (if ustarNameSplit e.name = none then [(ascii "path", encode e.name)] else []) ++
    if ustarSizeMax < e.body.length then [(ascii "size", decimal e.body.length)] else []

/-- `_entryBytes`. -/
def Entry.bytes (e : Entry) : Except Err Bytes := do
  let pax ← if e.paxRecords = [] then .ok [] else
    buildPaxExtendedHeader e.paxRecords ("PaxHeader/".toList ++ utf8Prefix 80 e.name)
  let hdr ← buildUstarHeader ⟨e.name, e.mode, e.uid, e.gid, min e.body.length ustarSizeMax,
    e.mtime, e.typeflag, e.uname, e.gname⟩
  .ok (pax ++ hdr ++ padBlock e.body)

def entriesBytes : List Entry → Except Err Bytes
  | [] => .ok []
  | e :: rest => do
      let bytes ← e.bytes
      let more ← entriesBytes rest
      .ok (bytes ++ more)

/-- `toBuffer`. -/
def toBuffer (entries : List Entry) : Except Err Bytes := do
  let bytes ← entriesBytes entries
  .ok (bytes ++ List.replicate (2 * blockSize) 0)

/-! ## Fields of a header -/

def field (block : Bytes) (offset width : Nat) : Bytes := (block.drop offset).take width

/-- `_fieldBytes`. -/
def fieldBytes (block : Bytes) (offset width : Nat) : Bytes :=
  (field block offset width).takeWhile (· ≠ 0)

def octalValue (digits : Bytes) : Nat := digits.foldl (fun n b => 8 * n + (b.toNat - 0x30)) 0

def blank (b : UInt8) : Bool := b = 0x20 || b = 0

/-- `_readOctal` of a field. -/
def readOctal (bytes : Bytes) : Except Err Nat :=
  let rest := bytes.dropWhile (· = 0x20)
  let digits := rest.takeWhile fun b => !blank b
  if digits.any fun b => b < 0x30 || 0x37 < b then .error .badOctal
  else if ((rest.dropWhile fun b => !blank b).drop 1).any fun b => !blank b then .error .badOctal
  else .ok (octalValue digits)

/-- `_readBase256` of a field. -/
def readBase256 (bytes : Bytes) : Except Err Int :=
  match bytes with
  | [] => .error .badOctal
  | first :: rest =>
      if first ≠ 0x80 ∧ first ≠ 0xFF then .error .badOctal
      else
        let value : Int := (rest.foldl (fun n b => 256 * n + b.toNat) 0 : Nat)
        .ok (if first = 0xFF then value - (256 : Int) ^ rest.length else value)

/-- `_readNumeric` of a field. -/
def readNumeric (bytes : Bytes) (low high : Int) : Except Err Int :=
  if (bytes.headD 0).toNat < 0x80 then (readOctal bytes).map Int.ofNat
  else do
    let value ← readBase256 bytes
    if value < low ∨ high < value then .error .numericOutOfRange else .ok value

def dateRangeSeconds : Int := 8640000000000

def maxSafe : Int := 2 ^ 53 - 1

/-- What `_parseHeader` returns. -/
structure Header where
  name : Text
  nameIsUtf8 : Bool
  mode : Int
  uid : Int
  gid : Int
  size : Int
  mtime : Int
  typeflag : UInt8
  linkname : Text
  linknameIsUtf8 : Bool
  uname : Text
  gname : Text

/-- `_isGnuVolumeLabelWithoutMagic`. -/
def isGnuVolumeLabelWithoutMagic (block : Bytes) : Bool :=
  field block 156 1 = [0x56] && (field block 257 8).all fun b => b = 0

/-- `_hasGnuMagic`. -/
def hasGnuMagic (block : Bytes) : Bool := field block 257 8 = ascii "ustar  \x00"

/-- `_parseHeader`. -/
def parseHeader (block : Bytes) : Except Err Header := do
  let isGnu := hasGnuMagic block || isGnuVolumeLabelWithoutMagic block
  if !isGnu && field block 257 6 ≠ ascii "ustar\x00" then .error .badMagic
  else do
    let stored ← readOctal (field block 148 8)
    if stored ≠ computeChecksum block then .error .badChksum
    else do
      let nameBytes := fieldBytes block 0 100
      let prefixBytes := fieldBytes block 345 155
      let joined := !isGnu && prefixBytes ≠ []
      let linkname := fieldBytes block 157 100
      let mode ← readNumeric (field block 100 8) 0 0xFFFFFFFF
      let uid ← readNumeric (field block 108 8) 0 0xFFFFFFFF
      let gid ← readNumeric (field block 116 8) 0 0xFFFFFFFF
      let size ← readNumeric (field block 124 12) 0 maxSafe
      let mtime ← readNumeric (field block 136 12) (-dateRangeSeconds) dateRangeSeconds
      .ok {
        name := if joined then toText prefixBytes ++ ['/'] ++ toText nameBytes else toText nameBytes
        nameIsUtf8 := isUtf8 nameBytes && (!joined || isUtf8 prefixBytes)
        mode, uid, gid, size, mtime
        typeflag := (field block 156 1).headD 0
        linkname := toText linkname
        linknameIsUtf8 := isUtf8 linkname
        uname := toText (fieldBytes block 265 32)
        gname := toText (fieldBytes block 297 32) }

/-! ## Records before a header -/

abbrev Records := List (Text × Text)

def isDigit (b : UInt8) : Bool := 0x30 ≤ b && b ≤ 0x39

def decimalValue (digits : Bytes) : Nat := digits.foldl (fun n b => 10 * n + (b.toNat - 0x30)) 0

def nameKeys : List Text := ["path".toList, "linkpath".toList, "GNU.sparse.name".toList]

/-- One record of `_parsePaxRecords`, and the bytes behind it. -/
def parsePaxRecord (buf : Bytes) : Except Err ((Text × Text) × Bytes) :=
  let digits := buf.takeWhile isDigit
  let len := decimalValue digits
  let keyStart := digits.length + 1
  let record := (buf.take (len - 1)).drop keyStart
  if buf.length < len then .error .badPaxRecord
  else if digits = [] ∨ buf[digits.length]? ≠ some 0x20 then .error .badPaxRecord
  else if len - 1 ≤ keyStart ∨ buf[len - 1]? ≠ some 0x0A then .error .badPaxRecord
  else
    let keyBytes := record.takeWhile (· ≠ 0x3D)
    let value := record.drop (keyBytes.length + 1)
    let key := toText keyBytes
    if (0x3D : UInt8) ∉ record then .error .badPaxRecord
    else if keyBytes = [] then .error .badPaxRecord
    else if keyBytes.head? = some 0x20 ∨ keyBytes.head? = some 0x09 then .error .badPaxRecord
    else if (0 : UInt8) ∈ keyBytes then .error .badPaxRecord
    else if key ∈ nameKeys ∧ (0 : UInt8) ∈ value then .error .badPaxName
    else if key = "linkpath".toList ∧ value = [] then .error .badPaxName
    else if key ∈ nameKeys ∧ !isUtf8 value then .error .nameNotUtf8
    else .ok ((key, toText value), buf.drop len)

/-- `_parsePaxRecords`: the last record of a key is in front. Each record takes bytes. -/
def parsePaxRecords : Nat → Bytes → Records → Except Err Records
  | 0, _, out => .ok out
  | fuel + 1, buf, out =>
      if buf = [] then .ok out
      else do
        let (record, rest) ← parsePaxRecord buf
        parsePaxRecords fuel rest (record :: out)

/-- `_paxSize`. -/
def paxSize (raw : Text) : Except Err Nat :=
  let digits := encode raw
  if digits ≠ [] ∧ digits.all isDigit ∧ (decimalValue digits : Int) ≤ maxSafe ∧
      decimal (decimalValue digits) = digits then
    .ok (decimalValue digits)
  else .error .badPaxSize

/-- `PAX_TIME_PATTERN`. -/
def isPaxTime (raw : Text) : Bool :=
  let body := if raw.head? = some '-' then raw.drop 1 else raw
  let isDigits (s : Text) : Bool := 1 ≤ s.length && s.length ≤ 20 && s.all Char.isDigit
  match body.splitOn '.' with
  | [whole] => isDigits whole
  | [whole, fraction] => isDigits whole && isDigits fraction
  | _ => false

/-- `_paxTime`. -/
def paxTime (raw : Option Text) : Option Double :=
  match raw with
  | none => none
  | some raw =>
      let seconds := stringToNumber (ofScalars raw)
      if isPaxTime raw && seconds.isFinite && seconds.mag ≤ (Double.ofInt dateRangeSeconds).mag then
        some seconds
      else none

/-- `_isSparseKey`. -/
def isSparseKey (key : Text) : Bool :=
  "GNU.sparse.".toList.isPrefixOf key || key = "SCHILY.realsize".toList ||
    key = "SUN.holesdata".toList

/-- `_globalEntryAttribute` finds a key. -/
def hasGlobalEntryAttribute (records : Records) : Bool :=
  records.any fun (key, _) =>
    key = "path".toList || key = "linkpath".toList || key = "size".toList || isSparseKey key

/-- The bytes of blocks that hold a size. -/
def paddedSize (size : Nat) : Nat := (size + 511) / 512 * 512

/-- `_readExtensionBody`: the body and what is behind it. -/
def readExtensionBody (rest : Bytes) (size maxBytes : Nat) : Except Err (Bytes × Bytes) :=
  if maxBytes < size then .error .entryTooLarge
  else if rest.length < paddedSize size then .error .truncatedEntry
  else .ok (rest.take size, rest.drop (paddedSize size))

/-- `_gnuLongValue`. -/
def gnuLongValue (body : Bytes) : Except Err Text :=
  let bytes := body.takeWhile (· ≠ 0)
  if bytes = [] then .error .badLongRecord
  else if !isUtf8 bytes then .error .nameNotUtf8
  else .ok (toText bytes)

/-! ## The walk -/

/-- An entry of the walk, with its body. -/
structure Read where
  header : Header
  name : Text
  size : Nat
  mtime : Double
  linkname : Text
  gnuSparse : Bool
  slashDirectory : Bool
  body : Bytes

/-- What `_assertGuardMetadata` tells the archive guard of an entry. -/
structure GuardEntry where
  name : Text
  size : Nat
  isSymlink : Bool
  isHardlink : Bool
  linkTarget : Text
  isDirectory : Bool
  mode : Int
  deriving DecidableEq

structure Options where
  maxEntries : Nat
  maxEntryDecompressedBytes : Nat
  maxTotalDecompressedBytes : Nat
  /-- The archive guard finds a critical issue in the entries. -/
  guardRefuses : List GuardEntry → Bool

/-- What was read before the next header. -/
structure Pending where
  pax : Option Records
  longName : Option Text
  longLink : Option Text

def Pending.none : Pending := ⟨.none, .none, .none⟩

def Pending.isNone (p : Pending) : Bool := p.pax.isNone && p.longName.isNone && p.longLink.isNone

/-- A value of a record, if it is not empty. -/
def Pending.value (p : Pending) (key : String) : Option Text :=
  (p.pax.bind fun records => records.lookup key.toList).filter (· ≠ [])

/-- `_sparseMapFull`. -/
def sparseMapFull (block : Bytes) (offset count : Nat) : Bool :=
  (List.range count).all fun i =>
    block.getD (offset + i * 24) 0 ≠ 0 && block.getD (offset + i * 24 + 12) 0 ≠ 0

/-- The blocks of `_skipGnuSparseExtensions`. -/
def skipExtensions : Nat → Bytes → Except Err Bytes
  | 0, _ => .error .truncatedEntry
  | fuel + 1, rest =>
      if rest.length < 512 then .error .truncatedEntry
      else if rest.getD 504 0 = 0 then .ok (rest.drop 512)
      else if !sparseMapFull (rest.take 512) 0 21 then .error .badSparseHeader
      else skipExtensions fuel (rest.drop 512)

/-- `_skipGnuSparseExtensions`. -/
def skipGnuSparseExtensions (block rest : Bytes) : Except Err Bytes :=
  if !hasGnuMagic block || !sparseMapFull block 386 4 then .error .badSparseHeader
  else skipExtensions (rest.length + 1) rest

/-- `_oldGnuSparseFieldsSet`. -/
def oldGnuSparseFieldsSet (block : Bytes) : Bool :=
  hasGnuMagic block && (field block 386 109).any fun b => b ≠ 0

/-- `TYPEFLAGS_WITHOUT_BODY`. -/
def withoutBody : List UInt8 := [0x31, 0x32, 0x33, 0x34, 0x35, 0x36]

/-- `TYPEFLAGS_SLASH_DIRECTORY`. -/
def slashTypes : List UInt8 := [0x30, 0, 0x37]

def isLink (typeflag : UInt8) : Bool := typeflag = 0x31 || typeflag = 0x32

/-- The size of an entry: that of the header, or of a record. -/
def entrySize (hdr : Header) (p : Pending) : Except Err (Nat × Nat) :=
  match p.pax.bind fun records => records.lookup "size".toList with
  | .none => .ok (hdr.size.toNat, 0)
  | some raw => do
      let size ← paxSize raw
      .ok (size, size)

/-- What `_walk` makes of the header of an entry and what came before it: the entry and the
bytes behind it. -/
def readEntry (o : Options) (count : Nat) (block rest : Bytes) (hdr : Header) (p : Pending) :
    Except Err (Read × Bytes) := do
  let (size, paxSize) ← entrySize hdr p
  let linkpath := p.value "linkpath"
  let paxName := (p.value "GNU.sparse.name").or (p.value "path")
  let name := p.longName.getD (paxName.getD hdr.name)
  let linkname := p.longLink.getD (linkpath.getD hdr.linkname)
  let gnuSparse := (p.pax.getD []).any (fun (key, _) => isSparseKey key) ||
    (hdr.typeflag ≠ 0x53 && oldGnuSparseFieldsSet block)
  let slashDirectory := hdr.typeflag ∈ slashTypes && name.getLast? = some '/'
  if p.longName.isSome ∧ paxName.isSome ∧ paxName ≠ p.longName then .error .longNamePaxConflict
  else if p.longLink.isSome ∧ linkpath.isSome ∧ linkpath ≠ p.longLink then
    .error .longNamePaxConflict
  else if paxName.isNone ∧ p.longName.isNone ∧ !hdr.nameIsUtf8 then .error .nameNotUtf8
  else if isLink hdr.typeflag ∧ p.longLink.isNone ∧ linkpath.isNone ∧ !hdr.linknameIsUtf8 then
    .error .nameNotUtf8
  else if (hdr.typeflag ∈ withoutBody ∨ slashDirectory) ∧ (hdr.size ≠ 0 ∨ paxSize ≠ 0) then
    .error .sizeOnNonFile
  else if (p.longLink.isSome ∨ linkpath.isSome) ∧ !isLink hdr.typeflag then
    .error .linkTargetOnNonLink
  else if o.maxEntries ≤ count then .error .tooManyEntries
  else if o.maxEntryDecompressedBytes < size then .error .entryTooLarge
  else do
    let rest ← if hdr.typeflag = 0x53 ∧ block.getD 482 0 ≠ 0 then
      skipGnuSparseExtensions block rest else .ok rest
    if rest.length < paddedSize size then .error .truncatedEntry
    else
      .ok (⟨hdr, name, size, (paxTime ((p.pax.bind fun records =>
        records.lookup "mtime".toList))).getD (Double.ofInt hdr.mtime), linkname, gnuSparse,
        slashDirectory, rest.take size⟩, rest.drop (paddedSize size))

/-- The end of the walk. -/
def finish (p : Pending) (entries : List Read) : Except Err (List Read) :=
  if p.isNone then .ok entries else .error .danglingExtendedHeader

/-- What a header that is no entry adds to what is before the next one, and the bytes behind
it; none for the header of an entry. -/
def readExtension (o : Options) (rest : Bytes) (hdr : Header) (p : Pending) :
    Except Err (Option (Pending × Bytes)) :=
  if hdr.typeflag = 0x78 ∨ hdr.typeflag = 0x58 ∨ hdr.typeflag = 0x67 then do
    let (body, rest) ← readExtensionBody rest hdr.size.toNat o.maxEntryDecompressedBytes
    let records ← parsePaxRecords body.length body []
    if hdr.typeflag ≠ 0x67 then
      if p.pax.isSome then .error .redundantExtendedHeader
      else .ok (some ({ p with pax := some records }, rest))
    else if hasGlobalEntryAttribute records then .error .globalEntryAttribute
    else .ok (some (p, rest))
  else if hdr.typeflag = 0x4C ∨ hdr.typeflag = 0x4B then
    if (if hdr.typeflag = 0x4C then p.longName else p.longLink).isSome then .error .badLongRecord
    else do
      let (body, rest) ← readExtensionBody rest hdr.size.toNat
        (min o.maxEntryDecompressedBytes 65536)
      let value ← gnuLongValue body
      .ok (some (if hdr.typeflag = 0x4C then { p with longName := some value }
        else { p with longLink := some value }, rest))
  else if (hdr.typeflag = 0x56 ∨ hdr.typeflag = 0x41) ∧ !p.isNone then
    .error .danglingExtendedHeader
  else .ok .none

/-- The loop of `_walk`; each header takes bytes. -/
def walk (o : Options) : Nat → Bytes → Pending → List Read → Except Err (List Read)
  | 0, _, p, entries => finish p entries
  | fuel + 1, rest, p, entries =>
      if rest.length < 512 then finish p entries
      else if (rest.take 512).all fun b => b = 0 then finish p entries
      else do
        let hdr ← parseHeader (rest.take 512)
        match ← readExtension o (rest.drop 512) hdr p with
        | some (p, rest) => walk o fuel rest p entries
        | .none => do
            let (entry, rest) ← readEntry o entries.length (rest.take 512) (rest.drop 512) hdr p
            walk o fuel rest .none (entries ++ [entry])

/-- `_walk` over the bytes of the source. -/
def walkAll (o : Options) (bytes : Bytes) : Except Err (List Read) :=
  if o.maxTotalDecompressedBytes < bytes.length then .error .sourceTooLarge
  else walk o bytes.length bytes .none []

/-- `_classifyEntry`. -/
def Read.type (e : Read) : TarExtract.EntryType :=
  if e.gnuSparse then .unknown
  else if e.slashDirectory then .directory
  else TarExtract.classifyTypeflag (UInt16.ofNat e.header.typeflag.toNat)

/-- What `inspect` says of an entry. -/
structure Listed where
  name : Text
  type : TarExtract.EntryType
  size : Nat
  mode : Int
  mtime : Double

def Read.listed (e : Read) : Listed := ⟨e.name, e.type, e.size, e.header.mode, e.mtime⟩

def Read.guardEntry (e : Read) : GuardEntry :=
  ⟨e.name, e.size, e.type = .symlink, e.type = .hardlink, e.linkname, e.type = .directory,
    e.header.mode⟩

/-- `inspect`. -/
def inspect (o : Options) (bytes : Bytes) : Except Err (List Listed) :=
  (walkAll o bytes).map fun entries => entries.map Read.listed

/-- The loop of `extractEntries`, with links refused. -/
def extractLoop (o : Options) : Nat → List Read → Except Err (List (Text × Bytes))
  | _, [] => .ok []
  | total, e :: rest =>
      if e.type = .directory then extractLoop o total rest
      else if e.type ≠ .file then .error .entryTypeRefused
      else if o.maxTotalDecompressedBytes < total + e.body.length then .error .totalTooLarge
      else do
        let more ← extractLoop o (total + e.body.length) rest
        .ok ((e.name, e.body) :: more)

/-- `extractEntries`: what it yields. -/
def extractEntries (o : Options) (bytes : Bytes) : Except Err (List (Text × Bytes)) := do
  let entries ← walkAll o bytes
  if o.guardRefuses (entries.map Read.guardEntry) then .error .guardRefused
  else extractLoop o 0 entries

end Blamejs.Tar
