import Blamejs.Proofs.TarFields

/-!
# What the tar builder writes, read back

Each header of the builder is read where the last body ended (`walk_header`), with the records
in front of it where the name or the size needed them (`walk_entry`), and a run of entries by
induction (`walk_entries`). A file whose name ends in a slash is the one the reader takes for
something else, and the one entry it refuses; a mode of 0 is the one option the builder does
not keep.
-/

namespace Blamejs.Tar

open Blamejs.Js Checked

variable {o : Options} {e : Entry} {h : HeaderOf} {block bytes rest body : Bytes} {hdr : Header}
variable {acc : List Read} {fuel : Nat} {p : Pending}

/-! ## Blocks -/

theorem length_padBlock (buf : Bytes) : (padBlock buf).length = paddedSize buf.length := by
  rw [padBlock, List.length_append, List.length_replicate, blockSize, paddedSize]
  omega

theorem padBlock_take (buf rest : Bytes) : (padBlock buf ++ rest).take buf.length = buf := by
  rw [padBlock, List.append_assoc, List.take_left' rfl]

theorem padBlock_drop (buf rest : Bytes) :
    (padBlock buf ++ rest).drop (paddedSize buf.length) = rest :=
  List.drop_left' (length_padBlock buf)

theorem padBlock_long (buf rest : Bytes) :
    ¬ (padBlock buf ++ rest).length < paddedSize buf.length := by
  rw [List.length_append, length_padBlock]
  omega

/-- One header of the builder is read. -/
theorem walk_header (hnul : '\x00' ∉ h.name) (hbuilt : buildUstarHeader h = .ok block) :
    ∃ hdr, ReadsBack h hdr ∧ hasGnuMagic block = false ∧ block.length = 512 ∧
      ∀ fuel rest p acc, walk o (fuel + 1) (block ++ rest) p acc =
        readExtension o rest hdr p >>= fun found => match found with
          | some (p, rest) => walk o fuel rest p acc
          | .none => readEntry o acc.length block rest hdr p >>= fun x =>
              walk o fuel x.2 .none (acc ++ [x.1]) := by
  obtain ⟨hlen, hfull, hgnu, hdr, hparse, hreads⟩ := parseHeader_built hnul hbuilt
  refine ⟨hdr, hreads, hgnu, hlen, fun fuel rest p acc => ?_⟩
  have htake : (block ++ rest).take 512 = block := List.take_left' hlen
  have hdrop : (block ++ rest).drop 512 = rest := List.drop_left' hlen
  rw [walk, if_neg (by rw [List.length_append]; omega), htake, hdrop,
    if_neg (by rw [hfull]; decide), hparse]
  rfl

/-! ## What comes before the header of an entry -/

theorem toText_path : toText (ascii "path") = "path".toList := toText_encode "path".toList

theorem toText_size : toText (ascii "size") = "size".toList := toText_encode "size".toList

/-- The records of an entry, read. -/
def Entry.records (e : Entry) : Records :=
  (e.paxRecords.map fun r => (toText r.1, toText r.2)).reverse

theorem records_eq (e : Entry) : e.records =
    (if ustarSizeMax < e.body.length then
      [("size".toList, toText (decimal e.body.length))] else []) ++
    if ustarNameSplit e.name = none then [("path".toList, e.name)] else [] := by
  rw [Entry.records, Entry.paxRecords]
  split <;> split <;> simp [toText_path, toText_size, toText_encode]

/-- What was read of an entry before its header. -/
def Entry.pending (e : Entry) : Pending :=
  if e.paxRecords = [] then .none else ⟨some e.records, .none, .none⟩

theorem pending_long (e : Entry) : e.pending.longName = none ∧ e.pending.longLink = none := by
  rw [Entry.pending]
  split <;> exact ⟨rfl, rfl⟩

theorem pending_records (e : Entry) : e.pending.pax.getD [] = e.records := by
  rw [Entry.pending]
  split
  · next hnone =>
      rw [Entry.records, hnone]
      rfl
  · rfl

theorem pending_lookup (e : Entry) (key : Text) :
    (e.pending.pax.bind fun records => records.lookup key) = e.records.lookup key := by
  rw [← pending_records]
  cases e.pending.pax <;> rfl

theorem builtKey_records (hnul : '\x00' ∉ e.name) : ∀ r ∈ e.paxRecords, BuiltKey r.1 r.2 := by
  intro r hr
  rw [Entry.paxRecords, List.mem_append] at hr
  rcases hr with hr | hr
  · split at hr
    · rw [List.mem_singleton.mp hr]
      exact Or.inl ⟨rfl, encode_zero hnul, isUtf8_encode _⟩
    · cases hr
  · split at hr
    · rw [List.mem_singleton.mp hr]
      exact Or.inr rfl
    · cases hr

/-- The body of the header before that of an entry. -/
def Entry.paxBody (e : Entry) : Bytes :=
  e.paxRecords.flatMap fun (key, value) => buildPaxRecord key value

theorem length_le_flatMap {α β : Type} {f : α → List β} (hf : ∀ a, f a ≠ []) (l : List α) :
    l.length ≤ (l.flatMap f).length := by
  induction l with
  | nil => exact Nat.le_refl 0
  | cons a l ih =>
      have := List.length_pos_iff.mpr (hf a)
      rw [List.flatMap_cons, List.length_append, List.length_cons]
      omega

theorem buildPaxRecord_ne_nil (key value : Bytes) : buildPaxRecord key value ≠ [] := by
  obtain ⟨len, hrecord, -⟩ := buildPaxRecord_eq key value
  rw [hrecord]
  simp

theorem readExtension_pax (hnul : '\x00' ∉ e.name) (hflag : hdr.typeflag = 0x78)
    (hsize : hdr.size = e.paxBody.length) (hsome : e.paxRecords ≠ [])
    (hcap : e.paxBody.length ≤ o.maxEntryDecompressedBytes) :
    readExtension o (padBlock e.paxBody ++ rest) hdr .none = .ok (some (e.pending, rest)) := by
  have hcount : e.paxRecords.length ≤ e.paxBody.length := by
    rw [Entry.paxBody]
    exact length_le_flatMap (fun ⟨key, value⟩ => buildPaxRecord_ne_nil key value) _
  rw [readExtension, hflag, if_pos (Or.inl rfl), hsize]
  refine bind_eq_ok.mpr ⟨(e.paxBody, rest), ?_, ?_⟩
  · rw [readExtensionBody, Int.toNat_natCast, if_neg (Nat.not_lt.mpr hcap),
      if_neg (padBlock_long _ _), padBlock_take, padBlock_drop]
  · refine bind_eq_ok.mpr ⟨_, parsePaxRecords_built (builtKey_records hnul) hcount [], ?_⟩
    rw [if_pos (by decide), if_neg (by simp [Pending.none]), Entry.pending, if_neg hsome,
      List.append_nil]
    rfl

/-! ## Entries -/

/-- An entry that a call adds. -/
structure Added (e : Entry) : Prop where
  name : '\x00' ∉ e.name
  mode : e.mode ≠ 0
  body : e.directory = true → e.body = []

/-- A file whose name ends in a slash. -/
def Entry.slashFile (e : Entry) : Bool := !e.directory && e.name.getLast? = some '/'

/-- What is read of an entry. -/
structure Back (e : Entry) (r : Read) : Prop where
  name : r.name = e.name
  size : r.size = e.body.length
  body : r.body = e.body
  mtime : r.mtime = Double.ofInt e.mtime
  linkname : r.linkname = []
  gnuSparse : r.gnuSparse = false
  slashDirectory : r.slashDirectory = e.slashFile
  mode : r.header.mode = e.mode
  typeflag : r.header.typeflag = e.typeflag

/-- The header of an entry. -/
def Entry.header (e : Entry) : HeaderOf :=
  ⟨e.name, e.mode, e.uid, e.gid, min e.body.length ustarSizeMax, e.mtime, e.typeflag, e.uname,
    e.gname⟩

theorem entrySize_built (hreads : ReadsBack e.header hdr)
    (hsafe : (e.body.length : Int) ≤ maxSafe) :
    ∃ paxSize, entrySize hdr e.pending = .ok (e.body.length, paxSize) ∧
      ((hdr.size ≠ 0 ∨ paxSize ≠ 0) ↔ e.body ≠ []) := by
  rw [entrySize, pending_lookup, records_eq]
  have hsize := hreads.size
  rw [Entry.header] at hsize
  dsimp only at hsize
  by_cases hlarge : ustarSizeMax < e.body.length
  · have hne : e.body ≠ [] := by
      intro hnil
      rw [hnil] at hlarge
      cases hlarge
    refine ⟨e.body.length, ?_, ?_⟩
    · rw [if_pos hlarge]
      show (paxSize (toText (decimal e.body.length)) >>= fun size => Except.ok (size, size)) = _
      rw [paxSize_decimal hsafe]
      rfl
    · have := List.length_pos_iff.mpr hne
      exact ⟨fun _ => hne, fun _ => Or.inr (by omega)⟩
  · refine ⟨0, ?_, ?_⟩
    · have hlookup : List.lookup "size".toList
          (if ustarNameSplit e.name = none then [("path".toList, e.name)] else []) = none := by
        split <;> rfl
      rw [if_neg hlarge, List.nil_append, hlookup, hsize, Nat.min_eq_left (Nat.not_lt.mp hlarge)]
      rfl
    · rw [hsize, Nat.min_eq_left (Nat.not_lt.mp hlarge)]
      simp [List.length_eq_zero_iff]

theorem keys_records (e : Entry) : ∀ r ∈ e.records, r.1 = "path".toList ∨ r.1 = "size".toList := by
  intro r hr
  rw [records_eq, List.mem_append] at hr
  rcases hr with hr | hr
  · split at hr
    · rw [List.mem_singleton.mp hr]
      exact Or.inr rfl
    · cases hr
  · split at hr
    · rw [List.mem_singleton.mp hr]
      exact Or.inl rfl
    · cases hr

theorem lookup_records (e : Entry) {key : Text} (hpath : key ≠ "path".toList)
    (hsize : key ≠ "size".toList) : e.records.lookup key = none := by
  rw [List.lookup_eq_none_iff]
  intro r hr
  rcases keys_records e r hr with heq | heq
  · simpa [heq] using hpath
  · simpa [heq] using hsize

theorem value_none (e : Entry) {key : String} (hpath : key.toList ≠ "path".toList)
    (hsize : key.toList ≠ "size".toList) : e.pending.value key = none := by
  rw [Pending.value, pending_lookup, lookup_records e hpath hsize]
  rfl

theorem value_path (e : Entry) :
    e.pending.value "path" = if ustarNameSplit e.name = none then some e.name else none := by
  have hne : ustarNameSplit e.name = none → e.name ≠ [] := by
    intro hsplit hnil
    rw [hnil] at hsplit
    cases hsplit
  rw [Pending.value, pending_lookup, records_eq]
  by_cases hsplit : ustarNameSplit e.name = none
  · rw [if_pos hsplit, if_pos hsplit]
    have hpath : ("path".toList == "size".toList) = false := by decide
    split <;> simp [List.lookup_cons, hpath, hne hsplit]
  · rw [if_neg hsplit, if_neg hsplit]
    split <;> rfl

theorem no_sparse (e : Entry) :
    ((e.pending.pax.getD []).any fun (key, _) => isSparseKey key) = false := by
  rw [pending_records, List.any_eq_false]
  intro r hr
  rcases keys_records e r hr with heq | heq
  · show ¬ isSparseKey r.1 = true
    rw [heq]
    decide
  · show ¬ isSparseKey r.1 = true
    rw [heq]
    decide

theorem typeflag_facts (e : Entry) :
    (e.typeflag ∈ withoutBody ↔ e.directory = true) ∧
    (e.typeflag ∈ slashTypes ↔ e.directory = false) ∧
    isLink e.typeflag = false ∧ e.typeflag ≠ 0x53 := by
  rw [Entry.typeflag]
  cases e.directory
  · exact ⟨by decide, by decide, by decide, by decide⟩
  · exact ⟨by decide, by decide, by decide, by decide⟩

theorem paxTime_none (x : Double) : (paxTime none).getD x = x := rfl

theorem readEntry_built {count : Nat} (hadded : Added e) (hreads : ReadsBack e.header hdr)
    (hgnu : hasGnuMagic block = false) (hsafe : (e.body.length : Int) ≤ maxSafe)
    (hcap : e.body.length ≤ o.maxEntryDecompressedBytes) (hcount : count < o.maxEntries) :
    (e.slashFile = true → e.body ≠ [] →
      readEntry o count block (padBlock e.body ++ rest) hdr e.pending = .error .sizeOnNonFile) ∧
    ((e.slashFile = true → e.body = []) → ∃ r, Back e r ∧
      readEntry o count block (padBlock e.body ++ rest) hdr e.pending = .ok (r, rest)) := by
  obtain ⟨paxSize, hentry, hsized⟩ := entrySize_built hreads hsafe
  have hlinkpath : e.pending.value "linkpath" = none := value_none e (by decide) (by decide)
  have hsparseName : e.pending.value "GNU.sparse.name" = none :=
    value_none e (by decide) (by decide)
  have hmtime : (e.pending.pax.bind fun records => records.lookup "mtime".toList) = none := by
    rw [pending_lookup, lookup_records e (by decide) (by decide)]
  obtain ⟨hlongName, hlongLink⟩ := pending_long e
  have hname : (e.pending.value "path").getD hdr.name = e.name := by
    rw [value_path, hreads.name]
    by_cases hsplit : ustarNameSplit e.name = none
    · rw [if_pos hsplit, Option.getD_some]
    · rw [if_neg hsplit, Option.getD_none, readName]
      exact if_neg hsplit
  have hflag : hdr.typeflag = e.typeflag := hreads.typeflag
  obtain ⟨hwithout, hslashTypes, hnolink, hnotS⟩ := typeflag_facts e
  rw [← hflag] at hwithout hslashTypes hnolink hnotS
  have hslash : (hdr.typeflag ∈ slashTypes && e.name.getLast? = some '/') = e.slashFile := by
    rw [Entry.slashFile, Bool.eq_iff_iff, Bool.and_eq_true, decide_eq_true_eq, hslashTypes,
      Bool.and_eq_true, Bool.not_eq_true']
  have hbodyless : (hdr.typeflag ∈ withoutBody ∨ e.slashFile = true) ↔
      (e.directory = true ∨ e.slashFile = true) := or_congr_left hwithout
  have hold : oldGnuSparseFieldsSet block = false := by
    rw [oldGnuSparseFieldsSet, hgnu, Bool.false_and]
  have hread : readEntry o count block (padBlock e.body ++ rest) hdr e.pending =
      if (e.directory = true ∨ e.slashFile = true) ∧ e.body ≠ [] then .error .sizeOnNonFile
      else .ok (⟨hdr, e.name, e.body.length, Double.ofInt hdr.mtime, hdr.linkname, false,
        e.slashFile, e.body⟩, rest) := by
    rw [readEntry, hentry]
    dsimp only [bind, Except.bind]
    rw [hlinkpath, hsparseName, hlongName, hlongLink, no_sparse, hold, Option.none_or,
      Option.getD_none, hname, hslash, hmtime]
    rw [if_neg (by simp), if_neg (by simp), if_neg (by
      rintro ⟨hnone, -, hutf8⟩
      rw [hreads.nameIsUtf8] at hutf8
      cases hutf8), if_neg (by simp [hnolink])]
    by_cases hcond : (e.directory = true ∨ e.slashFile = true) ∧ e.body ≠ []
    · rw [if_pos ⟨hbodyless.mpr hcond.1, hsized.mpr hcond.2⟩, if_pos hcond]
    · rw [if_neg (fun h => hcond ⟨hbodyless.mp h.1, hsized.mp h.2⟩), if_neg hcond, if_neg (by simp),
        if_neg (Nat.not_le.mpr hcount), if_neg (Nat.not_lt.mpr hcap), if_neg (fun h => hnotS h.1),
        if_neg (padBlock_long _ _), padBlock_take, padBlock_drop, Bool.and_false, Bool.or_false,
        paxTime_none, Option.getD_none, Option.getD_none]
  refine ⟨fun hslashFile hne => ?_, fun hempty => ?_⟩
  · rw [hread, if_pos ⟨Or.inr hslashFile, hne⟩]
  · refine ⟨_, ?_, by rw [hread, if_neg (fun h => h.2 (h.1.elim hadded.body hempty))]⟩
    refine ⟨rfl, rfl, rfl, ?_, hreads.linkname, rfl, rfl, ?_, hflag⟩
    · have hmtime : hdr.mtime = e.mtime := hreads.mtime
      rw [← hmtime]
    · have hmode := hreads.mode
      rw [if_neg (show ¬ e.header.mode = 0 from hadded.mode)] at hmode
      exact hmode

/-! ## Runs of entries -/

theorem mem_utf8Prefix {c : Char} {k : Nat} {text : Text} (hc : c ∈ utf8Prefix k text) :
    c ∈ text := by
  induction text generalizing k with
  | nil => cases hc
  | cons d text ih =>
      rw [utf8Prefix] at hc
      split at hc
      · cases hc
      · rcases List.mem_cons.mp hc with rfl | hc
        · exact List.mem_cons_self
        · exact List.mem_cons_of_mem d (ih hc)

/-- What the reader's caps ask of an entry. -/
structure Within (o : Options) (e : Entry) : Prop where
  safe : (e.body.length : Int) ≤ maxSafe
  body : e.body.length ≤ o.maxEntryDecompressedBytes
  paxBody : e.paxBody.length ≤ o.maxEntryDecompressedBytes

/-- The header of an entry and its body are read. -/
theorem walk_body (hadded : Added e) (hwithin : Within o e)
    (hbuilt : buildUstarHeader e.header = .ok block)
    (hcount : acc.length < o.maxEntries) (rest : Bytes) :
    block.length = 512 ∧
    (e.slashFile = true → e.body ≠ [] → ∀ fuel,
      walk o (fuel + 1) (block ++ (padBlock e.body ++ rest)) e.pending acc =
        .error .sizeOnNonFile) ∧
    ((e.slashFile = true → e.body = []) → ∃ r, Back e r ∧ ∀ fuel,
      walk o (fuel + 1) (block ++ (padBlock e.body ++ rest)) e.pending acc =
        walk o fuel rest .none (acc ++ [r])) := by
  obtain ⟨hdr, hreads, hgnu, hlen, hwalk⟩ := @walk_header o e.header block hadded.name hbuilt
  have hentry : readExtension o (padBlock e.body ++ rest) hdr e.pending = .ok .none := by
    have hflag : hdr.typeflag = e.typeflag := hreads.typeflag
    rw [readExtension, hflag, Entry.typeflag]
    cases e.directory <;> rfl
  obtain ⟨hrefused, hread⟩ :=
    @readEntry_built o e block rest hdr acc.length hadded hreads hgnu hwithin.safe hwithin.body
      hcount
  refine ⟨hlen, fun hslash hne fuel => ?_, fun hempty => ?_⟩
  · rw [hwalk, hentry]
    show (readEntry o acc.length block (padBlock e.body ++ rest) hdr e.pending >>= _) = _
    rw [hrefused hslash hne]
    rfl
  · obtain ⟨r, hback, hok⟩ := hread hempty
    refine ⟨r, hback, fun fuel => ?_⟩
    rw [hwalk, hentry]
    show (readEntry o acc.length block (padBlock e.body ++ rest) hdr e.pending >>= _) = _
    rw [hok]
    rfl

theorem bytes_eq_ok (h : e.bytes = .ok bytes) : ∃ pax block,
    (if e.paxRecords = [] then .ok [] else
      buildPaxExtendedHeader e.paxRecords ("PaxHeader/".toList ++ utf8Prefix 80 e.name)) = .ok pax ∧
    buildUstarHeader e.header = .ok block ∧ bytes = pax ++ block ++ padBlock e.body := by
  rw [Entry.bytes] at h
  by_cases hnone : e.paxRecords = []
  · rw [if_pos hnone] at h ⊢
    obtain ⟨pax, hpax, h⟩ := bind_eq_ok.mp h
    obtain ⟨block, hbuilt, h⟩ := bind_eq_ok.mp h
    cases h
    exact ⟨pax, block, hpax, hbuilt, rfl⟩
  · rw [if_neg hnone] at h ⊢
    obtain ⟨pax, hpax, h⟩ := bind_eq_ok.mp h
    obtain ⟨block, hbuilt, h⟩ := bind_eq_ok.mp h
    cases h
    exact ⟨pax, block, hpax, hbuilt, rfl⟩

theorem walk_entry (hadded : Added e) (hwithin : Within o e) (hbytes : e.bytes = .ok bytes)
    (hcount : acc.length < o.maxEntries) (hfuel : (bytes ++ rest).length ≤ fuel) :
    (e.slashFile = true → e.body ≠ [] →
      walk o fuel (bytes ++ rest) .none acc = .error .sizeOnNonFile) ∧
    ((e.slashFile = true → e.body = []) → ∃ r fuel', Back e r ∧ rest.length ≤ fuel' ∧
      walk o fuel (bytes ++ rest) .none acc = walk o fuel' rest .none (acc ++ [r])) := by
  obtain ⟨pax, block, hpax, hbuilt, rfl⟩ := bytes_eq_ok hbytes
  obtain ⟨hlen, hrefused, hread⟩ := walk_body hadded hwithin hbuilt hcount rest
  have hsplit : pax ++ block ++ padBlock e.body ++ rest =
      pax ++ (block ++ (padBlock e.body ++ rest)) := by
    simp only [List.append_assoc]
  rw [hsplit] at hfuel ⊢
  have hstart : ∃ fuel', rest.length ≤ fuel' ∧
      walk o fuel (pax ++ (block ++ (padBlock e.body ++ rest))) .none acc =
        walk o (fuel' + 1) (block ++ (padBlock e.body ++ rest)) e.pending acc := by
    by_cases hnone : e.paxRecords = []
    · rw [if_pos hnone] at hpax
      cases hpax
      rw [Entry.pending, if_pos hnone]
      simp only [List.nil_append, List.length_append, hlen] at hfuel ⊢
      obtain ⟨fuel, rfl⟩ : ∃ n, fuel = n + 1 := ⟨fuel - 1, by omega⟩
      exact ⟨fuel, by omega, rfl⟩
    · rw [if_neg hnone] at hpax
      obtain ⟨hdrBlock, hhdr, hpax⟩ := bind_eq_ok.mp hpax
      cases hpax
      have hnul : '\x00' ∉ "PaxHeader/".toList ++ utf8Prefix 80 e.name := by
        rw [List.mem_append, not_or]
        exact ⟨by decide, fun hc => hadded.name (mem_utf8Prefix hc)⟩
      obtain ⟨hdr, hreads, -, hlen', hwalk⟩ := @walk_header o _ hdrBlock hnul hhdr
      have hsize : hdr.size = e.paxBody.length := hreads.size
      simp only [List.length_append, hlen, hlen', length_padBlock] at hfuel
      obtain ⟨fuel, rfl⟩ : ∃ n, fuel = n + 1 + 1 := ⟨fuel - 2, by omega⟩
      refine ⟨fuel, by omega, ?_⟩
      rw [List.append_assoc, hwalk]
      have hext := @readExtension_pax o e (block ++ (padBlock e.body ++ rest)) hdr hadded.name
        hreads.typeflag hsize hnone hwithin.paxBody
      rw [show (padBlock (e.paxRecords.flatMap fun (key, value) => buildPaxRecord key value) ++
        (block ++ (padBlock e.body ++ rest))) = padBlock e.paxBody ++
          (block ++ (padBlock e.body ++ rest)) from rfl, hext]
      rfl
  obtain ⟨fuel', hle, hstart⟩ := hstart
  rw [hstart]
  refine ⟨fun hslash hne => hrefused hslash hne fuel', fun hempty => ?_⟩
  obtain ⟨r, hback, hok⟩ := hread hempty
  exact ⟨r, fuel', hback, hle, hok fuel'⟩

theorem walk_end (fuel : Nat) :
    walk o fuel (List.replicate (2 * blockSize) 0) .none acc = .ok acc := by
  cases fuel with
  | zero => rfl
  | succ fuel =>
      have hzero : ((List.replicate (2 * blockSize) (0 : UInt8)).take 512).all (fun b => b = 0) =
          true := by
        rw [List.all_eq_true]
        intro b hb
        simp [List.eq_of_mem_replicate (List.mem_of_mem_take hb)]
      rw [walk, if_neg (by rw [List.length_replicate]; decide), if_pos hzero]
      rfl

theorem walk_entries {entries : List Entry} (hadded : ∀ e ∈ entries, Added e)
    (hwithin : ∀ e ∈ entries, Within o e) (hbytes : entriesBytes entries = .ok bytes)
    (hcount : acc.length + entries.length ≤ o.maxEntries)
    (hfuel : (bytes ++ List.replicate (2 * blockSize) 0).length ≤ fuel) :
    ((∃ e ∈ entries, e.slashFile = true ∧ e.body ≠ []) →
      walk o fuel (bytes ++ List.replicate (2 * blockSize) 0) .none acc = .error .sizeOnNonFile) ∧
    ((∀ e ∈ entries, e.slashFile = true → e.body = []) → ∃ rs, List.Forall₂ Back entries rs ∧
      walk o fuel (bytes ++ List.replicate (2 * blockSize) 0) .none acc = .ok (acc ++ rs)) := by
  induction entries generalizing bytes fuel acc with
  | nil =>
      cases hbytes
      refine ⟨fun ⟨e, he, _⟩ => absurd he List.not_mem_nil, fun _ => ⟨[], .nil, ?_⟩⟩
      rw [List.nil_append, walk_end, List.append_nil]
  | cons e entries ih =>
      obtain ⟨front, hfront, hbytes⟩ := bind_eq_ok.mp hbytes
      obtain ⟨more, hmore, hbytes⟩ := bind_eq_ok.mp hbytes
      cases hbytes
      obtain ⟨hadd, hadded⟩ := List.forall_mem_cons.mp hadded
      obtain ⟨hin, hwithin⟩ := List.forall_mem_cons.mp hwithin
      rw [List.length_cons] at hcount
      rw [List.append_assoc] at hfuel ⊢
      obtain ⟨hrefused, hread⟩ := @walk_entry o e front
        (more ++ List.replicate (2 * blockSize) 0) acc fuel hadd hin hfront (by omega) hfuel
      by_cases hbad : e.slashFile = true ∧ e.body ≠ []
      · refine ⟨fun _ => hrefused hbad.1 hbad.2, fun hall => ?_⟩
        exact absurd (hall e List.mem_cons_self hbad.1) hbad.2
      · have hgood : e.slashFile = true → e.body = [] := fun hs => by
          by_contra hne
          exact hbad ⟨hs, hne⟩
        obtain ⟨r, fuel', hback, hle, hstep⟩ := hread hgood
        obtain ⟨ihbad, ihgood⟩ := @ih more (acc ++ [r]) fuel' hadded hwithin hmore
          (by rw [List.length_append, List.length_singleton]; omega) hle
        rw [hstep]
        refine ⟨fun ⟨e', he', hs⟩ => ?_, fun hall => ?_⟩
        · rcases List.mem_cons.mp he' with rfl | he'
          · exact absurd hs hbad
          · exact ihbad ⟨e', he', hs⟩
        · obtain ⟨rs, hrs, hwalk⟩ := ihgood fun e' he' => hall e' (List.mem_cons_of_mem e he')
          exact ⟨r :: rs, .cons hback hrs, by rw [hwalk, List.append_assoc]; rfl⟩

/-! ## Calls -/

def Call.mode : Call → Option Nat
  | .addFile _ _ opts => opts.mode
  | .addDirectory _ opts => opts.mode

def Entry.type (e : Entry) : TarExtract.EntryType := if e.directory then .directory else .file

/-- What the listing should say of an entry that a call added. -/
def Call.asked (c : Call) (e : Entry) : Listed :=
  ⟨e.name, e.type, e.body.length, c.mode.getD e.mode, Double.ofInt e.mtime⟩

/-- What the guard should be told of an entry. -/
def Entry.guardEntry (e : Entry) : GuardEntry :=
  ⟨e.name, e.body.length, false, false, [], e.directory, e.mode⟩

/-- The files among the entries, with their bytes. -/
def files (entries : List Entry) : List (Text × Bytes) :=
  (entries.filter fun e => !e.directory).map fun e => (e.name, e.body)

/-- What was added fits in the reader's caps. -/
structure Fits (o : Options) (entries : List Entry) (bytes : Bytes) : Prop where
  within : ∀ e ∈ entries, Within o e
  count : entries.length ≤ o.maxEntries
  total : bytes.length ≤ o.maxTotalDecompressedBytes

theorem normalizeName_nul {name normalized : Text} (h : normalizeName name = .ok normalized) :
    '\x00' ∉ normalized := by
  rw [normalizeName] at h
  split at h
  · cases h
  · split at h
    · cases h
    · next hnul =>
        split at h
        · cases h
        · dsimp only at h
          split at h
          · cases h
          · cases h
            intro hmem
            have hmem := (List.dropWhile_sublist _).subset hmem
            obtain ⟨c, hc, heq⟩ := List.mem_map.mp hmem
            split at heq
            · cases heq
            · exact hnul (heq ▸ hc)

theorem orDefault_some (n fallback : Nat) :
    orDefault (some n) fallback = if n = 0 then fallback else n := by
  by_cases hn : n = 0 <;> simp [orDefault, Option.filter, hn]

theorem orDefault_ne_zero {given : Option Nat} {fallback : Nat} (h : fallback ≠ 0) :
    orDefault given fallback ≠ 0 := by
  cases given with
  | none => exact h
  | some n =>
      rw [orDefault_some]
      split
      · exact h
      · assumption

theorem added_of_call {c : Call} (h : c.entry = .ok e) : Added e := by
  cases c with
  | addFile name content opts =>
      obtain ⟨normalized, hname, h⟩ := bind_eq_ok.mp h
      cases h
      exact ⟨normalizeName_nul hname, orDefault_ne_zero (by decide), fun hdir => nomatch hdir⟩
  | addDirectory name opts =>
      obtain ⟨normalized, hname, h⟩ := bind_eq_ok.mp h
      cases h
      refine ⟨?_, orDefault_ne_zero (by decide), fun _ => rfl⟩
      have hnul := normalizeName_nul hname
      dsimp only
      split
      · exact hnul
      · rw [List.mem_append, not_or]
        exact ⟨hnul, by decide⟩

/-- A mode is kept, unless it is an explicit 0. -/
theorem mode_of_call {c : Call} (h : c.entry = .ok e) :
    c.mode.getD e.mode = e.mode ↔ c.mode ≠ some 0 := by
  have hkept : ∀ {given : Option Nat} {fallback : Nat}, fallback ≠ 0 →
      (given.getD (orDefault given fallback) = orDefault given fallback ↔ given ≠ some 0) := by
    intro given fallback hne
    cases given with
    | none => exact ⟨fun _ => by simp, fun _ => rfl⟩
    | some n =>
        rw [orDefault_some, Option.getD_some]
        by_cases hn : n = 0
        · simpa [hn] using hne.symm
        · simp [hn]
  cases c with
  | addFile name content opts =>
      obtain ⟨normalized, hname, h⟩ := bind_eq_ok.mp h
      cases h
      exact hkept (by decide)
  | addDirectory name opts =>
      obtain ⟨normalized, hname, h⟩ := bind_eq_ok.mp h
      cases h
      exact hkept (by decide)

theorem addAll_ok {calls : List Call} {entries : List Entry} (h : addAll calls = .ok entries) :
    List.Forall₂ (fun c e => Call.entry c = .ok e) calls entries := by
  induction calls generalizing entries with
  | nil =>
      cases h
      exact .nil
  | cons c calls ih =>
      obtain ⟨e, he, h⟩ := bind_eq_ok.mp h
      obtain ⟨more, hmore, h⟩ := bind_eq_ok.mp h
      cases h
      exact .cons he (ih hmore)

theorem added_all {calls : List Call} {entries : List Entry}
    (h : List.Forall₂ (fun c e => Call.entry c = .ok e) calls entries) :
    ∀ e ∈ entries, Added e := by
  induction h with
  | nil => exact fun e he => absurd he List.not_mem_nil
  | cons hcall _ ih => exact List.forall_mem_cons.mpr ⟨added_of_call hcall, ih⟩

theorem type_of_back {r : Read} (hback : Back e r) :
    r.type = if e.slashFile then .directory else e.type := by
  rw [Read.type, hback.gnuSparse, hback.slashDirectory, hback.typeflag, Entry.type, Entry.typeflag]
  cases e.slashFile <;> cases e.directory <;> rfl

/-- What is listed of an entry is what its call asked for, with two exceptions. -/
theorem listed_iff {c : Call} {r : Read} (hcall : c.entry = .ok e) (hback : Back e r) :
    r.listed = c.asked e ↔ c.mode ≠ some 0 ∧ e.slashFile = false := by
  rw [Read.listed, Call.asked, hback.name, hback.size, hback.mode, hback.mtime,
    type_of_back hback, ← mode_of_call hcall, Listed.mk.injEq]
  have htype : (if e.slashFile = true then TarExtract.EntryType.directory else e.type) = e.type ↔
      e.slashFile = false := by
    rw [Entry.type, Entry.slashFile]
    cases e.directory
    · by_cases hlast : e.name.getLast? = some '/' <;> simp [hlast]
    · simp
  constructor
  · intro ⟨_, hsame, _, hmode, _⟩
    exact ⟨(Int.ofNat_inj.mp hmode).symm, htype.mp hsame⟩
  · intro ⟨hmode, hslash⟩
    exact ⟨rfl, htype.mpr hslash, rfl, by rw [hmode], rfl⟩

theorem guardEntry_of_back {r : Read} (hback : Back e r) (hslash : e.slashFile = false) :
    r.guardEntry = e.guardEntry := by
  rw [Read.guardEntry, Entry.guardEntry, hback.name, hback.size, hback.linkname, hback.mode,
    type_of_back hback, hslash, Entry.type]
  cases e.directory <;> rfl

theorem guardEntries_back {entries : List Entry} {rs : List Read}
    (hback : List.Forall₂ Back entries rs) (hslash : ∀ e ∈ entries, e.slashFile = false) :
    rs.map Read.guardEntry = entries.map Entry.guardEntry := by
  induction hback with
  | nil => rfl
  | cons hr _ ih =>
      obtain ⟨hslashFile, hslash⟩ := List.forall_mem_cons.mp hslash
      rw [List.map_cons, List.map_cons, guardEntry_of_back hr hslashFile, ih hslash]

theorem extractLoop_back {entries : List Entry} {rs : List Read} {total : Nat}
    (hback : List.Forall₂ Back entries rs) (hslash : ∀ e ∈ entries, e.slashFile = false)
    (hdirs : ∀ e ∈ entries, Added e)
    (htotal : total + (entries.map fun e => e.body.length).sum ≤ o.maxTotalDecompressedBytes) :
    extractLoop o total rs = .ok (files entries) := by
  induction hback generalizing total with
  | nil => rfl
  | @cons e r entries rs hr _ ih =>
      obtain ⟨hslashFile, hslash⟩ := List.forall_mem_cons.mp hslash
      obtain ⟨hadded, hdirs⟩ := List.forall_mem_cons.mp hdirs
      have htype := type_of_back hr
      rw [hslashFile, if_neg Bool.false_ne_true, Entry.type] at htype
      rw [List.map_cons, List.sum_cons] at htotal
      rw [extractLoop, htype]
      by_cases hdir : e.directory = true
      · rw [if_pos hdir, if_pos rfl, ih hslash hdirs (by omega), files, files,
          List.filter_cons_of_neg (by simp [hdir])]
      · rw [if_neg hdir, if_neg (by decide), if_neg (by decide), hr.body, if_neg (by omega)]
        refine bind_eq_ok.mpr ⟨_, ih hslash hdirs (by omega), ?_⟩
        rw [files, files, List.filter_cons_of_pos (by simpa using hdir), List.map_cons, hr.name]

theorem bodies_le {entries : List Entry} (h : entriesBytes entries = .ok bytes) :
    (entries.map fun e => e.body.length).sum ≤ bytes.length := by
  induction entries generalizing bytes with
  | nil => exact Nat.zero_le _
  | cons e entries ih =>
      obtain ⟨front, hfront, h⟩ := bind_eq_ok.mp h
      obtain ⟨more, hmore, h⟩ := bind_eq_ok.mp h
      cases h
      obtain ⟨pax, block, -, -, rfl⟩ := bytes_eq_ok hfront
      have hle := ih hmore
      have hpad : e.body.length ≤ (padBlock e.body).length := by
        rw [padBlock, List.length_append]
        omega
      rw [List.map_cons, List.sum_cons, List.length_append, List.length_append]
      omega

theorem listed_all {calls : List Call} {entries : List Entry} {rs : List Read}
    (hcalls : List.Forall₂ (fun c e => Call.entry c = .ok e) calls entries)
    (hback : List.Forall₂ Back entries rs) :
    rs.map Read.listed = List.zipWith Call.asked calls entries ↔
      (∀ c ∈ calls, c.mode ≠ some 0) ∧ ∀ e ∈ entries, e.slashFile = false := by
  induction hcalls generalizing rs with
  | nil =>
      cases hback
      simp
  | @cons c e calls entries hcall _ ih =>
      cases hback with
      | @cons _ r _ rs hr hrs =>
          rw [List.map_cons, List.zipWith_cons_cons, List.cons.injEq, listed_iff hcall hr, ih hrs,
            List.forall_mem_cons, List.forall_mem_cons]
          exact ⟨fun ⟨⟨h1, h2⟩, h3, h4⟩ => ⟨⟨h1, h3⟩, h2, h4⟩,
            fun ⟨⟨h1, h3⟩, h2, h4⟩ => ⟨⟨h1, h2⟩, h3, h4⟩⟩

/-- What was added is read back as it was asked for, the listing and the bytes, exactly if no
call gave the mode 0, no file's name ends in a slash and the archive guard is content. -/
theorem read_back {calls : List Call} {entries : List Entry} (hcalls : addAll calls = .ok entries)
    (hbuilt : toBuffer entries = .ok bytes) (hfits : Fits o entries bytes) :
    (inspect o bytes = .ok (List.zipWith Call.asked calls entries) ∧
      extractEntries o bytes = .ok (files entries)) ↔
    (∀ c ∈ calls, c.mode ≠ some 0) ∧ (∀ e ∈ entries, e.slashFile = false) ∧
      o.guardRefuses (entries.map Entry.guardEntry) = false := by
  have hpairs := addAll_ok hcalls
  have hadded := added_all hpairs
  obtain ⟨front, hfront, hbuilt⟩ := bind_eq_ok.mp hbuilt
  cases hbuilt
  obtain ⟨hbad, hgood⟩ := @walk_entries o front [] _ entries hadded hfits.within hfront
    (by simpa using hfits.count) (Nat.le_refl _)
  have hall : walkAll o (front ++ List.replicate (2 * blockSize) 0) =
      walk o (front ++ List.replicate (2 * blockSize) 0).length
        (front ++ List.replicate (2 * blockSize) 0) .none [] := by
    rw [walkAll, if_neg (Nat.not_lt.mpr hfits.total)]
  by_cases hrefused : ∃ e ∈ entries, e.slashFile = true ∧ e.body ≠ []
  · obtain ⟨e, he, hslash, -⟩ := id hrefused
    refine ⟨fun h => ?_, fun h => ?_⟩
    · have hinspect := h.1
      rw [inspect, hall, hbad hrefused] at hinspect
      cases hinspect
    · rw [h.2.1 e he] at hslash
      cases hslash
  · have hempty : ∀ e ∈ entries, e.slashFile = true → e.body = [] := by
      intro e he hslash
      by_contra hne
      exact hrefused ⟨e, he, hslash, hne⟩
    obtain ⟨rs, hback, hwalk⟩ := hgood hempty
    rw [List.nil_append] at hwalk
    have hlisted := listed_all hpairs hback
    rw [inspect, extractEntries, hall, hwalk]
    have hinspect : (Except.ok rs : Except Err (List Read)).map
        (fun entries => entries.map Read.listed) =
        .ok (List.zipWith Call.asked calls entries) ↔
          rs.map Read.listed = List.zipWith Call.asked calls entries :=
      ⟨fun h => Except.ok.inj h, fun h => congrArg Except.ok h⟩
    rw [hinspect, hlisted, and_assoc]
    refine and_congr_right fun _ => and_congr_right fun hslash => ?_
    have hguard := guardEntries_back hback hslash
    show (if o.guardRefuses (rs.map Read.guardEntry) = true then Except.error Err.guardRefused
      else extractLoop o 0 rs) = _ ↔ _
    rw [hguard]
    cases hrefuses : o.guardRefuses (entries.map Entry.guardEntry) with
    | true => simp
    | false =>
        have htotal := bodies_le hfront
        have hcap := hfits.total
        rw [List.length_append] at hcap
        simp only [Bool.false_eq_true, if_false, iff_true]
        exact extractLoop_back hback hslash hadded (by omega)

def plainOpts : Opts := ⟨none, 1700000000, 0, 0, [], []⟩

def roomy : Options := ⟨100, 10000, 10000, fun _ => false⟩

/-- The builder and the reader's caps take these entries. -/
theorem fits_of_run {entries : List Entry} (hwithin : ∀ e ∈ entries, Within roomy e)
    (hcount : entries.length ≤ 100)
    (hrun : (toBuffer entries).toOption.any (fun bytes => bytes.length ≤ 10000) = true) :
    ∃ bytes, toBuffer entries = .ok bytes ∧ Fits roomy entries bytes := by
  obtain ⟨bytes, hbytes, hlen⟩ := Option.any_eq_true _ _ |>.mp hrun
  exact ⟨bytes, ok_of_toOption hbytes, hwithin, hcount,
    (by simpa using hlen : bytes.length ≤ 10000)⟩

def dirEntry : Entry := ⟨"d/".toList, true, [], 0o755, 1700000000, 0, 0, [], []⟩

def noteEntry : Entry := ⟨"d/a".toList, false, [1, 2, 3], 0o644, 1700000000, 0, 0, [], []⟩

theorem read_back_note : ∃ bytes,
    addAll [.addDirectory "d".toList plainOpts, .addFile "d/a".toList [1, 2, 3] plainOpts] =
      .ok [dirEntry, noteEntry] ∧ toBuffer [dirEntry, noteEntry] = .ok bytes ∧
    extractEntries roomy bytes = .ok [("d/a".toList, [1, 2, 3])] := by
  have hadd : addAll [.addDirectory "d".toList plainOpts,
      .addFile "d/a".toList [1, 2, 3] plainOpts] =
      .ok [dirEntry, noteEntry] := by rfl
  have hdir : Within roomy dirEntry := ⟨by decide, by decide, by decide⟩
  have hnote : Within roomy noteEntry := ⟨by decide, by decide, by decide⟩
  obtain ⟨bytes, hbuilt, hfits⟩ := fits_of_run
    (List.forall_mem_cons.mpr ⟨hdir, List.forall_mem_singleton.mpr hnote⟩) (by decide)
    (by decide +kernel)
  exact ⟨bytes, hadd, hbuilt, ((read_back hadd hbuilt hfits).mpr ⟨by decide, by decide, rfl⟩).2⟩

def slashEntry : Entry := ⟨"a/".toList, false, [0x78], 0o644, 1700000000, 0, 0, [], []⟩

/-- A file whose name ends in a slash is refused by the reader. -/
theorem slash_file_refused : ∃ bytes,
    addAll [.addFile "a/".toList [0x78] plainOpts] = .ok [slashEntry] ∧
    toBuffer [slashEntry] = .ok bytes ∧ Fits roomy [slashEntry] bytes ∧
    inspect roomy bytes = .error .sizeOnNonFile := by
  have hadd : addAll [.addFile "a/".toList [0x78] plainOpts] = .ok [slashEntry] := by rfl
  have hslash : Within roomy slashEntry := ⟨by decide, by decide, by decide⟩
  obtain ⟨bytes, hbuilt, hfits⟩ := fits_of_run (List.forall_mem_singleton.mpr hslash) (by decide)
    (by decide +kernel)
  refine ⟨bytes, hadd, hbuilt, hfits, ?_⟩
  obtain ⟨front, hfront, hrest⟩ := bind_eq_ok.mp hbuilt
  cases hrest
  have hrefused := (@walk_entries roomy front [] _ [slashEntry] (added_all (addAll_ok hadd))
    hfits.within hfront (by decide) (Nat.le_refl _)).1
      ⟨slashEntry, List.mem_cons_self, by decide, by decide⟩
  rw [inspect, walkAll, if_neg (Nat.not_lt.mpr hfits.total), hrefused]
  rfl

end Blamejs.Tar
