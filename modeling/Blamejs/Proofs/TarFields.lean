import Blamejs.Ref.Tar
import Blamejs.Lib.Checked
import Mathlib.Data.List.TakeWhile

/-!
# What the tar reader finds in a header of the builder

Each field is read back as what was written into it: texts up to the zeros behind them,
numbers up to the space behind them, and the checksum is the sum of the other fields. A
name comes back from its two fields, and a pax record from its bytes, whose length counts
itself.
-/

namespace Blamejs.Tar

open Blamejs.Js Checked

variable {e : HeaderOf} {block bytes key value : Bytes} {text name : Text} {width n m : Nat}

/-! ## Fields -/

theorem field_skip {front back : Bytes} {n offset : Nat} (hfront : front.length = n)
    (hle : n ≤ offset) : field (front ++ back) offset width = field back (offset - n) width := by
  rw [field, field, List.drop_append, List.drop_eq_nil_of_le (by omega), List.nil_append, hfront]

theorem field_here {mid back : Bytes} {offset : Nat} (hmid : mid.length = width) (h : offset = 0) :
    field (mid ++ back) offset width = mid := by
  rw [field, h, List.drop_zero, List.take_left' hmid]

theorem takeWhile_append_stop {p : UInt8 → Bool} {front back : Bytes}
    (hfront : ∀ b ∈ front, p b = true) (hback : ∀ b ∈ back.head?, p b = false) :
    (front ++ back).takeWhile p = front := by
  rw [List.takeWhile_append_of_pos hfront]
  cases back with
  | nil => simp
  | cons b back => simp [hback b (by simp)]

/-! ## Texts -/

theorem utf8EncodeChar_zero {c : Char} (h : (0 : UInt8) ∈ String.utf8EncodeChar c) :
    c = '\x00' := by
  have hval : c.val.toNat = c.toNat := rfl
  have hto : ∀ n : Nat, UInt8.ofNat n = 0 → n % 256 = 0 := by
    intro n hn
    have := congrArg UInt8.toNat hn
    simpa using this
  rw [String.utf8EncodeChar] at h
  have hzero : c.val.toNat = 0 := by
    split at h
    · have := hto _ (List.mem_singleton.mp h).symm
      omega
    · split at h
      · simp only [List.mem_cons, List.not_mem_nil, or_false] at h
        rcases h with h | h
        all_goals
          have := hto _ h.symm
          omega
      · split at h
        · simp only [List.mem_cons, List.not_mem_nil, or_false] at h
          rcases h with h | h | h
          all_goals
            have := hto _ h.symm
            omega
        · simp only [List.mem_cons, List.not_mem_nil, or_false] at h
          rcases h with h | h | h | h
          all_goals
            have := hto _ h.symm
            omega
  exact Char.ext (UInt32.toNat_inj.mp hzero)

theorem encode_zero (h : '\x00' ∉ text) : (0 : UInt8) ∉ encode text := by
  intro hmem
  obtain ⟨c, hc, hzero⟩ := List.mem_flatMap.mp hmem
  exact h (utf8EncodeChar_zero hzero ▸ hc)

theorem toText_encode (text : Text) : toText (encode text) = text := by
  rw [toText, encode, decodeUtf8_encode, Option.getD_some]

theorem isUtf8_encode (text : Text) : isUtf8 (encode text) = true := by
  rw [isUtf8, encode, decodeUtf8_encode]
  rfl

theorem encode_eq_nil (h : encode text = []) : text = [] := by
  rw [← toText_encode text, h, ← toText_encode []]
  rfl

theorem writeString_ok (h : writeString text width = .ok bytes) :
    bytes.length = width ∧ ('\x00' ∉ text → bytes.takeWhile (· ≠ 0) = encode text) := by
  rw [writeString] at h
  split at h
  · cases h
  · next hlen =>
      cases h
      refine ⟨by rw [List.length_append, List.length_replicate]; omega, fun hnul => ?_⟩
      refine takeWhile_append_stop (fun b hb => ?_) (fun b hb => ?_)
      · have hne : b ≠ 0 := fun heq => encode_zero hnul (heq ▸ hb)
        simpa using hne
      · have hmem := List.mem_of_mem_head? hb
        simp [List.eq_of_mem_replicate hmem]

/-! ## Numbers -/

/-- A number in a base, as bytes. -/
def baseText (base n : Nat) : Bytes := (Nat.toDigits base n).map fun c => UInt8.ofNat c.toNat

def baseValue (base : Nat) (digits : Bytes) : Nat :=
  digits.foldl (fun n b => base * n + (b.toNat - 0x30)) 0

theorem baseValue_snoc (base : Nat) (ds : Bytes) (d : UInt8) :
    baseValue base (ds ++ [d]) = base * baseValue base ds + (d.toNat - 0x30) := by
  rw [baseValue, List.foldl_append]
  rfl

theorem toNat_digit : ∀ n < 10, (UInt8.ofNat n.digitChar.toNat).toNat = 0x30 + n := by decide

theorem baseText_facts {base : Nat} (hlow : 2 ≤ base) (hhigh : base ≤ 10) (n : Nat) :
    baseValue base (baseText base n) = n ∧
      ∀ b ∈ baseText base n, 0x30 ≤ b.toNat ∧ b.toNat < 0x30 + base := by
  induction n using Nat.strongRecOn with
  | ind n ih =>
      by_cases h : n < base
      · have hdigit := toNat_digit n (by omega)
        have htext : baseText base n = [UInt8.ofNat n.digitChar.toNat] := by
          rw [baseText, Nat.toDigits_of_lt_base h]
          rfl
        rw [htext, List.forall_mem_singleton, hdigit]
        refine ⟨?_, by omega⟩
        show base * 0 + _ = n
        rw [hdigit]
        omega
      · have hpos : 0 < n / base := Nat.div_pos (by omega) (by omega)
        have hmod : n % base < base := Nat.mod_lt n (by omega)
        obtain ⟨hvalue, hdigits⟩ := ih (n / base) (Nat.div_lt_self (by omega) (by omega))
        have hdigit := toNat_digit (n % base) (by omega)
        have hsplit := @Nat.toDigits_append_toDigits base (n / base) (n % base) (by omega) hpos hmod
        have hn : base * (n / base) + n % base = n := Nat.div_add_mod n base
        have htext : baseText base n =
            baseText base (n / base) ++ [UInt8.ofNat (n % base).digitChar.toNat] := by
          rw [baseText, baseText, ← hn, ← hsplit, List.map_append, Nat.toDigits_of_lt_base hmod, hn]
          rfl
        rw [htext]
        refine ⟨?_, fun b hb => ?_⟩
        · rw [baseValue_snoc, hvalue, hdigit, Nat.add_sub_cancel_left, hn]
        · rcases List.mem_append.mp hb with hb | hb
          · exact hdigits b hb
          · rw [List.mem_singleton.mp hb, hdigit]
            omega

def octalText (n : Nat) : Bytes := baseText 8 n

def isOctal (b : UInt8) : Bool := 0x30 ≤ b && b ≤ 0x37

theorem octalText_facts (n : Nat) :
    octalValue (octalText n) = n ∧ ∀ b ∈ octalText n, isOctal b = true := by
  obtain ⟨hvalue, hdigits⟩ := @baseText_facts 8 (by decide) (by decide) n
  refine ⟨hvalue, fun b hb => ?_⟩
  have hb := hdigits b hb
  simp only [isOctal, Bool.and_eq_true, decide_eq_true_eq, UInt8.le_iff_toNat_le]
  exact ⟨hb.1, Nat.le_of_lt_succ hb.2⟩

theorem octalValue_zeros (k : Nat) (ds : Bytes) :
    octalValue (List.replicate k 0x30 ++ ds) = octalValue ds := by
  induction k with
  | zero => rfl
  | succ k ih => exact ih

theorem padded_octal (k n : Nat) :
    ∀ b ∈ List.replicate k 0x30 ++ octalText n, isOctal b = true := by
  intro b hb
  rcases List.mem_append.mp hb with hb | hb
  · rw [List.eq_of_mem_replicate hb]
    rfl
  · exact (octalText_facts n).2 b hb

theorem readOctal_padded {n : Nat} {tail : Bytes} (k : Nat) (htail : tail ≠ [])
    (hblank : tail.all blank = true) :
    readOctal (List.replicate k 0x30 ++ octalText n ++ tail) = .ok n := by
  have hvalue := (octalText_facts n).1
  have hdigits := padded_octal k n
  have hvalue' := octalValue_zeros k (octalText n)
  rw [hvalue] at hvalue'
  have hne : List.replicate k 0x30 ++ octalText n ≠ [] := by simp [octalText, baseText]
  generalize List.replicate k 0x30 ++ octalText n = ds at hdigits hvalue' hne ⊢
  have hsolid : ∀ b : UInt8, isOctal b = true → (!blank b) = true ∧ (b < 0x30 || 0x37 < b) = false ∧
      (decide (b = 0x20)) = false := by
    intro b hb
    simp only [isOctal, Bool.and_eq_true, decide_eq_true_eq, UInt8.le_iff_toNat_le] at hb
    refine ⟨?_, ?_, ?_⟩
    · simp only [blank, Bool.not_eq_true', Bool.or_eq_false_iff, decide_eq_false_iff_not,
        ← UInt8.toNat_inj]
      exact ⟨by have := hb.1; simp at this ⊢; omega, by have := hb.1; simp at this ⊢; omega⟩
    · simp only [Bool.or_eq_false_iff, decide_eq_false_iff_not, UInt8.lt_iff_toNat_lt]
      omega
    · simp only [decide_eq_false_iff_not, ← UInt8.toNat_inj]
      have := hb.1
      simp at this ⊢
      omega
  obtain ⟨d, ds', rfl⟩ := List.exists_cons_of_ne_nil hne
  obtain ⟨b, tail', rfl⟩ := List.exists_cons_of_ne_nil htail
  simp only [List.all_cons, Bool.and_eq_true] at hblank
  have hskip : (d :: ds' ++ b :: tail').dropWhile (· = 0x20) = d :: ds' ++ b :: tail' := by
    rw [List.cons_append, List.dropWhile_cons, if_neg]
    rw [(hsolid d (hdigits d List.mem_cons_self)).2.2]
    exact Bool.false_ne_true
  have hall : ∀ c ∈ d :: ds', (!blank c) = true := fun c hc => (hsolid c (hdigits c hc)).1
  rw [readOctal, hskip, takeWhile_append_stop hall (by simp [hblank.1]), if_neg, if_neg, hvalue']
  · rw [List.dropWhile_append_of_pos hall, List.dropWhile_cons, if_neg (by simp [hblank.1])]
    simp only [List.drop_one, List.tail_cons, List.any_eq_true, not_exists, not_and]
    intro c hc
    simp [List.all_eq_true.mp hblank.2 c hc]
  · simp only [List.any_eq_true, not_exists, not_and]
    intro c hc
    simp only [(hsolid c (hdigits c hc)).2.1]
    exact Bool.false_ne_true

theorem writeOctal_ok (low high : Int) (hwidth : 2 ≤ width) (h : writeOctal n width = .ok bytes) :
    bytes.length = width ∧ readNumeric bytes low high = .ok n := by
  rw [writeOctal] at h
  split at h
  · cases h
  · next hlen =>
      cases h
      refine ⟨?_, ?_⟩
      · simp only [List.length_append, List.length_replicate, List.length_map,
          List.length_singleton] at hlen ⊢
        omega
      · have hread : readOctal (List.replicate (width - 1 - (octalText n).length) 0x30 ++
            octalText n ++ [0x20]) = .ok n := readOctal_padded _ (by simp) (by decide)
        have hhead : ((List.replicate (width - 1 - (octalText n).length) 0x30 ++
            octalText n ++ [0x20]).headD 0).toNat < 0x80 := by
          have hdigits := padded_octal (width - 1 - (octalText n).length) n
          generalize List.replicate (width - 1 - (octalText n).length) 0x30 ++
            octalText n = ds at hdigits
          cases ds with
          | nil => decide
          | cons d ds =>
              have hd := hdigits d List.mem_cons_self
              simp only [isOctal, Bool.and_eq_true, decide_eq_true_eq, UInt8.le_iff_toNat_le] at hd
              have hle : d.toNat ≤ 0x37 := hd.2
              show d.toNat < 0x80
              omega
        show readNumeric (List.replicate (width - 1 - (octalText n).length) 0x30 ++
          octalText n ++ [0x20]) low high = _
        rw [readNumeric, if_pos hhead, hread]
        rfl

theorem writeChecksum_ok (h : writeChecksum n = .ok bytes) :
    bytes.length = 8 ∧ readOctal bytes = .ok n := by
  rw [writeChecksum] at h
  split at h
  · cases h
  · next hlen =>
      cases h
      refine ⟨?_, ?_⟩
      · simp only [List.length_append, List.length_replicate, List.length_map, List.length_cons,
          List.length_nil] at hlen ⊢
        omega
      · exact readOctal_padded _ (by simp) (by decide)

/-! ## Headers -/

theorem slashCuts_mem {front back : Text} (h : (front, back) ∈ slashCuts text) :
    text = front ++ '/' :: back := by
  induction text generalizing front with
  | nil => cases h
  | cons c rest ih =>
      rw [slashCuts] at h
      rcases List.mem_append.mp h with h | h
      · obtain ⟨⟨front', back'⟩, hmem, heq⟩ := List.mem_map.mp h
        cases heq
        rw [ih hmem]
        rfl
      · split at h
        · next hc =>
            rw [hc]
            cases List.mem_singleton.mp h
            rfl
        · cases h

theorem ustarNameSplit_some {back front : Text} (h : ustarNameSplit text = some (back, front)) :
    (front = [] ∧ back = text) ∨ (front ≠ [] ∧ text = front ++ '/' :: back) := by
  rw [ustarNameSplit] at h
  split at h
  · cases h
    exact Or.inl ⟨rfl, rfl⟩
  · obtain ⟨⟨front', back'⟩, hfind, heq⟩ := Option.map_eq_some_iff.mp h
    cases heq
    have hcond := List.find?_some hfind
    simp only [Bool.and_eq_true, decide_eq_true_eq] at hcond
    exact Or.inr ⟨hcond.1.1.1, slashCuts_mem (List.mem_of_find?_eq_some hfind)⟩

/-- What the reader finds of the name of a header. -/
def readName (name : Text) : Text :=
  if ustarNameSplit name = none then "PaxHeader/data".toList else name

/-- What is read back of a header. -/
structure ReadsBack (e : HeaderOf) (hdr : Header) : Prop where
  name : hdr.name = readName e.name
  nameIsUtf8 : hdr.nameIsUtf8 = true
  mode : hdr.mode = if e.mode = 0 then 0o644 else (e.mode : Int)
  size : hdr.size = e.size
  mtime : hdr.mtime = e.mtime
  typeflag : hdr.typeflag = e.typeflag
  linkname : hdr.linkname = []

/-- The two fields of a name. -/
theorem split_fields {n p : Text} (hnul : '\x00' ∉ text)
    (hsplit : (ustarNameSplit text).getD ("PaxHeader/data".toList, []) = (n, p)) :
    '\x00' ∉ n ∧ '\x00' ∉ p ∧
      (if p ≠ [] then p ++ ['/'] ++ n else n) = readName text := by
  rw [readName]
  cases hname : ustarNameSplit text with
  | none =>
      rw [hname, Option.getD_none] at hsplit
      cases hsplit
      exact ⟨by decide, by decide, by rw [if_neg (by simp), if_pos rfl]⟩
  | some parts =>
      rw [hname, Option.getD_some] at hsplit
      subst hsplit
      rcases ustarNameSplit_some hname with ⟨rfl, rfl⟩ | ⟨hp, rfl⟩
      · refine ⟨hnul, by simp, ?_⟩
        rw [if_neg (fun h => h rfl), if_neg (by simp)]
      · simp only [List.mem_append, List.mem_cons, not_or] at hnul
        refine ⟨hnul.2.2, hnul.1, ?_⟩
        rw [if_pos hp, if_neg (by simp), List.append_assoc]
        rfl

theorem parseHeader_built (hnul : '\x00' ∉ e.name) (hbuilt : buildUstarHeader e = .ok block) :
    block.length = 512 ∧ (block.all fun b => b = 0) = false ∧ hasGnuMagic block = false ∧
      ∃ hdr, parseHeader block = .ok hdr ∧ ReadsBack e hdr := by
  rw [buildUstarHeader] at hbuilt
  rcases hsplit : (ustarNameSplit e.name).getD ("PaxHeader/data".toList, []) with ⟨n, p⟩
  rw [hsplit] at hbuilt
  obtain ⟨hn, hp, hjoined⟩ := split_fields hnul hsplit
  obtain ⟨name, hname, hbuilt⟩ := bind_eq_ok.mp hbuilt
  obtain ⟨mode, hmode, hbuilt⟩ := bind_eq_ok.mp hbuilt
  obtain ⟨uid, huid, hbuilt⟩ := bind_eq_ok.mp hbuilt
  obtain ⟨gid, hgid, hbuilt⟩ := bind_eq_ok.mp hbuilt
  obtain ⟨size, hsize, hbuilt⟩ := bind_eq_ok.mp hbuilt
  obtain ⟨mtime, hmtime, hbuilt⟩ := bind_eq_ok.mp hbuilt
  obtain ⟨uname, huname, hbuilt⟩ := bind_eq_ok.mp hbuilt
  obtain ⟨gname, hgname, hbuilt⟩ := bind_eq_ok.mp hbuilt
  obtain ⟨pre, hpre, hbuilt⟩ := bind_eq_ok.mp hbuilt
  obtain ⟨chksum, hchksum, hbuilt⟩ := bind_eq_ok.mp hbuilt
  obtain ⟨hnameLen, hnameText⟩ := writeString_ok hname
  obtain ⟨hunameLen, -⟩ := writeString_ok huname
  obtain ⟨hgnameLen, -⟩ := writeString_ok hgname
  obtain ⟨hpreLen, hpreText⟩ := writeString_ok hpre
  obtain ⟨hmodeLen, hmodeRead⟩ := writeOctal_ok 0 0xFFFFFFFF (by decide) hmode
  obtain ⟨huidLen, huidRead⟩ := writeOctal_ok 0 0xFFFFFFFF (by decide) huid
  obtain ⟨hgidLen, hgidRead⟩ := writeOctal_ok 0 0xFFFFFFFF (by decide) hgid
  obtain ⟨hsizeLen, hsizeRead⟩ := writeOctal_ok 0 maxSafe (by decide) hsize
  obtain ⟨hmtimeLen, hmtimeRead⟩ :=
    writeOctal_ok (-dateRangeSeconds) dateRangeSeconds (by decide) hmtime
  obtain ⟨hchksumLen, hchksumRead⟩ := writeChecksum_ok hchksum
  have hblock : block = name ++ (mode ++ (uid ++ (gid ++ (size ++ (mtime ++ (chksum ++
      ([e.typeflag] ++ (List.replicate 100 0 ++ (ascii "ustar\x00" ++ (ascii "00" ++ (uname ++
        (gname ++ (List.replicate 16 0 ++ (pre ++ List.replicate 12 0)))))))))))))) := by
    cases hbuilt
    simp only [List.append_assoc]
  have hsum : computeChecksum block = sumBytes (name ++ mode ++ uid ++ gid ++ size ++ mtime) +
      8 * 0x20 + sumBytes ([e.typeflag] ++ List.replicate 100 0 ++ ascii "ustar\x00" ++
        ascii "00" ++ uname ++ gname ++ List.replicate 16 0 ++ pre ++ List.replicate 12 0) := by
    cases hbuilt
    have hfront : (name ++ mode ++ uid ++ gid ++ size ++ mtime).length = 148 := by
      simp only [List.length_append, hnameLen, hmodeLen, huidLen, hgidLen, hsizeLen, hmtimeLen]
    have hboth : (name ++ mode ++ uid ++ gid ++ size ++ mtime ++ chksum).length = 156 := by
      rw [List.length_append, hfront, hchksumLen]
    rw [computeChecksum, List.drop_left' hboth, List.append_assoc, List.take_left' hfront]
  clear hbuilt
  have hnameField : field block 0 100 = name := by
    rw [hblock, field_here hnameLen rfl]
  have hmodeField : field block 100 8 = mode := by
    rw [hblock, field_skip hnameLen (by decide), field_here hmodeLen rfl]
  have huidField : field block 108 8 = uid := by
    rw [hblock, field_skip hnameLen (by decide), field_skip hmodeLen (by decide),
      field_here huidLen rfl]
  have hgidField : field block 116 8 = gid := by
    rw [hblock, field_skip hnameLen (by decide), field_skip hmodeLen (by decide),
      field_skip huidLen (by decide), field_here hgidLen rfl]
  have hsizeField : field block 124 12 = size := by
    rw [hblock, field_skip hnameLen (by decide), field_skip hmodeLen (by decide),
      field_skip huidLen (by decide), field_skip hgidLen (by decide), field_here hsizeLen rfl]
  have hmtimeField : field block 136 12 = mtime := by
    rw [hblock, field_skip hnameLen (by decide), field_skip hmodeLen (by decide),
      field_skip huidLen (by decide), field_skip hgidLen (by decide),
      field_skip hsizeLen (by decide), field_here hmtimeLen rfl]
  have hchksumField : field block 148 8 = chksum := by
    rw [hblock, field_skip hnameLen (by decide), field_skip hmodeLen (by decide),
      field_skip huidLen (by decide), field_skip hgidLen (by decide),
      field_skip hsizeLen (by decide), field_skip hmtimeLen (by decide),
      field_here hchksumLen rfl]
  have hback : ∀ offset width, 156 ≤ offset → field block offset width =
      field ([e.typeflag] ++ (List.replicate 100 0 ++ (ascii "ustar\x00" ++ (ascii "00" ++ (uname ++
        (gname ++ (List.replicate 16 0 ++ (pre ++ List.replicate 12 0))))))))
          (offset - 156) width := by
    intro offset width hle
    rw [hblock, field_skip hnameLen (by omega), field_skip hmodeLen (by omega),
      field_skip huidLen (by omega), field_skip hgidLen (by omega),
      field_skip hsizeLen (by omega), field_skip hmtimeLen (by omega),
      field_skip hchksumLen (by omega)]
    have hoffset : offset - 100 - 8 - 8 - 8 - 12 - 12 - 8 = offset - 156 := by omega
    rw [hoffset]
  have htypeField : field block 156 1 = [e.typeflag] := by
    rw [hback 156 1 (by decide)]
    exact @field_here 1 [e.typeflag] _ _ rfl rfl
  have hzeros : ∀ n, (List.replicate n (0 : UInt8)).length = n := fun n => List.length_replicate
  have hmagicField : field block 257 8 = ascii "ustar\x0000" := by
    rw [hback 257 8 (by decide), field_skip (n := 1) rfl (by decide),
      field_skip (hzeros 100) (by decide), ← List.append_assoc]
    exact @field_here 8 (ascii "ustar\x00" ++ ascii "00") _ _ rfl rfl
  have hmagicField' : field block 257 6 = ascii "ustar\x00" := by
    rw [hback 257 6 (by decide), field_skip (n := 1) rfl (by decide),
      field_skip (hzeros 100) (by decide)]
    exact @field_here 6 (ascii "ustar\x00") _ _ rfl rfl
  have hpreField : field block 345 155 = pre := by
    rw [hback 345 155 (by decide), field_skip (n := 1) rfl (by decide),
      field_skip (hzeros 100) (by decide), field_skip (n := 6) rfl (by decide),
      field_skip (n := 2) rfl (by decide), field_skip hunameLen (by decide),
      field_skip hgnameLen (by decide), field_skip (hzeros 16) (by decide), field_here hpreLen rfl]
  have hlinkField : fieldBytes block 157 100 = [] := by
    rw [fieldBytes, hback 157 100 (by decide), field_skip (n := 1) rfl (by decide),
      field_here (hzeros 100) rfl]
    rfl
  have hnameBytes : fieldBytes block 0 100 = encode n := by
    rw [fieldBytes, hnameField, hnameText hn]
  have hpreBytes : fieldBytes block 345 155 = encode p := by
    rw [fieldBytes, hpreField, hpreText hp]
  have hnotGnu : hasGnuMagic block = false := by
    rw [hasGnuMagic, hmagicField]
    decide
  have hnotLabel : isGnuVolumeLabelWithoutMagic block = false := by
    rw [isGnuVolumeLabelWithoutMagic, hmagicField, Bool.and_eq_false_iff]
    exact Or.inr (by decide)
  have hlength : block.length = 512 := by
    rw [hblock]
    simp only [List.length_append, hnameLen, hmodeLen, huidLen, hgidLen, hsizeLen, hmtimeLen,
      hchksumLen, hunameLen, hgnameLen, hpreLen, List.length_replicate, List.length_singleton]
    decide
  have hmode' : readNumeric (field block 100 8) 0 0xFFFFFFFF =
      .ok ((if e.mode = 0 then 0o644 else e.mode : Nat) : Int) := by rw [hmodeField, hmodeRead]
  have hname' : (if (decide (encode p ≠ [])) = true then
      toText (encode p) ++ ['/'] ++ toText (encode n) else toText (encode n)) =
        readName e.name := by
    rw [← hjoined, toText_encode, toText_encode]
    by_cases hempty : p = []
    · subst hempty
      rfl
    · rw [if_pos hempty, if_pos]
      exact decide_eq_true fun h => hempty (encode_eq_nil h)
  refine ⟨hlength, ?_, hnotGnu, ⟨readName e.name, true,
    ((if e.mode = 0 then 0o644 else e.mode : Nat) : Int), e.uid, e.gid, e.size, e.mtime, e.typeflag,
    toText (fieldBytes block 157 100), isUtf8 (fieldBytes block 157 100),
    toText (fieldBytes block 265 32), toText (fieldBytes block 297 32)⟩, ?_, ?_⟩
  · rw [Bool.eq_false_iff]
    intro hall
    have hmem : ∀ b ∈ field block 257 8, b = 0 := fun b hb => by
      simpa using List.all_eq_true.mp hall b (List.mem_of_mem_drop (List.mem_of_mem_take hb))
    rw [hmagicField] at hmem
    exact absurd (hmem 0x75 (by decide)) (by decide)
  · rw [parseHeader, hnotGnu, hnotLabel, hmagicField']
    dsimp only
    rw [if_neg (by simp), hchksumField, hchksumRead]
    refine bind_eq_ok.mpr ⟨_, rfl, ?_⟩
    rw [if_neg (by rw [hsum]; exact fun h => h rfl), hnameBytes, hpreBytes]
    refine bind_eq_ok.mpr ⟨_, hmode', bind_eq_ok.mpr ⟨_, by rw [huidField, huidRead],
      bind_eq_ok.mpr ⟨_, by rw [hgidField, hgidRead],
      bind_eq_ok.mpr ⟨_, by rw [hsizeField, hsizeRead],
      bind_eq_ok.mpr ⟨_, by rw [hmtimeField, hmtimeRead], ?_⟩⟩⟩⟩⟩
    rw [htypeField]
    refine congrArg Except.ok (congrArg₂
      (fun name isText => Header.mk name isText _ _ _ _ _ _ _ _ _ _) ?_ ?_)
    · simpa using hname'
    · rw [isUtf8_encode, isUtf8_encode, Bool.or_true, Bool.and_true]
  · refine ⟨rfl, rfl, ?_, rfl, rfl, rfl, ?_⟩
    · dsimp only
      split <;> rfl
    · dsimp only
      rw [hlinkField]
      decide

/-! ## Decimal numbers -/

theorem decimal_facts (n : Nat) :
    decimalValue (decimal n) = n ∧ ∀ b ∈ decimal n, isDigit b = true := by
  obtain ⟨hvalue, hdigits⟩ := @baseText_facts 10 (by decide) (by decide) n
  refine ⟨hvalue, fun b hb => ?_⟩
  have hb := hdigits b hb
  simp only [isDigit, Bool.and_eq_true, decide_eq_true_eq, UInt8.le_iff_toNat_le]
  exact ⟨hb.1, Nat.le_of_lt_succ hb.2⟩

theorem length_decimal (n : Nat) : (decimal n).length = (Nat.toDigits 10 n).length :=
  List.length_map ..

theorem length_decimal_pos (n : Nat) : 0 < (decimal n).length := by
  rw [length_decimal]
  exact Nat.length_toDigits_pos

theorem length_decimal_mono (h : n ≤ m) : (decimal n).length ≤ (decimal m).length := by
  rw [length_decimal, length_decimal,
    Nat.length_toDigits_le_iff (by decide) Nat.length_toDigits_pos]
  exact Nat.lt_of_le_of_lt h
    ((Nat.length_toDigits_le_iff (by decide) Nat.length_toDigits_pos).mp (Nat.le_refl _))

theorem lt_ten_pow (k : Nat) : 2 * k + 1 < 10 ^ (k + 1) := by
  induction k with
  | zero => decide
  | succ k ih =>
      rw [Nat.pow_succ]
      omega

theorem length_decimal_le (n : Nat) : (decimal n).length ≤ n / 2 + 1 := by
  rw [length_decimal, Nat.length_toDigits_le_iff (by decide) (by omega)]
  have := lt_ten_pow (n / 2)
  omega

/-! ## Records -/

/-- The loop ends at a length that counts its own digits. -/
theorem paxLength_counts {bodyBytes fuel len : Nat}
    (hup : len ≤ (decimal len).length + 1 + bodyBytes) (hmax : len ≤ 2 * bodyBytes + 4)
    (hfuel : 2 * bodyBytes + 4 < fuel + len) :
    paxLength bodyBytes fuel len =
      (decimal (paxLength bodyBytes fuel len)).length + 1 + bodyBytes := by
  induction fuel generalizing len with
  | zero => omega
  | succ fuel ih =>
      rw [paxLength]
      split
      · next heq => exact heq.symm
      · next hne =>
          have hle := length_decimal_le len
          have hmono := length_decimal_mono hup
          exact ih (Nat.add_le_add_right (Nat.add_le_add_right hmono 1) bodyBytes) (by omega)
            (by omega)

theorem buildPaxRecord_eq (key value : Bytes) : ∃ len,
    buildPaxRecord key value = decimal len ++ [0x20] ++ (key ++ [0x3D] ++ value ++ [0x0A]) ∧
      (buildPaxRecord key value).length = len := by
  have hpos := length_decimal_pos ((key ++ [0x3D] ++ value ++ [0x0A]).length + 2)
  have hcounts := @paxLength_counts (key ++ [0x3D] ++ value ++ [0x0A]).length
    ((key ++ [0x3D] ++ value ++ [0x0A]).length + 4)
    ((key ++ [0x3D] ++ value ++ [0x0A]).length + 2) (by omega) (by omega) (by omega)
  refine ⟨_, rfl, ?_⟩
  rw [buildPaxRecord, List.length_append, List.length_append, List.length_singleton]
  exact hcounts.symm

/-- The keys of the builder. -/
def BuiltKey (key value : Bytes) : Prop :=
  (key = ascii "path" ∧ (0 : UInt8) ∉ value ∧ isUtf8 value = true) ∨ key = ascii "size"

theorem parsePaxRecord_built (hkey : BuiltKey key value) (rest : Bytes) :
    parsePaxRecord (buildPaxRecord key value ++ rest) = .ok ((toText key, toText value), rest) := by
  obtain ⟨len, hrecord, hlength⟩ := buildPaxRecord_eq key value
  have hdigits : (buildPaxRecord key value ++ rest).takeWhile isDigit = decimal len := by
    rw [hrecord, List.append_assoc, List.append_assoc]
    exact takeWhile_append_stop (decimal_facts len).2 (by simp [isDigit])
  have hsize : (decimal len).length + 1 + (key.length + 1 + value.length + 1) = len := by
    have hlen := congrArg List.length hrecord
    rw [hlength] at hlen
    simp only [List.length_append, List.length_singleton] at hlen
    omega
  have hspace : (buildPaxRecord key value ++ rest)[(decimal len).length]? = some 0x20 := by
    rw [hrecord, List.append_assoc, List.append_assoc, List.getElem?_append_right (Nat.le_refl _),
      Nat.sub_self]
    rfl
  have hfront : (decimal len ++ [0x20] ++ (key ++ [0x3D] ++ value)).length = len - 1 := by
    simp only [List.length_append, List.length_singleton]
    omega
  have hwhole : buildPaxRecord key value ++ rest =
      decimal len ++ [0x20] ++ (key ++ [0x3D] ++ value) ++ ([0x0A] ++ rest) := by
    rw [hrecord]
    simp only [List.append_assoc]
  have hend : (buildPaxRecord key value ++ rest)[len - 1]? = some 0x0A := by
    rw [hwhole, List.getElem?_append_right (Nat.le_of_eq hfront), hfront, Nat.sub_self]
    rfl
  have htaken : ((buildPaxRecord key value ++ rest).take (len - 1)).drop
      ((decimal len).length + 1) = key ++ [0x3D] ++ value := by
    rw [hwhole, List.take_left' hfront, List.drop_left' (by simp)]
  have hkeyFacts : (0x3D : UInt8) ∉ key ∧ key ≠ [] ∧
      ¬(key.head? = some 0x20 ∨ key.head? = some 0x09) ∧
      (0 : UInt8) ∉ key ∧ toText key ≠ "linkpath".toList := by
    rcases hkey with ⟨rfl, -⟩ | rfl <;> decide
  obtain ⟨heq, hne, hblank, hnul, hlink⟩ := hkeyFacts
  have hkeyBytes : (key ++ [0x3D] ++ value).takeWhile (· ≠ 0x3D) = key := by
    rw [List.append_assoc]
    refine takeWhile_append_stop (fun b hb => ?_) (by simp)
    have : b ≠ 0x3D := fun h => heq (h ▸ hb)
    simpa using this
  have hvalue : (key ++ [0x3D] ++ value).drop (key.length + 1) = value :=
    List.drop_left' (by simp)
  rw [parsePaxRecord]
  dsimp only
  rw [hdigits, (decimal_facts len).1, htaken, hkeyBytes, hvalue]
  rw [if_neg (by rw [List.length_append]; omega), if_neg, if_neg, if_neg, if_neg hne, if_neg hblank,
    if_neg hnul, if_neg, if_neg, if_neg, List.drop_left' hlength]
  · rintro ⟨hname, hutf8⟩
    rcases hkey with ⟨-, -, hvalid⟩ | rfl
    · rw [hvalid] at hutf8
      cases hutf8
    · revert hname
      decide
  · exact fun h => hlink h.1
  · rintro ⟨hname, hzero⟩
    rcases hkey with ⟨-, hvalid, -⟩ | rfl
    · exact hvalid hzero
    · revert hname
      decide
  · simp
  · rintro (hshort | hstop)
    · have := List.length_pos_iff.mpr hne
      omega
    · exact hstop hend
  · rintro (hempty | hstop)
    · exact absurd (length_decimal_pos len) (by simp [hempty])
    · exact hstop hspace

theorem parsePaxRecords_built {records : List (Bytes × Bytes)}
    (hkeys : ∀ r ∈ records, BuiltKey r.1 r.2) {fuel : Nat} (hfuel : records.length ≤ fuel)
    (out : Records) :
    parsePaxRecords fuel (records.flatMap fun (key, value) => buildPaxRecord key value) out =
      .ok ((records.map fun r => (toText r.1, toText r.2)).reverse ++ out) := by
  induction records generalizing fuel out with
  | nil => cases fuel <;> rfl
  | cons r records ih =>
      obtain ⟨fuel, rfl⟩ :=
        Nat.exists_eq_add_one_of_ne_zero (Nat.ne_of_gt (Nat.zero_lt_of_lt hfuel))
      obtain ⟨hkey, hkeys⟩ := List.forall_mem_cons.mp hkeys
      obtain ⟨len, hrecord, -⟩ := buildPaxRecord_eq r.1 r.2
      have hne : buildPaxRecord r.1 r.2 ++
          (records.flatMap fun (key, value) => buildPaxRecord key value) ≠ [] := by
        rw [hrecord]
        simp
      rw [List.flatMap_cons, parsePaxRecords, if_neg hne]
      refine bind_eq_ok.mpr ⟨_, parsePaxRecord_built hkey _, ?_⟩
      refine (ih hkeys (Nat.le_of_succ_le_succ hfuel) _).trans ?_
      rw [List.map_cons, List.reverse_cons, List.append_assoc]
      rfl

theorem utf8EncodeChar_digit {c : Char} (h : c.isDigit = true) :
    String.utf8EncodeChar c = [UInt8.ofNat c.toNat] := by
  simp only [Char.isDigit, Bool.and_eq_true, decide_eq_true_eq] at h
  have hle : c.val.toNat ≤ 57 := h.2
  have hto : c.val.toNat = c.toNat := rfl
  rw [String.utf8EncodeChar]
  split
  · rfl
  · omega

theorem decimal_eq_encode (n : Nat) : decimal n = encode (Nat.toDigits 10 n) := by
  rw [decimal, encode, List.map_eq_flatMap]
  refine List.flatMap_congr fun c hc => ?_
  exact (utf8EncodeChar_digit (Nat.isDigit_of_mem_toDigits (by decide) (by decide) hc)).symm

theorem encode_toText_decimal (n : Nat) : encode (toText (decimal n)) = decimal n := by
  rw [decimal_eq_encode, toText_encode]

theorem paxSize_decimal (h : (n : Int) ≤ maxSafe) : paxSize (toText (decimal n)) = .ok n := by
  rw [paxSize, encode_toText_decimal, (decimal_facts n).1, if_pos]
  refine ⟨?_, List.all_eq_true.mpr (decimal_facts n).2, h, rfl⟩
  exact List.length_pos_iff.mp (length_decimal_pos n)

end Blamejs.Tar
