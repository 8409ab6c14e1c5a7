import Blamejs.Lib.Checked
import Blamejs.Proofs.TcfRuns
import Mathlib.Tactic.Ring

/-!
# Reading back what was written

Each writer against its reader: the bits that come out are read back as the values that
went in, whatever bits follow, and their number is the width of the value. What a bit
field has no bit for is not read back; that is the only difference.
-/

namespace Blamejs.IabTcf

open Blamejs.Js BitStream

variable {bits : Bits}

/-! ## Buffers -/

theorem bitsOf_byteOf {bits : Bits} (h : bits.length = 8) :
    bitsOf 8 (byteOf bits).toNat = bits := by
  have hlt := valueOf_lt bits
  rw [byteOf, UInt8.toNat_ofNat', Nat.mod_eq_of_lt (by rw [h] at hlt; exact hlt)]
  rw [← h]
  exact bitsOf_valueOf bits

theorem short_of_match {bits : Bits}
    (h : ∀ b0 b1 b2 b3 b4 b5 b6 b7 rest,
      bits = b0 :: b1 :: b2 :: b3 :: b4 :: b5 :: b6 :: b7 :: rest → False) : bits.length < 8 := by
  match bits, h with
  | [], _ | [_], _ | [_, _], _ | [_, _, _], _ | [_, _, _, _], _ | [_, _, _, _, _], _
  | [_, _, _, _, _, _], _ | [_, _, _, _, _, _, _], _ => simp
  | b0 :: b1 :: b2 :: b3 :: b4 :: b5 :: b6 :: b7 :: rest, h =>
      exact absurd rfl (h b0 b1 b2 b3 b4 b5 b6 b7 rest)

/-- The bits of a buffer that was written are there, with some more behind. -/
theorem bufferBits_toBuffer (bits : Bits) : ∃ pad, bufferBits (toBuffer bits) = bits ++ pad := by
  induction bits using toBuffer.induct with
  | case1 => exact ⟨[], rfl⟩
  | case2 b0 b1 b2 b3 b4 b5 b6 b7 bits ih =>
      obtain ⟨pad, hpad⟩ := ih
      refine ⟨pad, ?_⟩
      rw [toBuffer, bufferBits, List.flatMap_cons, bitsOf_byteOf rfl]
      rw [bufferBits] at hpad
      rw [hpad]
      rfl
  | case3 bits hne hlong =>
      refine ⟨List.replicate (8 - bits.length) false, ?_⟩
      have hlen : bits.length < 8 := short_of_match hlong
      rw [toBuffer, bufferBits, List.flatMap_singleton, bitsOf_byteOf]
      · simp
        omega
      · exact hne
      · exact hlong

theorem length_toBuffer (bits : Bits) : (toBuffer bits).length = (bits.length + 7) / 8 := by
  induction bits using toBuffer.induct with
  | case1 => rfl
  | case2 b0 b1 b2 b3 b4 b5 b6 b7 bits ih =>
      simp only [toBuffer, List.length_cons, ih]
      omega
  | case3 bits hne hlong =>
      have hlen : bits.length < 8 := short_of_match hlong
      have hpos := List.length_pos_iff.mpr hne
      rw [toBuffer, List.length_singleton]
      · omega
      · exact hne
      · exact hlong

/-! ## Numbers and flags -/

theorem writeNat_ok {v n : Nat} (h : writeNat v n = .ok bits) : v < 2 ^ n ∧ bits = bitsOf n v := by
  unfold writeNat at h
  split at h
  · cases h
  · next hlt =>
      cases h
      exact ⟨Nat.not_le.mp hlt, rfl⟩

theorem writeNat_of_lt {v n : Nat} (h : v < 2 ^ n) : writeNat v n = .ok (bitsOf n v) :=
  if_neg (Nat.not_le.mpr h)

theorem writeInt_ok {x : Option Double} {n : Nat} (h : writeInt x n = .ok bits) :
    optNat x < 2 ^ n ∧ bits = bitsOf n (optNat x) := by
  unfold writeInt at h
  cases x with
  | none => cases h
  | some x =>
      cases hx : natValue? x with
      | none =>
          rw [Option.bind_some, hx] at h
          cases h
      | some v =>
          rw [Option.bind_some, hx] at h
          have hv : optNat (some x) = v := by
            simp [optNat, natOf, hx]
          rw [hv]
          exact writeNat_ok h

theorem writeInt_value {x : Option Double} {n : Nat} (h : writeInt x n = .ok bits) :
    x.bind natValue? = some (optNat x) := by
  unfold writeInt at h
  cases hx : x.bind natValue? with
  | none =>
      rw [hx] at h
      cases h
  | some v =>
      obtain ⟨y, rfl, hy⟩ := Option.bind_eq_some_iff.mp hx
      simp [optNat, natOf, hy]

theorem length_writeNat {v n : Nat} (h : writeNat v n = .ok bits) : bits.length = n := by
  rw [(writeNat_ok h).2, length_bitsOf]

theorem length_writeInt {x : Option Double} {n : Nat} (h : writeInt x n = .ok bits) :
    bits.length = n := by
  rw [(writeInt_ok h).2, length_bitsOf]

theorem length_writeBool {b : Bool} (h : writeBool b = .ok bits) : bits.length = 1 := by
  cases h
  rfl

theorem reads_int {x : Option Double} {n : Nat} (h : writeInt x n = .ok bits) :
    Reads (read n) bits (optNat x) := by
  obtain ⟨hlt, rfl⟩ := writeInt_ok h
  exact reads_readBits hlt

theorem reads_nat {v n : Nat} (h : writeNat v n = .ok bits) : Reads (read n) bits v := by
  obtain ⟨hlt, rfl⟩ := writeNat_ok h
  exact reads_readBits hlt

theorem reads_bit (b : Bool) : Reads readFlag [b] b := by
  have hbits : bitsOf 1 b.toNat = [b] := by cases b <;> rfl
  have hread : Reads (read 1) (bitsOf 1 b.toNat) b.toNat := reads_readBits b.toNat_lt
  have hmap := hread.map fun v : Nat => decide (v = 1)
  rw [hbits, show decide (b.toNat = 1) = b by cases b <;> rfl] at hmap
  exact hmap

theorem reads_flag {b : Bool} (h : writeBool b = .ok bits) : Reads readFlag bits b := by
  cases h
  exact reads_bit b

theorem writeAll_cons {w : Except Err Bits} {ws : List (Except Err Bits)} :
    writeAll (w :: ws) = .ok bits ↔
      ∃ xs ys, w = .ok xs ∧ writeAll ws = .ok ys ∧ bits = xs ++ ys := by
  rw [writeAll, Checked.bind_eq_ok]
  refine ⟨?_, ?_⟩
  · rintro ⟨xs, hw, h⟩
    obtain ⟨ys, hws, h⟩ := Checked.bind_eq_ok.mp h
    cases h
    exact ⟨xs, ys, hw, hws, rfl⟩
  · rintro ⟨xs, ys, hw, hws, rfl⟩
    exact ⟨xs, hw, Checked.bind_eq_ok.mpr ⟨ys, hws, rfl⟩⟩

theorem writeAll_nil : writeAll [] = .ok bits ↔ bits = [] := by
  rw [writeAll]
  exact ⟨fun h => (by cases h; rfl), fun h => by rw [h]⟩

/-- A loop of writes, read back one by one. -/
theorem reads_map {α β : Type} {p : Read Err β} {write : α → Except Err Bits} {R : α → β → Prop}
    {width : α → Nat} {as : List α}
    (h : ∀ a ∈ as, ∀ bits, write a = .ok bits →
      bits.length = width a ∧ ∃ b, Reads p bits b ∧ R a b)
    (hw : writeAll (as.map write) = .ok bits) :
    bits.length = (as.map width).sum ∧
      ∃ bs, Reads (readMany p as.length) bits bs ∧ List.Forall₂ R as bs := by
  induction as generalizing bits with
  | nil =>
      obtain rfl := writeAll_nil.mp hw
      exact ⟨rfl, [], .pure [], .nil⟩
  | cons a as ih =>
      rw [List.map_cons, writeAll_cons] at hw
      obtain ⟨xs, ys, ha, has, rfl⟩ := hw
      obtain ⟨hlen, b, hb, hR⟩ := h a List.mem_cons_self xs ha
      obtain ⟨hlens, bs, hbs, hRs⟩ := ih (fun a ha => h a (List.mem_cons_of_mem _ ha)) has
      refine ⟨?_, b :: bs, ?_, .cons hR hRs⟩
      · rw [List.length_append, hlen, hlens, List.map_cons, List.sum_cons]
      · exact hb.bind (f := fun a => do
          let as ← readMany p as.length
          pure (a :: as)) hbs.last

theorem natValue?_ofInt {n : Nat} (h : n < 2 ^ 53) : natValue? (.ofInt n) = some n := by
  have habs : ((n : Int)).natAbs < 2 ^ 53 := h
  have hneg : (Double.ofInt n).neg = false := by simp
  rw [natValue?, if_pos ⟨Double.isInteger_ofInt habs, Or.inl hneg⟩, Double.mag_ofInt habs,
    Nat.mul_div_cancel _ Double.unitsPerOne_pos]
  rfl

theorem natOf_ofInt {n : Nat} (h : n < 2 ^ 53) : natOf (.ofInt n) = n := by
  rw [natOf, natValue?_ofInt h]
  rfl

theorem natValue?_of_isZero {x : Double} (h : x.isZero = true) : natValue? x = some 0 := by
  have hbits : x.bits.val = 0 := of_decide_eq_true h
  have hmag : x.mag = 0 := Double.mag_eq_zero_iff.mpr h
  have hinteger : x.isInteger = true := by
    rw [Double.isInteger, hmag, Nat.zero_mod]
    simp [Double.isFinite, hbits, Double.infBits]
  rw [natValue?, if_pos ⟨hinteger, Or.inr h⟩, hmag, Nat.zero_div]

theorem natValue?_of_isNaN {x : Double} (h : x.isNaN = true) : natValue? x = none := by
  rw [natValue?, if_neg]
  rintro ⟨hinteger, -⟩
  simp only [Double.isInteger, Double.isNaN, Double.isFinite, Bool.and_eq_true,
    decide_eq_true_eq] at h hinteger
  omega

theorem natOf_zero : natOf (.zero false) = 0 := by
  rw [natOf, natValue?_of_isZero rfl]
  rfl

/-- What is written for a field is the number it holds, if that is one. -/
theorem numberOf_eq_iff {x : Option Double} {n : Nat} (h : (orZero x).bind natValue? = some n) :
    some n = numberOf x ↔ ∀ v, x = some v → v.isNaN = false := by
  cases x with
  | none => simpa [orZero, numberOf] using h.symm
  | some v =>
      rw [numberOf, Option.getD_some]
      cases hnan : v.isNaN with
      | true => simp [natValue?_of_isNaN hnan, hnan]
      | false =>
          have hn : natValue? v = some n := by
            cases hzero : v.isZero with
            | true =>
                rw [orZero, if_pos (Or.inl hzero), Option.bind_some,
                  natValue?_of_isZero rfl] at h
                rw [natValue?_of_isZero hzero, h]
            | false => simpa [orZero, hzero, hnan] using h
          simp [hn, hnan]

/-! ## Ids -/

theorem positive_ok {x : Double} {n : Nat} (h : positive x = .ok n) : natOf x = n ∧ 0 < n := by
  unfold positive at h
  split at h
  · next n' hx =>
      cases h
      exact ⟨by rw [natOf, hx]; rfl, Nat.succ_pos _⟩
  · cases h

theorem mapM_positive {xs : List Double} {ids : List Nat} (h : xs.mapM positive = .ok ids) :
    ids = xs.map natOf ∧ ∀ id ∈ ids, 0 < id := by
  induction xs generalizing ids with
  | nil =>
      cases h
      exact ⟨rfl, fun _ hid => (nomatch hid)⟩
  | cons x xs ih =>
      rw [List.mapM_cons] at h
      obtain ⟨id, hx, h⟩ := Checked.bind_eq_ok.mp h
      obtain ⟨ids', hxs, h⟩ := Checked.bind_eq_ok.mp h
      cases h
      obtain ⟨heq, hpos⟩ := positive_ok hx
      obtain ⟨heqs, hposs⟩ := ih hxs
      refine ⟨?_, List.forall_mem_cons.mpr ⟨hpos, hposs⟩⟩
      rw [List.map_cons, heq, heqs]

theorem idArray_ok {x : Coll} {ids : List Nat} (h : idArray x = .ok ids) :
    ids = sorted x.given ∧ ∀ id ∈ x.given, 0 < id := by
  obtain ⟨given, hgiven, h⟩ := Checked.bind_eq_ok.mp h
  cases h
  obtain ⟨rfl, hpos⟩ := mapM_positive hgiven
  exact ⟨rfl, hpos⟩

/-- The set of ids, so far as a bit field reaches. -/
def upTo (n : Nat) (ids : List Nat) : Set Nat := {id | id ∈ ids ∧ id ≤ n}

theorem mem_setBits {first : Nat} {flags : Bits} {id : Nat} :
    id ∈ setBits first flags ↔ ∃ i, flags[i]? = some true ∧ id = first + i := by
  induction flags generalizing first with
  | nil => simp [setBits]
  | cons b flags ih =>
      have htail : id ∈ setBits (first + 1) flags ↔
          ∃ i, (b :: flags)[i + 1]? = some true ∧ id = first + (i + 1) := by
        rw [ih]
        refine exists_congr fun i => ?_
        rw [List.getElem?_cons_succ]
        exact and_congr_right fun _ => by omega
      rw [setBits]
      split
      · next hb =>
          rw [List.mem_cons, htail]
          constructor
          · rintro (rfl | ⟨i, hi⟩)
            · exact ⟨0, by simp [hb], rfl⟩
            · exact ⟨i + 1, hi⟩
          · rintro ⟨_ | i, hi⟩
            · exact Or.inl hi.2
            · exact Or.inr ⟨i, hi⟩
      · next hb =>
          rw [htail]
          constructor
          · rintro ⟨i, hi⟩
            exact ⟨i + 1, hi⟩
          · rintro ⟨_ | i, hi⟩
            · exact absurd (by simpa using hi.1) hb
            · exact ⟨i, hi⟩

theorem idSet_bitField {ids : List Nat} (hpos : ∀ id ∈ ids, 0 < id) (n : Nat) :
    idSet (setBits 1 (bitField ids n)) = upTo n ids := by
  ext id
  change id ∈ setBits 1 (bitField ids n) ↔ id ∈ ids ∧ id ≤ n
  rw [mem_setBits]
  constructor
  · rintro ⟨i, hi, rfl⟩
    rw [bitField, List.getElem?_map, Option.map_eq_some_iff] at hi
    obtain ⟨j, hj, hmem⟩ := hi
    obtain ⟨hlt, hj⟩ := List.getElem?_eq_some_iff.mp hj
    rw [List.length_range] at hlt
    rw [List.getElem_range] at hj
    subst hj
    refine ⟨?_, by omega⟩
    rw [Nat.add_comm]
    exact of_decide_eq_true hmem
  · rintro ⟨hmem, hle⟩
    have := hpos id hmem
    refine ⟨id - 1, ?_, by omega⟩
    rw [bitField, List.getElem?_map, List.getElem?_range (by omega), Option.map_some,
      show id - 1 + 1 = id by omega, decide_eq_true hmem]

theorem length_bitField (ids : List Nat) (n : Nat) : (bitField ids n).length = n := by
  simp [bitField]

theorem reads_bitField (ids : List Nat) (n : Nat) :
    Reads (readBitField n) (bitField ids n) (setBits 1 (bitField ids n)) := by
  have hmany := @reads_readMany _ _ readFlag (fun b => [b]) (bitField ids n)
    fun b _ => reads_bit b
  rw [length_bitField, List.flatMap_singleton'] at hmany
  exact hmany.map (setBits 1)

theorem reads_writeBitField {x : Coll} {n : Nat} (h : writeBitField x n = .ok bits) :
    bits.length = n ∧ ∃ ids, Reads (readBitField n) bits ids ∧ idSet ids = upTo n x.given := by
  obtain ⟨ids, hids, h⟩ := Checked.bind_eq_ok.mp h
  cases h
  obtain ⟨rfl, hpos⟩ := idArray_ok hids
  refine ⟨length_bitField _ n, _, reads_bitField _ n, ?_⟩
  rw [idSet_bitField fun id hid => hpos id (mem_sorted.mp hid)]
  ext id
  exact and_congr_left fun _ => mem_sorted

/-! ## Runs -/

def entryOf (r : Nat × Nat) : Entry := if r.1 = r.2 then .single r.1 else .range r.1 r.2

theorem ids_entryOf {r : Nat × Nat} : (entryOf r).ids = runIds r := by
  unfold entryOf
  split
  · next h => simp [Entry.ids, runIds, ← h]
  · rfl

theorem reads_run {r : Nat × Nat} (h : writeRun r = .ok bits) :
    bits.length = runBits r ∧ ∃ e, Reads readEntry bits e ∧ entryOf r = e := by
  unfold writeRun at h
  rw [runBits, entryOf]
  split at h
  · next hone =>
      obtain ⟨_, _, hflag, h₁, rfl⟩ := writeAll_cons.mp h
      obtain ⟨_, _, hstart, h₂, rfl⟩ := writeAll_cons.mp h₁
      obtain rfl := writeAll_nil.mp h₂
      rw [if_pos hone, if_pos hone]
      refine ⟨?_, _, (reads_flag hflag).bind ((reads_nat hstart).bind ?_), rfl⟩
      · cases hflag
        simp [(writeNat_ok hstart).2]
      · exact Reads.pure _
  · next hone =>
      obtain ⟨_, _, hflag, h₁, rfl⟩ := writeAll_cons.mp h
      obtain ⟨_, _, hstart, h₂, rfl⟩ := writeAll_cons.mp h₁
      obtain ⟨_, _, hstop, h₃, rfl⟩ := writeAll_cons.mp h₂
      obtain rfl := writeAll_nil.mp h₃
      rw [if_neg hone, if_neg hone]
      refine ⟨?_, _, (reads_flag hflag).bind ((reads_nat hstart).bind ?_), rfl⟩
      · cases hflag
        simp [(writeNat_ok hstart).2, (writeNat_ok hstop).2]
      · exact (reads_nat hstop).bind (Reads.pure _)

/-- The entries of some runs, after their number. -/
theorem reads_runs {ids : List Nat} (h : writeRuns (idRuns ids) = .ok bits) :
    bits.length = 12 + ((idRuns ids).map runBits).sum ∧
    ∃ count rest entries, bits = count ++ rest ∧ Reads (read 12) count (idRuns ids).length ∧
      Reads (readMany readEntry (idRuns ids).length) rest entries ∧
      entries.flatMap Entry.ids = ids := by
  obtain ⟨count, rest, hcount, hrest, rfl⟩ := writeAll_cons.mp h
  obtain ⟨hlen, entries, hreads, hentries⟩ :=
    reads_map (R := fun r e => entryOf r = e) (fun r _ bits hr => reads_run hr) hrest
  refine ⟨?_, count, rest, entries, rfl, reads_nat hcount, hreads, ?_⟩
  · rw [List.length_append, hlen, length_writeNat hcount]
  · have heq : entries = (idRuns ids).map entryOf :=
      (List.forall₂_eq_eq_eq ▸ List.forall₂_map_left_iff.mpr hentries : _ = _).symm
    rw [heq, List.flatMap_map]
    simp only [ids_entryOf]
    exact flatMap_idRuns ids

theorem le_foldr_max {ids : List Nat} {id : Nat} (h : id ∈ ids) : id ≤ ids.foldr max 0 := by
  induction ids with
  | nil => cases h
  | cons x ids ih =>
      rw [List.foldr_cons]
      rcases List.mem_cons.mp h with rfl | h
      · exact Nat.le_max_left _ _
      · exact Nat.le_trans (ih h) (Nat.le_max_right _ _)

theorem foldr_max_le {ids : List Nat} {n : Nat} (h : ∀ id ∈ ids, id ≤ n) :
    ids.foldr max 0 ≤ n := by
  induction ids with
  | nil => exact Nat.zero_le n
  | cons x ids ih =>
      exact Nat.max_le.mpr ⟨h x List.mem_cons_self,
        ih fun id hid => h id (List.mem_cons_of_mem _ hid)⟩

/-- The last of the sorted ids is the largest. -/
theorem getLast_sorted (ids : List Nat) : (sorted ids).getLast?.getD 0 = ids.foldr max 0 := by
  cases hlast : (sorted ids).getLast? with
  | none =>
      have hnil := List.getLast?_eq_none_iff.mp hlast
      refine (Nat.le_zero.mp (foldr_max_le fun id hid => ?_)).symm
      rw [← mem_sorted, hnil] at hid
      cases hid
  | some m =>
      obtain ⟨init, hinit⟩ := List.getLast?_eq_some_iff.mp hlast
      refine Nat.le_antisymm (le_foldr_max ?_) (foldr_max_le fun id hid => ?_)
      · rw [← mem_sorted, hinit]
        exact List.mem_append_right _ (List.mem_singleton_self m)
      · have hsort := sorted_lt ids
        rw [hinit] at hsort
        rw [← mem_sorted, hinit] at hid
        rcases List.mem_append.mp hid with hid | hid
        · have hbefore := (List.pairwise_append.mp hsort).2.2
          exact Nat.le_of_lt (hbefore id hid m (List.mem_singleton_self m))
        · exact Nat.le_of_eq (List.mem_singleton.mp hid)

/-! ## Sections -/

theorem reads_vendorSection {x : Coll} (h : writeVendorSection x = .ok bits) :
    bits.length = vendorWidth x.given ∧ 0 ∉ x.given ∧
      ∃ v, Reads parseVendorSection bits v ∧ idSet v.ids = idSet x.given := by
  obtain ⟨ids, hids, h⟩ := Checked.bind_eq_ok.mp h
  obtain ⟨rfl, hpos⟩ := idArray_ok hids
  have hzero : 0 ∉ x.given := fun hmem => absurd (hpos 0 hmem) (Nat.lt_irrefl 0)
  have hsorted : idSet (sorted x.given) = idSet x.given := Set.ext fun _ => mem_sorted
  unfold writeVendorIds at h
  dsimp only at h
  rw [getLast_sorted] at h
  obtain ⟨xs, _, hmax, h₁, rfl⟩ := writeAll_cons.mp h
  obtain ⟨ys, _, hform, h₂, rfl⟩ := writeAll_cons.mp h₁
  obtain rfl := writeAll_nil.mp h₂
  have hxs := length_writeNat hmax
  rw [List.append_nil, List.length_append, hxs, vendorWidth]
  split at hform
  · next hnil =>
      -- no ids: a bit field of no bits
      cases hform
      have hnone : sorted x.given = [] := by
        refine List.eq_nil_iff_forall_not_mem.mpr fun id hid => ?_
        have := le_foldr_max (mem_sorted.mp hid)
        have := hpos id (mem_sorted.mp hid)
        omega
      rw [hnil]
      refine ⟨by simp, hzero, ⟨0, []⟩, ?_, ?_⟩
      · have hread : Reads (read 16) xs 0 := hnil ▸ reads_nat hmax
        exact hread.bind ((reads_bit false).bind (Reads.pure (ε := Err) _))
      · rw [← hsorted, hnone]
  · split at hform
    · next hrange =>
        obtain ⟨_, _, hflag, h₃, rfl⟩ := writeAll_cons.mp hform
        obtain ⟨_, _, hruns, h₄, rfl⟩ := writeAll_cons.mp h₃
        obtain rfl := writeAll_nil.mp h₄
        cases hflag
        obtain ⟨hlen, count, rest, entries, rfl, hcount, hentries, hflat⟩ := reads_runs hruns
        refine ⟨?_, hzero, ⟨x.given.foldr max 0, (entries.flatMap Entry.ids).eraseDups⟩, ?_, ?_⟩
        · rw [List.append_nil, List.length_append, hlen, runsWidth]
          simp only [List.length_singleton]
          omega
        · rw [List.append_nil]
          exact (reads_nat hmax).bind ((reads_bit true).bind (hcount.bind hentries.last))
        · rw [hflat, ← hsorted]
          exact Set.ext fun _ => List.mem_eraseDups
    · next hfield =>
        obtain ⟨_, _, hflag, h₃, rfl⟩ := writeAll_cons.mp hform
        obtain ⟨_, _, hbits, h₄, rfl⟩ := writeAll_cons.mp h₃
        obtain rfl := writeAll_nil.mp h₄
        cases hflag
        cases hbits
        refine ⟨?_, hzero, ⟨x.given.foldr max 0,
          setBits 1 (bitField (sorted x.given) (x.given.foldr max 0))⟩, ?_, ?_⟩
        · rw [List.append_nil, List.length_append, length_bitField, runsWidth]
          simp only [List.length_singleton]
          omega
        · rw [List.append_nil]
          exact (reads_nat hmax).bind ((reads_bit false).bind (reads_bitField _ _).last)
        · rw [idSet_bitField fun id hid => hpos id (mem_sorted.mp hid), ← hsorted]
          exact Set.ext fun id => and_iff_left_of_imp fun hid => le_foldr_max (mem_sorted.mp hid)

theorem reads_restriction {r : ObjRestriction} (h : writeRestriction r = .ok bits) :
    bits.length = 20 + runsWidth r.vendorIds.given ∧
      ∃ r', Reads parseRestriction bits r' ∧ r'.signal = r.signal ∧ 0 ∉ r.vendorIds.given := by
  obtain ⟨xs, _, hpurpose, h₁, rfl⟩ := writeAll_cons.mp h
  obtain ⟨ys, _, htype, h₂, rfl⟩ := writeAll_cons.mp h₁
  obtain ⟨zs, _, hvendors, h₃, rfl⟩ := writeAll_cons.mp h₂
  obtain rfl := writeAll_nil.mp h₃
  obtain ⟨ids, hids, hruns⟩ := Checked.bind_eq_ok.mp hvendors
  obtain ⟨rfl, hpos⟩ := idArray_ok hids
  obtain ⟨hlen, count, rest, entries, rfl, hcount, hentries, hflat⟩ := reads_runs hruns
  refine ⟨?_, ⟨optNat r.purposeId, optNat (some (r.restrictionType.getD (.zero false))),
    entries.flatMap Entry.ids⟩, ?_, ?_, fun hmem => absurd (hpos 0 hmem) (Nat.lt_irrefl 0)⟩
  · rw [List.append_nil, List.length_append, List.length_append, hlen, length_writeInt hpurpose,
      length_writeInt htype, runsWidth]
    omega
  · rw [List.append_nil]
    exact (reads_int hpurpose).bind ((reads_int htype).bind (hcount.bind hentries.last))
  · have hset : idSet (sorted r.vendorIds.given) = idSet r.vendorIds.given :=
      Set.ext fun _ => mem_sorted
    have htype' : optNat (some (r.restrictionType.getD (.zero false))) =
        optNat r.restrictionType := by
      cases r.restrictionType with
      | none => simp [optNat, natOf_zero]
      | some t => rfl
    rw [Restriction.signal, ObjRestriction.signal, hflat, hset, htype']

/-! ## Letters -/

theorem writeLetter_ok {u : UInt16} (h : writeLetter u = .ok bits) :
    0x41 ≤ u.toNat ∧ u.toNat ≤ 0x5A ∧ bits = bitsOf 6 (u.toNat - 0x41) := by
  unfold writeLetter at h
  split at h
  · cases h
  · next hrange => exact ⟨by omega, by omega, (writeNat_ok h).2⟩

theorem ofNat_letter {u : UInt16} (h : 0x41 ≤ u.toNat) :
    UInt16.ofNat (0x41 + (u.toNat - 0x41)) = u := by
  rw [Nat.add_sub_cancel' h, UInt16.ofNat_toNat]

theorem reads_letters {s : JsString} (h : writeLetters s = .ok bits) :
    bits.length = 12 ∧ Letters (toUpperCase s) ∧ Reads readLetters bits (toUpperCase s) := by
  unfold writeLetters at h
  split at h
  · next a b hupper =>
      obtain ⟨_, _, ha, h₁, rfl⟩ := writeAll_cons.mp h
      obtain ⟨_, _, hb, h₂, rfl⟩ := writeAll_cons.mp h₁
      obtain rfl := writeAll_nil.mp h₂
      obtain ⟨hlo, hhi, rfl⟩ := writeLetter_ok ha
      obtain ⟨hlo', hhi', rfl⟩ := writeLetter_ok hb
      refine ⟨by simp, ?_, ?_⟩
      · rw [hupper]
        intro u hu
        rcases List.mem_cons.mp hu with rfl | hu
        · exact ⟨hlo, hhi⟩
        · obtain rfl := List.mem_singleton.mp hu
          exact ⟨hlo', hhi'⟩
      · have hread : Reads readLetters
            (bitsOf 6 (a.toNat - 0x41) ++ (bitsOf 6 (b.toNat - 0x41) ++ []))
            [UInt16.ofNat (0x41 + (a.toNat - 0x41)), UInt16.ofNat (0x41 + (b.toNat - 0x41))] :=
          (reads_readBits (by omega)).bind ((reads_readBits (by omega)).bind (Reads.pure _))
        rw [ofNat_letter hlo, ofNat_letter hlo', ← hupper] at hread
        exact hread
  · cases h

/-! ## Timestamps -/

open BinaryFormat Double in
/-- A quotient by 100 lies between the whole numbers around it. -/
theorem mag_quotient {m k : Nat} (neg : Bool) (hk : k < 2 ^ 53) :
    (k * (100 * unitsPerOne) ≤ m → k * unitsPerOne ≤ (ofRatio neg m (100 * unitsPerOne)).mag) ∧
    (m ≤ k * (100 * unitsPerOne) →
      (ofRatio neg m (100 * unitsPerOne)).mag ≤ k * unitsPerOne) := by
  have hexact : round 52 (k * (100 * unitsPerOne)) 100 = round 52 (k * unitsPerOne) 1 := by
    rw [Nat.mul_comm 100, ← Nat.mul_assoc, round_exact (by decide)]
  have hbound : round 52 (k * unitsPerOne) 1 < infBits := round_natAbs_lt hk
  have hmag : magnitude 52 (round 52 (k * unitsPerOne) 1) = k * unitsPerOne := by
    rw [unitsPerOne, magnitude_round hk]
  rw [ofRatio, round_scale unitsPerOne_pos]
  refine ⟨fun hle => ?_, fun hle => ?_⟩
  · have hround := round_mono (p := 52) (b := 100) hle
    rw [hexact] at hround
    rw [← hmag, ofBits]
    split
    · exact magnitude_mono hround
    · exact magnitude_mono (Nat.le_of_lt hbound)
  · have hround := round_mono (p := 52) (b := 100) hle
    rw [hexact] at hround
    rw [mag_ofBits (Nat.lt_of_le_of_lt hround hbound), ← hmag]
    exact magnitude_mono hround

/-- A timestamp is kept to a tenth of a second. -/
theorem near_decisec {now r : Nat} {t : Option Double} (h : decisec now t = .ok r)
    (hr : r < 2 ^ 36) : Near (t.getD (.ofInt now)) (r * 100) := by
  unfold decisec at h
  dsimp only at h
  split at h
  · cases h
  · generalize t.getD (.ofInt now) = ms at h ⊢
    obtain rfl := Except.ok.inj h
    have hU := Double.unitsPerOne_pos
    obtain ⟨k, hk⟩ : ∃ k, k = ms.mag / (100 * Double.unitsPerOne) := ⟨_, rfl⟩
    have hlo : k * (100 * Double.unitsPerOne) ≤ ms.mag := by
      rw [hk]
      exact Nat.div_mul_le_self _ _
    have hhi : ms.mag ≤ (k + 1) * (100 * Double.unitsPerOne) := by
      rw [hk, Nat.add_mul, Nat.one_mul]
      exact Nat.le_of_lt (Nat.lt_div_mul_add (by omega))
    have hround : ∀ q, roundDecisec ms = (2 * q + Double.unitsPerOne) / (2 * Double.unitsPerOne) →
        ∀ j, j * Double.unitsPerOne ≤ q → j ≤ roundDecisec ms := by
      intro q hq j hj
      rw [hq, Nat.le_div_iff_mul_le (by omega)]
      calc j * (2 * Double.unitsPerOne) = 2 * (j * Double.unitsPerOne) := by ring
        _ ≤ 2 * q + Double.unitsPerOne := by omega
    have hsmall : k < 2 ^ 36 := by
      by_contra hbig
      have hle : 2 ^ 36 * (100 * Double.unitsPerOne) ≤ ms.mag :=
        Nat.le_trans (Nat.mul_le_mul_right _ (Nat.not_lt.mp hbig)) hlo
      have := hround _ rfl (2 ^ 36) ((mag_quotient ms.neg (by decide)).1 hle)
      omega
    have hge := hround _ rfl k ((mag_quotient ms.neg (by omega)).1 hlo)
    have hle : roundDecisec ms ≤ k + 1 := by
      have hmag := (mag_quotient (m := ms.mag) (k := k + 1) ms.neg (by omega)).2 hhi
      rw [roundDecisec]
      refine Nat.le_of_lt_succ ((Nat.div_lt_iff_lt_mul (by omega)).mpr ?_)
      rw [show (k + 1 + 1) * (2 * Double.unitsPerOne) =
        2 * ((k + 1) * Double.unitsPerOne) + 2 * Double.unitsPerOne by ring]
      omega
    constructor
    · refine Nat.le_trans hhi ?_
      rw [← Nat.mul_assoc]
      refine Nat.mul_le_mul_right _ ?_
      omega
    · refine Nat.le_trans (Nat.mul_le_mul_right _ (Nat.mul_le_mul_right 100 hle)) ?_
      calc (k + 1) * 100 * Double.unitsPerOne
          = k * (100 * Double.unitsPerOne) + 100 * Double.unitsPerOne := by ring
        _ ≤ ms.mag + 100 * Double.unitsPerOne := Nat.add_le_add_right hlo _

/-! ## The core -/

/-- What is read back of a core: all of it, but for the ids that a bit field has no bit
for. -/
structure CoreBack (now now' : Nat) (c : ObjCore) (core : Core) : Prop where
  version : core.version = (c.version.map natOf).getD coreVersion
  created : Near (c.createdAt.getD (.ofInt now)) core.createdAt
  updated : Near ((c.lastUpdatedAt.orElse fun _ => c.createdAt).getD (.ofInt now'))
    core.lastUpdatedAt
  times : decisec now c.createdAt = .ok (core.createdAt / 100) ∧
    decisec now' (c.lastUpdatedAt.orElse fun _ => c.createdAt) = .ok (core.lastUpdatedAt / 100) ∧
    core.createdAt % 100 = 0 ∧ core.lastUpdatedAt % 100 = 0
  cmpId : (orZero c.cmpId).bind natValue? = some core.cmpId
  cmpVersion : (orZero c.cmpVersion).bind natValue? = some core.cmpVersion
  consentScreen : (orZero c.consentScreen).bind natValue? = some core.consentScreen
  consentLanguage : core.consentLanguage = toUpperCase (orText c.consentLanguage "EN")
  vendorListVersion : (orZero c.vendorListVersion).bind natValue? = some core.vendorListVersion
  policyVersion : core.policyVersion = (c.policyVersion.map natOf).getD corePolicyVersion
  isServiceSpecific : core.isServiceSpecific = (c.isServiceSpecific != some false)
  useNonStandardStacks : core.useNonStandardStacks = (c.useNonStandardStacks == some true)
  specialFeatureOptins : idSet core.specialFeatureOptins = upTo 12 c.specialFeatureOptins.given
  purposesConsent : idSet core.purposesConsent = upTo 24 c.purposesConsent.given
  purposesLI : idSet core.purposesLI = upTo 24 c.purposesLI.given
  purposeOneTreatment : core.purposeOneTreatment = (c.purposeOneTreatment == some true)
  publisherCC : core.publisherCC = toUpperCase (orText c.publisherCC "AA")
  vendorConsents : idSet core.vendorConsents.ids = idSet c.vendorConsents.given
  vendorLIs : idSet core.vendorLIs.ids = idSet c.vendorLIs.given
  publisherRestrictions : core.publisherRestrictions.map Restriction.signal =
    c.publisherRestrictions.map ObjRestriction.signal
  letters : Letters core.consentLanguage ∧ Letters core.publisherCC
  noZero : 0 ∉ c.vendorConsents.given ∧ 0 ∉ c.vendorLIs.given ∧
    ∀ r ∈ c.publisherRestrictions, 0 ∉ r.vendorIds.given

theorem optNat_default (x : Option Double) {n : Nat} (h : n < 2 ^ 53) :
    optNat (some (x.getD (.ofInt n))) = (x.map natOf).getD n := by
  cases x with
  | none =>
      rw [Option.getD_none, Option.map_none, Option.getD_none, optNat, Option.map_some,
        Option.getD_some, natOf_ofInt h]
  | some x => rfl

theorem reads_decisec {now : Nat} {t : Option Double}
    (h : (do writeNat (← decisec now t) 36) = Except.ok bits) :
    bits.length = 36 ∧ ∃ r, decisec now t = .ok r ∧ Reads (read 36) bits r ∧
      Near (t.getD (.ofInt now)) (r * 100) := by
  obtain ⟨r, hr, hw⟩ := Checked.bind_eq_ok.mp h
  exact ⟨length_writeNat hw, r, hr, reads_nat hw, near_decisec hr (writeNat_ok hw).1⟩

theorem reads_restrictions {rs : List ObjRestriction} {count entries : Bits}
    (hcount : writeNat rs.length 12 = .ok count)
    (hentries : writeAll (rs.map writeRestriction) = .ok entries) :
    entries.length = (rs.map fun r => 20 + runsWidth r.vendorIds.given).sum ∧
      ∃ rs', Reads parsePublisherRestrictions (count ++ entries) rs' ∧
        rs'.map Restriction.signal = rs.map ObjRestriction.signal ∧
        ∀ r ∈ rs, 0 ∉ r.vendorIds.given := by
  obtain ⟨hlen, rs', hreads, hsame⟩ := reads_map
    (R := fun r (r' : Restriction) => r'.signal = r.signal ∧ 0 ∉ r.vendorIds.given)
    (fun r _ bits hr => reads_restriction hr) hentries
  refine ⟨hlen, rs', (reads_nat hcount).bind hreads, ?_⟩
  clear hlen hcount hentries hreads
  induction hsame with
  | nil => exact ⟨rfl, fun _ hr => (nomatch hr)⟩
  | cons h _ ih =>
      refine ⟨?_, List.forall_mem_cons.mpr ⟨h.2, ih.2⟩⟩
      rw [List.map_cons, List.map_cons, h.1, ih.1]

theorem reads_core {now now' : Nat} {c : ObjCore} (h : encodeCore now now' c = .ok bits) :
    bits.length = coreWidth c ∧ ∃ core, Reads parseCore bits core ∧ CoreBack now now' c core := by
  obtain ⟨_, _, hversion, h1, rfl⟩ := writeAll_cons.mp h
  obtain ⟨_, _, hcreated, h2, rfl⟩ := writeAll_cons.mp h1
  obtain ⟨_, _, hupdated, h3, rfl⟩ := writeAll_cons.mp h2
  obtain ⟨_, _, hcmpId, h4, rfl⟩ := writeAll_cons.mp h3
  obtain ⟨_, _, hcmpVersion, h5, rfl⟩ := writeAll_cons.mp h4
  obtain ⟨_, _, hscreen, h6, rfl⟩ := writeAll_cons.mp h5
  obtain ⟨_, _, hlanguage, h7, rfl⟩ := writeAll_cons.mp h6
  obtain ⟨_, _, hlist, h8, rfl⟩ := writeAll_cons.mp h7
  obtain ⟨_, _, hpolicy, h9, rfl⟩ := writeAll_cons.mp h8
  obtain ⟨_, _, hspecific, h10, rfl⟩ := writeAll_cons.mp h9
  obtain ⟨_, _, hstacks, h11, rfl⟩ := writeAll_cons.mp h10
  obtain ⟨_, _, hfeatures, h12, rfl⟩ := writeAll_cons.mp h11
  obtain ⟨_, _, hconsent, h13, rfl⟩ := writeAll_cons.mp h12
  obtain ⟨_, _, hli, h14, rfl⟩ := writeAll_cons.mp h13
  obtain ⟨_, _, hone, h15, rfl⟩ := writeAll_cons.mp h14
  obtain ⟨_, _, hcountry, h16, rfl⟩ := writeAll_cons.mp h15
  obtain ⟨_, _, hvendors, h17, rfl⟩ := writeAll_cons.mp h16
  obtain ⟨_, _, hvendorLIs, h18, rfl⟩ := writeAll_cons.mp h17
  obtain ⟨_, _, hcount, h19, rfl⟩ := writeAll_cons.mp h18
  obtain ⟨_, _, hentries, h20, rfl⟩ := writeAll_cons.mp h19
  obtain rfl := writeAll_nil.mp h20
  obtain ⟨hlen2, created, hcreated', hcreatedReads, hnear⟩ := reads_decisec hcreated
  obtain ⟨hlen3, updated, hupdated', hupdatedReads, hnear'⟩ := reads_decisec hupdated
  obtain ⟨hlen7, hlanguageLetters, hlanguageReads⟩ := reads_letters hlanguage
  obtain ⟨hlen12, features, hfeaturesReads, hfeaturesSet⟩ := reads_writeBitField hfeatures
  obtain ⟨hlen13, consent, hconsentReads, hconsentSet⟩ := reads_writeBitField hconsent
  obtain ⟨hlen14, li, hliReads, hliSet⟩ := reads_writeBitField hli
  obtain ⟨hlen16, hcountryLetters, hcountryReads⟩ := reads_letters hcountry
  obtain ⟨hlen17, hvendorsZero, vendors, hvendorsReads, hvendorsSet⟩ := reads_vendorSection hvendors
  obtain ⟨hlen18, hvendorLIsZero, vendorLIs, hvendorLIsReads, hvendorLIsSet⟩ :=
    reads_vendorSection hvendorLIs
  obtain ⟨hlen20, restrictions, hrestrictionsReads, hrestrictionsSame, hrestrictionsZero⟩ :=
    reads_restrictions hcount hentries
  rw [List.append_nil]
  refine ⟨?_, _, (reads_int hversion).bind <| hcreatedReads.bind <| hupdatedReads.bind <|
    (reads_int hcmpId).bind <| (reads_int hcmpVersion).bind <| (reads_int hscreen).bind <|
    hlanguageReads.bind <| (reads_int hlist).bind <| (reads_int hpolicy).bind <|
    (reads_flag hspecific).bind <| (reads_flag hstacks).bind <| hfeaturesReads.bind <|
    hconsentReads.bind <| hliReads.bind <| (reads_flag hone).bind <| hcountryReads.bind <|
    hvendorsReads.bind <| hvendorLIsReads.bind hrestrictionsReads.last, ?_⟩
  · simp only [List.length_append, length_writeInt hversion, hlen2, hlen3, length_writeInt hcmpId,
      length_writeInt hcmpVersion, length_writeInt hscreen, hlen7, length_writeInt hlist,
      length_writeInt hpolicy, length_writeBool hspecific, length_writeBool hstacks, hlen12, hlen13,
      hlen14, length_writeBool hone, hlen16, hlen17, hlen18, length_writeNat hcount, hlen20,
      coreWidth]
    clear * -
    omega
  · exact {
      version := optNat_default _ (by decide)
      created := hnear
      updated := hnear'
      times := by
        refine ⟨?_, ?_, Nat.mul_mod_left _ _, Nat.mul_mod_left _ _⟩
        · rw [hcreated', Nat.mul_div_cancel _ (by decide)]
        · rw [hupdated', Nat.mul_div_cancel _ (by decide)]
      cmpId := writeInt_value hcmpId
      cmpVersion := writeInt_value hcmpVersion
      consentScreen := writeInt_value hscreen
      consentLanguage := rfl
      vendorListVersion := writeInt_value hlist
      policyVersion := optNat_default _ (by decide)
      isServiceSpecific := rfl
      useNonStandardStacks := rfl
      specialFeatureOptins := hfeaturesSet
      purposesConsent := hconsentSet
      purposesLI := hliSet
      purposeOneTreatment := rfl
      publisherCC := rfl
      vendorConsents := hvendorsSet
      vendorLIs := hvendorLIsSet
      publisherRestrictions := hrestrictionsSame
      letters := ⟨hlanguageLetters, hcountryLetters⟩
      noZero := ⟨hvendorsZero, hvendorLIsZero, hrestrictionsZero⟩ }

/-! ## The other segments -/

theorem reads_vendors {segType : Nat} {x : Coll} (h : encodeVendors segType x = .ok bits) :
    bits.length = 3 + vendorWidth x.given ∧ (∃ rest, bits = bitsOf 3 segType ++ rest) ∧
      0 ∉ x.given ∧
      ∃ v, Reads (parseSecondaryVendorSegment segType) bits v ∧ idSet v.ids = idSet x.given := by
  obtain ⟨_, _, htype, h1, rfl⟩ := writeAll_cons.mp h
  obtain ⟨_, _, hvendors, h2, rfl⟩ := writeAll_cons.mp h1
  obtain rfl := writeAll_nil.mp h2
  obtain ⟨hlen, hzero, v, hreads, hset⟩ := reads_vendorSection hvendors
  rw [List.append_nil]
  refine ⟨?_, ⟨_, by rw [(writeNat_ok htype).2]⟩, hzero, v, (reads_nat htype).bind ?_, hset⟩
  · rw [List.length_append, length_writeNat htype, hlen]
  · rw [if_neg (not_not.mpr rfl)]
    exact hreads

theorem customCount_eq {p : ObjPublisherTC} {custom customLI : List Nat}
    (hcustom : custom = sorted p.customPurposesConsent.given)
    (hcustomLI : customLI = sorted p.customPurposesLITransparency.given)
    (hnone : p.numCustomPurposes = none) :
    max (custom.getLast?.getD 0) (customLI.getLast?.getD 0) = p.customCount := by
  rw [ObjPublisherTC.customCount, hnone, hcustom, hcustomLI, getLast_sorted, getLast_sorted]
  dsimp only
  refine Nat.le_antisymm (Nat.max_le.mpr ⟨?_, ?_⟩) (foldr_max_le fun id hid => ?_)
  · exact foldr_max_le fun id hid => le_foldr_max (List.mem_append_left _ hid)
  · exact foldr_max_le fun id hid => le_foldr_max (List.mem_append_right _ hid)
  · rcases List.mem_append.mp hid with hid | hid
    · exact Nat.le_trans (le_foldr_max hid) (Nat.le_max_left _ _)
    · exact Nat.le_trans (le_foldr_max hid) (Nat.le_max_right _ _)

/-- What is read back of a publisher segment. -/
structure PublisherBack (p : ObjPublisherTC) (p' : PublisherTC) : Prop where
  consent : idSet p'.pubPurposesConsent = upTo 24 p.pubPurposesConsent.given
  legitimate : idSet p'.pubPurposesLITransparency = upTo 24 p.pubPurposesLITransparency.given
  count : p'.numCustomPurposes = p.customCount
  customConsent : idSet p'.customPurposesConsent = upTo p.customCount p.customPurposesConsent.given
  customLI : idSet p'.customPurposesLITransparency =
    upTo p.customCount p.customPurposesLITransparency.given

theorem reads_publisher {p : ObjPublisherTC} (h : encodePublisherTC p = .ok bits) :
    bits.length = publisherWidth p ∧ (∃ rest, bits = bitsOf 3 segmentPublisherTC ++ rest) ∧
      ∃ p', Reads parsePublisherTC bits p' ∧ PublisherBack p p' := by
  obtain ⟨head, hhead, h⟩ := Checked.bind_eq_ok.mp h
  obtain ⟨custom, hcustom, h⟩ := Checked.bind_eq_ok.mp h
  obtain ⟨customLI, hcustomLI, h⟩ := Checked.bind_eq_ok.mp h
  obtain ⟨n, hn, h⟩ := Checked.bind_eq_ok.mp h
  obtain ⟨tail, htail, h⟩ := Checked.bind_eq_ok.mp h
  cases h
  obtain ⟨hcustomEq, hpos⟩ := idArray_ok hcustom
  obtain ⟨hcustomLIEq, hposLI⟩ := idArray_ok hcustomLI
  have hcount : n = p.customCount := by
    unfold numCustom at hn
    split at hn
    · next x hnum =>
        split at hn
        · next n' hx =>
            cases hn
            have hnat : natOf x = n := by rw [natOf, hx, Option.getD_some]
            rw [ObjPublisherTC.customCount, hnum]
            exact hnat.symm
        · cases hn
    · next hnum =>
        cases hn
        exact customCount_eq hcustomEq hcustomLIEq hnum
  subst hcount
  obtain ⟨_, _, htype, h1, rfl⟩ := writeAll_cons.mp hhead
  obtain ⟨_, _, hconsent, h2, rfl⟩ := writeAll_cons.mp h1
  obtain ⟨_, _, hli, h3, rfl⟩ := writeAll_cons.mp h2
  obtain rfl := writeAll_nil.mp h3
  obtain ⟨_, _, hnum, h4, rfl⟩ := writeAll_cons.mp htail
  obtain ⟨_, _, hfield, h5, rfl⟩ := writeAll_cons.mp h4
  obtain ⟨_, _, hfieldLI, h6, rfl⟩ := writeAll_cons.mp h5
  obtain rfl := writeAll_nil.mp h6
  cases hfield
  cases hfieldLI
  obtain ⟨hlen, consent, hconsentReads, hconsentSet⟩ := reads_writeBitField hconsent
  obtain ⟨hlenLI, li, hliReads, hliSet⟩ := reads_writeBitField hli
  have hback : ∀ {ids : List Nat} {x : Coll}, ids = sorted x.given → (∀ id ∈ x.given, 0 < id) →
      idSet (setBits 1 (bitField ids p.customCount)) = upTo p.customCount x.given := by
    rintro _ x rfl hpos
    rw [idSet_bitField fun id hid => hpos id (mem_sorted.mp hid)]
    exact Set.ext fun id => and_congr_left fun _ => mem_sorted
  simp only [List.append_nil, List.append_assoc]
  refine ⟨?_, ⟨_, by rw [(writeNat_ok htype).2]⟩, _, (reads_nat htype).bind <|
    hconsentReads.bind <| hliReads.bind <| (reads_nat hnum).bind <|
    (reads_bitField custom _).bind (reads_bitField customLI _).last, ?_⟩
  · simp only [List.length_append, length_writeNat htype, hlen, hlenLI, length_writeNat hnum,
      length_bitField, publisherWidth]
    omega
  · exact ⟨hconsentSet, hliSet, rfl, hback hcustomEq hpos, hback hcustomLIEq hposLI⟩

end Blamejs.IabTcf
