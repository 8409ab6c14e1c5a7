import Blamejs.Proofs.CborEntries
import Blamejs.Proofs.CborScalar

/-!
# An encoded value decodes to itself

`Coded v c` is everything the round trip needs to know about one value: the
bytes it is written as, the value those are read back as, whatever follows them,
and that encoding the latter gives the same bytes. Every constructor preserves
it; a map is the work, since its entries are sorted on the way out and told
apart twice on the way in.
-/

namespace Blamejs.Cbor

open Blamejs.Js

/-! ## What may be in a value -/

/-- What a node needs for its own step of the round trip. -/
def FitNode (limits : Limits) (v : Value) : Prop :=
  EncodableNode v ∧ BomFree v ∧ TagNode (fun n => n ∈ limits.allowedTags ∧ n ≤ Double.maxSafe) v

theorem headSize_pos (n : Nat) : 0 < headSize n := by
  unfold headSize
  split_ifs <;> decide

theorem size_pos (v : Value) : 0 < size v := by
  have hint : ∀ z, 0 < intSize z := fun z => headSize_pos _
  rw [size.eq_def]
  split
  · unfold numberSize
    split_ifs
    · exact hint _
    · decide
    · decide
  · exact hint _
  · exact Nat.add_pos_left (headSize_pos _) _
  · exact Nat.add_pos_left (headSize_pos _) _
  · exact Nat.add_pos_left (headSize_pos _) _
  · exact Nat.add_pos_left (headSize_pos _) _
  · exact Nat.add_pos_left (headSize_pos _) _
  · exact Nat.add_pos_left (headSize_pos _) _
  · decide

theorem length_le_itemsSize (items : List Value) : items.length ≤ itemsSize items := by
  induction items with
  | nil => exact Nat.le_refl _
  | cons v vs ih =>
      have := size_pos v
      rw [List.length_cons, itemsSize]
      omega

theorem length_le_entriesSize (es : List (Value × Value)) : es.length ≤ entriesSize es := by
  induction es with
  | nil => exact Nat.le_refl _
  | cons e es ih =>
      have := size_pos e.1
      rw [List.length_cons, entriesSize]
      omega

theorem size_le_itemsSize {items : List Value} {v : Value} (h : v ∈ items) :
    size v ≤ itemsSize items := by
  induction items with
  | nil => exact (List.not_mem_nil h).elim
  | cons w ws ih =>
      rw [itemsSize]
      rcases List.mem_cons.mp h with rfl | hmem
      · omega
      · have := ih hmem
        omega

theorem size_le_entriesSize {es : List (Value × Value)} {e : Value × Value} (h : e ∈ es) :
    size e.1 ≤ entriesSize es ∧ size e.2 ≤ entriesSize es := by
  induction es with
  | nil => exact (List.not_mem_nil h).elim
  | cons f es ih =>
      rw [entriesSize]
      rcases List.mem_cons.mp h with rfl | hmem
      · omega
      · have := ih hmem
        omega

/-! ## One value -/

/-- Bytes and the value they are read back as. -/
structure Code where
  bytes : List UInt8
  value : Value

/-- A number no other encoding of a key stands for. -/
def Plain : Value → Prop
  | .num x => x.isInteger = true ∧ x.isNegZero = false
  | _ => True

structure Coded (limits : Limits) (v : Value) (c : Code) : Prop where
  returns : Returns v c.value
  length : c.bytes.length = size v
  encode : ∀ depth, depth + height v ≤ absoluteMaxDepth →
    encodeValue false depth v = .ok c.bytes
  reencode : ∀ depth, depth + height v ≤ absoluteMaxDepth →
    encodeValue false depth c.value = .ok c.bytes
  decode : ∀ fuel depth rest, depth + height v ≤ limits.maxDepth → 2 * c.bytes.length + 1 ≤ fuel →
    decodeItem limits fuel depth (c.bytes ++ rest) = .ok (c.value, rest)
  short : Short c.value
  plain : Plain c.value

variable {limits : Limits}

theorem exists_fuel {n fuel : Nat} (h : 2 * n + 1 ≤ fuel) : ∃ f, fuel = f + 1 :=
  ⟨fuel - 1, by omega⟩

/-- A value without parts, from what happens at one level. -/
theorem Coded.of_leaf {v : Value} {c : Code} (hheight : height v = 0) (hreturns : Returns v c.value)
    (hlength : c.bytes.length = size v)
    (hencode : ∀ depth, ¬ absoluteMaxDepth < depth → encodeValue false depth v = .ok c.bytes)
    (hreencode : ∀ depth, ¬ absoluteMaxDepth < depth →
      encodeValue false depth c.value = .ok c.bytes)
    (hdecode : ∀ fuel depth rest, depth ≤ limits.maxDepth →
      decodeItem limits (fuel + 1) depth (c.bytes ++ rest) = .ok (c.value, rest))
    (hshort : Short c.value) (hplain : Plain c.value) : Coded limits v c where
  returns := hreturns
  length := hlength
  encode := fun depth h => hencode depth (by omega)
  reencode := fun depth h => hreencode depth (by omega)
  decode := by
    intro fuel depth rest hdepth hfuel
    obtain ⟨f, rfl⟩ := exists_fuel hfuel
    exact hdecode f depth rest (by omega)
  short := hshort
  plain := hplain

theorem short_ofInteger {z : Int} (h : -2 ^ 64 ≤ z ∧ z < 2 ^ 64) : Short (ofInteger z) := by
  unfold ofInteger
  split
  · trivial
  · exact h

theorem plain_ofInteger (z : Int) : Plain (ofInteger z) := by
  unfold ofInteger
  split
  · next h =>
      rw [Double.maxSafe] at h
      exact ⟨Double.isInteger_ofInt (by omega), Double.isNegZero_ofInt (by omega)⟩
  · trivial

theorem encodeValue_ofInteger {depth : Nat} {z : Int} (hdepth : ¬ absoluteMaxDepth < depth)
    (h : -2 ^ 64 ≤ z ∧ z < 2 ^ 64) :
    encodeValue false depth (ofInteger z) = .ok (intBytes z) := by
  unfold ofInteger
  split
  · next hz =>
      rw [Double.maxSafe] at hz
      have hsmall : z.natAbs < 2 ^ 53 := by omega
      rw [encodeValue, if_neg hdepth,
        encodeNumber_eq (Double.isInteger_ofInt hsmall) (Double.isNegZero_ofInt hsmall),
        numberBytes, if_pos (Double.isSafeInteger_ofInt hsmall), Double.toInt_ofInt hsmall]
  · rw [encodeValue, if_neg hdepth, encodeInt_eq h]

theorem encodeText_eq {s : JsString} (h : (utf8 s).length ≤ Double.maxSafe) :
    encodeText s = .ok (headBytes 3 (utf8 s).length ++ utf8 s) := by
  rw [encodeText, headed, head_eq (Nat.lt_of_le_of_lt h (by decide))]
  rfl

theorem coded_leaf {v : Value} (hparts : HasNoParts v) (hfit : FitNode limits v)
    (hsize : size v ≤ Double.maxSafe) : ∃ c, Coded limits v c := by
  obtain ⟨henc, hbom, -⟩ := hfit
  match v with
  | .null =>
      refine ⟨⟨[0xf6], .null⟩, .of_leaf rfl (by rw [Returns]) rfl ?_ ?_ ?_ trivial trivial⟩
      · intro depth hdepth
        rw [encodeValue, if_neg hdepth]
      · intro depth hdepth
        rw [encodeValue, if_neg hdepth]
      · intro fuel depth rest hdepth
        rw [List.singleton_append, decodeItem, if_neg (Nat.not_lt.mpr hdepth)]
        rfl
  | .bool b =>
      refine ⟨⟨if b then [0xf5] else [0xf4], .bool b⟩,
        .of_leaf rfl (by rw [Returns]) ?_ ?_ ?_ ?_ trivial trivial⟩
      · cases b <;> rfl
      · intro depth hdepth
        rw [encodeValue, if_neg hdepth]
      · intro depth hdepth
        rw [encodeValue, if_neg hdepth]
      · intro fuel depth rest hdepth
        cases b with
        | false =>
            rw [if_neg (by decide), List.singleton_append, decodeItem,
              if_neg (Nat.not_lt.mpr hdepth)]
            rfl
        | true =>
            rw [if_pos rfl, List.singleton_append, decodeItem, if_neg (Nat.not_lt.mpr hdepth)]
            rfl
  | .num x =>
      obtain ⟨hint, hz⟩ := henc
      have hencode : ∀ depth, ¬ absoluteMaxDepth < depth →
          encodeValue false depth (.num x) = .ok (numberBytes x) := by
        intro depth hdepth
        rw [encodeValue, if_neg hdepth, encodeNumber_eq hint hz]
      refine ⟨⟨numberBytes x, .num x⟩, .of_leaf rfl (by rw [Returns]) (length_numberBytes x)
        hencode hencode ?_ trivial ⟨hint, hz⟩⟩
      intro fuel depth rest hdepth
      exact decodeItem_numberBytes hdepth hint hz
  | .bigint z =>
      refine ⟨⟨intBytes z, ofInteger z⟩, .of_leaf rfl (by rw [Returns]) (length_intBytes z) ?_ ?_ ?_
        (short_ofInteger henc) (plain_ofInteger z)⟩
      · intro depth hdepth
        rw [encodeValue, if_neg hdepth, encodeInt_eq henc]
      · intro depth hdepth
        exact encodeValue_ofInteger hdepth henc
      · intro fuel depth rest hdepth
        exact decodeItem_intBytes hdepth henc
  | .text s =>
      have hlen : (utf8 s).length ≤ Double.maxSafe := by
        rw [size, textSize] at hsize
        omega
      have hencode : ∀ depth, ¬ absoluteMaxDepth < depth → encodeValue false depth (.text s)
          = .ok (headBytes 3 (utf8 s).length ++ utf8 s) := by
        intro depth hdepth
        rw [encodeValue, if_neg hdepth, encodeText_eq hlen]
      refine ⟨⟨headBytes 3 (utf8 s).length ++ utf8 s, .text s⟩,
        .of_leaf rfl (by rw [Returns]) ?_ hencode hencode ?_
          (Nat.lt_of_le_of_lt hlen (by decide)) trivial⟩
      · rw [List.length_append, length_headBytes]
        rfl
      · intro fuel depth rest hdepth
        rw [List.append_assoc, decodeItem_text hdepth henc hlen, withoutBom_eq_self hbom]
  | .bytes bs =>
      have hlen : bs.length ≤ Double.maxSafe := by
        rw [size] at hsize
        omega
      have hencode : ∀ depth, ¬ absoluteMaxDepth < depth → encodeValue false depth (.bytes bs)
          = .ok (headBytes 2 bs.length ++ bs) := by
        intro depth hdepth
        rw [encodeValue, if_neg hdepth, headed, head_eq (Nat.lt_of_le_of_lt hlen (by decide))]
        rfl
      refine ⟨⟨headBytes 2 bs.length ++ bs, .bytes bs⟩,
        .of_leaf rfl (by rw [Returns]) ?_ hencode hencode ?_ trivial trivial⟩
      · rw [List.length_append, length_headBytes]
        rfl
      · intro fuel depth rest hdepth
        rw [List.append_assoc, decodeItem_bytes hdepth hlen]

/-! ## Tags and arrays -/

theorem bytes_pos {v : Value} {c : Code} (h : Coded limits v c) : 0 < c.bytes.length := by
  rw [h.length]
  exact size_pos v

theorem coded_tag {n : Nat} {v : Value} {c : Code} (hn : n ∈ limits.allowedTags)
    (hsafe : n ≤ Double.maxSafe) (h : Coded limits v c) :
    Coded limits (.tag n v) ⟨headBytes 6 n ++ c.bytes, .tag n c.value⟩ where
  returns := by
    rw [Returns]
    exact ⟨c.value, rfl, h.returns⟩
  length := by rw [List.length_append, length_headBytes, h.length, size]
  encode := by
    intro depth hdepth
    rw [height] at hdepth
    rw [encodeValue, if_neg (by omega), head_eq (Nat.lt_of_le_of_lt hsafe (by decide)),
      h.encode (depth + 1) (by omega)]
    rfl
  reencode := by
    intro depth hdepth
    rw [height] at hdepth
    rw [encodeValue, if_neg (by omega), head_eq (Nat.lt_of_le_of_lt hsafe (by decide)),
      h.reencode (depth + 1) (by omega)]
    rfl
  decode := by
    intro fuel depth rest hdepth hfuel
    rw [height] at hdepth
    rw [List.length_append, length_headBytes] at hfuel
    obtain ⟨f, rfl⟩ : ∃ f, fuel = f + 1 := ⟨fuel - 1, by omega⟩
    have := headSize_pos n
    rw [List.append_assoc, decodeItem_tag (by omega) hsafe hn,
      h.decode f (depth + 1) rest (by omega) (by omega)]
    rfl
  short := trivial
  plain := trivial

section Items

variable {items : List Value} {cs : List Code}

theorem exists_forall₂ {α β : Type} {R : α → β → Prop} {l : List α} (h : ∀ a ∈ l, ∃ b, R a b) :
    ∃ l', List.Forall₂ R l l' := by
  induction l with
  | nil => exact ⟨[], .nil⟩
  | cons a l ih =>
      obtain ⟨ha, hl⟩ := List.forall_mem_cons.mp h
      obtain ⟨b, hb⟩ := ha
      obtain ⟨l', hl'⟩ := ih hl
      exact ⟨b :: l', .cons hb hl'⟩

theorem encodeItems_eq (h : List.Forall₂ (Coded limits) items cs) {depth : Nat}
    (hdepth : depth + itemsHeight items ≤ absoluteMaxDepth + 1) :
    encodeItems false depth items = .ok (cs.flatMap Code.bytes) ∧
      encodeItems false depth (cs.map Code.value) = .ok (cs.flatMap Code.bytes) := by
  induction h with
  | nil => exact ⟨by rw [encodeItems]; rfl, by rw [List.map_nil, encodeItems]; rfl⟩
  | cons hv hvs ih =>
      rw [itemsHeight] at hdepth
      obtain ⟨henc, hre⟩ := ih (by omega)
      rw [encodeItems, hv.encode depth (by omega), henc, List.map_cons, encodeItems,
        hv.reencode depth (by omega), hre]
      exact ⟨rfl, rfl⟩

theorem decodeItems_eq (h : List.Forall₂ (Coded limits) items cs) {fuel depth : Nat}
    (rest : List UInt8) (hdepth : depth + itemsHeight items ≤ limits.maxDepth + 1)
    (hfuel : 2 * (cs.flatMap Code.bytes).length + 2 ≤ fuel) :
    decodeItems limits fuel depth items.length (cs.flatMap Code.bytes ++ rest)
      = .ok (cs.map Code.value, rest) := by
  induction h generalizing fuel with
  | nil =>
      rw [List.length_nil, decodeItems]
      rfl
  | cons hv hvs ih =>
      rw [itemsHeight] at hdepth
      rw [List.flatMap_cons, List.length_append] at hfuel
      have hpos := bytes_pos hv
      obtain ⟨f, rfl⟩ : ∃ f, fuel = f + 1 := ⟨fuel - 1, by omega⟩
      rw [List.length_cons, decodeItems, List.flatMap_cons, List.append_assoc,
        hv.decode f depth _ (by omega) (by omega), bind_ok]
      dsimp only
      rw [ih (by omega) (by omega)]
      rfl

theorem length_flatMap_bytes (h : List.Forall₂ (Coded limits) items cs) :
    (cs.flatMap Code.bytes).length = itemsSize items := by
  induction h with
  | nil => rfl
  | cons hv hvs ih => rw [List.flatMap_cons, List.length_append, hv.length, ih, itemsSize]

theorem coded_array (h : List.Forall₂ (Coded limits) items cs)
    (hlen : items.length ≤ Double.maxSafe) :
    Coded limits (.array items)
      ⟨headBytes 4 items.length ++ cs.flatMap Code.bytes, .array (cs.map Code.value)⟩ where
  returns := by
    rw [Returns]
    refine ⟨_, rfl, itemsReturn_iff.mpr (List.forall₂_map_right_iff.mpr ?_)⟩
    exact h.imp fun _ _ hc => hc.returns
  length := by rw [List.length_append, length_headBytes, length_flatMap_bytes h, size]
  encode := by
    intro depth hdepth
    rw [height] at hdepth
    rw [encodeValue, if_neg (by omega), head_eq (Nat.lt_of_le_of_lt hlen (by decide)),
      (encodeItems_eq h (by omega)).1]
    rfl
  reencode := by
    intro depth hdepth
    rw [height] at hdepth
    rw [encodeValue, if_neg (by omega), List.length_map, ← h.length_eq,
      head_eq (Nat.lt_of_le_of_lt hlen (by decide)), (encodeItems_eq h (by omega)).2]
    rfl
  decode := by
    intro fuel depth rest hdepth hfuel
    rw [height] at hdepth
    rw [List.length_append, length_headBytes] at hfuel
    obtain ⟨f, rfl⟩ : ∃ f, fuel = f + 1 := ⟨fuel - 1, by omega⟩
    have := headSize_pos items.length
    rw [List.append_assoc, decodeItem_array (by omega) hlen,
      decodeItems_eq h rest (by omega) (by omega)]
    rfl
  short := trivial
  plain := trivial

end Items

/-! ## Keys -/

/-- Two values that return the same have the same bytes, and conversely. -/
theorem bytes_ne_of_distinct {v w : Value} {c d : Code} (hv : Coded limits v c)
    (hw : Coded limits w d) (hheight : height v ≤ limits.maxDepth ∧ height w ≤ limits.maxDepth)
    (h : Distinct v w) : c.bytes ≠ d.bytes := by
  intro heq
  have hdv := hv.decode (2 * c.bytes.length + 1) 0 [] (by omega) (Nat.le_refl _)
  have hdw := hw.decode (2 * c.bytes.length + 1) 0 [] (by omega) (by rw [heq])
  rw [← heq] at hdw
  rw [hdw, Except.ok.injEq, Prod.mk.injEq] at hdv
  exact h c.value hv.returns (hdv.1 ▸ hw.returns)

theorem keyId_eq {v : Value} {c : Code} (hv : Coded limits v c)
    (hheight : height v ≤ absoluteMaxDepth) (raw : List UInt8) : keyId c.value raw = c.bytes := by
  rw [keyId, encode, hv.reencode 0 (by omega)]

/-- What a `Map` takes for one key was written as the same bytes. -/
theorem bytes_eq_of_sameKey {v w : Value} {c d : Code} (hv : Coded limits v c)
    (hw : Coded limits w d)
    (hheight : height v ≤ absoluteMaxDepth ∧ height w ≤ absoluteMaxDepth)
    (h : sameKey c.value d.value = true) : c.bytes = d.bytes := by
  rcases merge_or_keyId_eq h hv.short with hmerge | hid
  · -- an integer merges with itself only
    have heq : c.value = d.value := by
      have hcp := hv.plain
      have hdp := hw.plain
      unfold merge at hmerge
      split at hmerge
      · next x y hx hy =>
          rw [hx] at hcp ⊢
          rw [hy] at hdp ⊢
          obtain ⟨hxint, hxz⟩ := hcp
          obtain ⟨hyint, hyz⟩ := hdp
          have hxfin := isFinite_of_isInteger hxint
          rw [Double.isNaN_of_isFinite hxfin, Double.isInfinite_of_isFinite hxfin, Bool.false_and,
            Bool.false_or, Bool.false_and, Bool.false_and, Bool.or_false,
            Bool.and_eq_true] at hmerge
          rw [Double.isNegZero, hmerge.1, Bool.and_true] at hxz
          rw [Double.isNegZero, hmerge.2, Bool.and_true] at hyz
          have hmag := (Double.mag_eq_zero_iff.mpr hmerge.1).trans
            (Double.mag_eq_zero_iff.mpr hmerge.2).symm
          rw [Double.ext_mag (hxz.trans hyz.symm) hmag]
      · exact absurd hmerge (by decide)
    have hc := keyId_eq hv hheight.1 []
    rw [heq, keyId_eq hw hheight.2] at hc
    exact hc.symm
  · have hc := hid [] []
    rwa [keyId_eq hv hheight.1, keyId_eq hw hheight.2] at hc

/-! ## Maps -/

def CodedEntry (limits : Limits) (e : Value × Value) (c : Code × Code) : Prop :=
  Coded limits e.1 c.1 ∧ Coded limits e.2 c.2

def entryBytes (c : Code × Code) : List UInt8 × List UInt8 := (c.1.bytes, c.2.bytes)

def entryValues (c : Code × Code) : Value × Value := (c.1.value, c.2.value)

def flatEntry (c : Code × Code) : List UInt8 := c.1.bytes ++ c.2.bytes

/-- An entry of some map whose parts have height at most `H`. -/
def Within (limits : Limits) (H : Nat) (c : Code × Code) : Prop :=
  ∃ e, CodedEntry limits e c ∧ height e.1 < H ∧ height e.2 < H

theorem encodeEntries_eq {depth : Nat} {es : List (Value × Value)} {cs : List (Code × Code)}
    (h : List.Forall₂ (fun e c => encodeValue false depth e.1 = .ok c.1.bytes ∧
      encodeValue false depth e.2 = .ok c.2.bytes) es cs) :
    encodeEntries false depth es = .ok (cs.map entryBytes) := by
  induction h with
  | nil =>
      rw [encodeEntries]
      rfl
  | cons he hes ih =>
      rw [encodeEntries, he.1, he.2, ih]
      rfl

theorem hasDuplicate_eq_false {l : List (List UInt8 × List UInt8)}
    (h : l.Pairwise fun a b => a.1 ≠ b.1) : hasDuplicate l = false := by
  induction l with
  | nil => rfl
  | cons a l ih =>
      cases l with
      | nil => rfl
      | cons b l =>
          obtain ⟨ha, hl⟩ := List.pairwise_cons.mp h
          rw [hasDuplicate, ih hl, Bool.or_false]
          exact beq_false_of_ne (ha b List.mem_cons_self)

def codeLE (a b : Code × Code) : Prop := entryLE (entryBytes a) (entryBytes b)

instance : DecidableRel codeLE := fun a b =>
  inferInstanceAs (Decidable (entryLE (entryBytes a) (entryBytes b)))

instance : Std.Total codeLE := ⟨fun a b => Std.Total.total (r := bytesLE) a.1.bytes b.1.bytes⟩

instance : IsTrans (Code × Code) codeLE :=
  ⟨fun a b c => IsTrans.trans (r := bytesLE) a.1.bytes b.1.bytes c.1.bytes⟩

def sortCodes (cs : List (Code × Code)) : List (Code × Code) := cs.insertionSort codeLE

theorem perm_sortCodes (cs : List (Code × Code)) : (sortCodes cs).Perm cs :=
  List.perm_insertionSort _ cs

theorem map_sortCodes (cs : List (Code × Code)) :
    (cs.map entryBytes).insertionSort entryLE = (sortCodes cs).map entryBytes :=
  (List.map_insertionSort (r := codeLE) (s := entryLE) entryBytes cs fun _ _ _ _ => Iff.rfl).symm

theorem assembleMap_eq {cs : List (Code × Code)}
    (hdistinct : cs.Pairwise fun c d => c.1.bytes ≠ d.1.bytes) (hlen : cs.length < 2 ^ 64) :
    assembleMap (cs.map entryBytes)
      = .ok (headBytes 5 cs.length ++ (sortCodes cs).flatMap flatEntry) := by
  have hsorted : ((sortCodes cs).map entryBytes).Pairwise fun a b => a.1 ≠ b.1 := by
    refine List.pairwise_map.mpr ?_
    exact (perm_sortCodes cs).symm.pairwise hdistinct fun h => h.symm
  have hlength : (sortCodes cs).length = cs.length := (perm_sortCodes cs).length_eq
  unfold assembleMap
  dsimp only
  rw [map_sortCodes, hasDuplicate_eq_false hsorted, if_neg (by decide), headed, List.length_map,
    hlength, head_eq hlen, List.flatMap_map]
  rfl

theorem decodeEntries_eq {H depth : Nat} {cs : List (Code × Code)} (fuel : Nat)
    (seen : List (List UInt8)) (m : List (Value × Value)) (rest : List UInt8)
    (hcs : ∀ c ∈ cs, Within limits H c)
    (hdistinct : cs.Pairwise fun c d => c.1.bytes ≠ d.1.bytes)
    (hseen : ∀ c ∈ cs, c.1.bytes ∉ seen)
    (hm : ∀ p ∈ m, ∀ c ∈ cs, sameKey p.1 c.1.value = false)
    (hdepth : depth + H ≤ limits.maxDepth + 1) (hH : H ≤ absoluteMaxDepth + 1)
    (hfuel : 2 * (cs.flatMap flatEntry).length + 2 ≤ fuel) :
    decodeEntries limits fuel depth cs.length seen m (cs.flatMap flatEntry ++ rest)
      = .ok (m ++ cs.map entryValues, rest) := by
  induction cs generalizing fuel seen m with
  | nil =>
      rw [List.length_nil, decodeEntries, List.map_nil, List.append_nil]
      rfl
  | cons c cs ih =>
      obtain ⟨⟨e, ⟨hk, hv⟩, hhk, hhv⟩, hrest⟩ := List.forall_mem_cons.mp hcs
      obtain ⟨hnew, hseen'⟩ := List.forall_mem_cons.mp hseen
      obtain ⟨hc, hdistinct'⟩ := List.pairwise_cons.mp hdistinct
      rw [List.flatMap_cons, flatEntry, List.length_append, List.length_append] at hfuel
      have hpos := bytes_pos hk
      obtain ⟨f, rfl⟩ : ∃ f, fuel = f + 1 := ⟨fuel - 1, by omega⟩
      rw [List.length_cons, decodeEntries, List.flatMap_cons, flatEntry, List.append_assoc,
        List.append_assoc, hk.decode f depth _ (by omega) (by omega), bind_ok]
      dsimp only
      rw [keyId_eq hk (by omega), if_neg hnew, hv.decode f depth _ (by omega) (by omega), bind_ok]
      dsimp only
      rw [mapSet_of_absent fun p hp => hm p hp c List.mem_cons_self,
        ih f _ _ hrest hdistinct' ?_ ?_ (by omega), List.map_cons, List.append_assoc]
      · rfl
      · intro d hd hmem
        rcases List.mem_cons.mp hmem with heq | hmem
        · exact hc d hd heq.symm
        · exact hseen' d hd hmem
      · intro p hp d hd
        rcases List.mem_append.mp hp with hp | hp
        · exact hm p hp d (List.mem_cons_of_mem _ hd)
        · obtain rfl := List.mem_singleton.mp hp
          obtain ⟨e', ⟨hk', -⟩, hhk', -⟩ := hrest d hd
          rw [Bool.eq_false_iff]
          exact fun hsame => hc d hd (bytes_eq_of_sameKey hk hk' (by omega) hsame)

section Lists

variable {α β : Type} {l : List α} {l' : List β} {S : α → β → Prop}

theorem exists_of_mem_right (h : List.Forall₂ S l l') {b : β} (hb : b ∈ l') :
    ∃ a ∈ l, S a b := by
  induction h with
  | nil => exact (List.not_mem_nil hb).elim
  | cons hab hl ih =>
      rcases List.mem_cons.mp hb with rfl | hmem
      · exact ⟨_, List.mem_cons_self, hab⟩
      · obtain ⟨a, ha, hS⟩ := ih hmem
        exact ⟨a, List.mem_cons_of_mem _ ha, hS⟩

theorem pairwise_right {R : α → α → Prop} {T : β → β → Prop}
    (hT : ∀ {a b c d}, R a b → S a c → S b d → T c d) (h : List.Forall₂ S l l')
    (hl : l.Pairwise R) : l'.Pairwise T := by
  induction h with
  | nil => exact List.Pairwise.nil
  | cons hab hrest ih =>
      obtain ⟨ha, hl⟩ := List.pairwise_cons.mp hl
      refine List.pairwise_cons.mpr ⟨fun d hd => ?_, ih hl⟩
      obtain ⟨b, hb, hbd⟩ := exists_of_mem_right hrest hd
      exact hT (ha b hb) hab hbd

end Lists

section Entries

variable {es : List (Value × Value)} {cs : List (Code × Code)}

theorem within_of_forall₂ (h : List.Forall₂ (CodedEntry limits) es cs) {c : Code × Code}
    (hc : c ∈ cs) : Within limits (entriesHeight es) c := by
  obtain ⟨e, he, hec⟩ := exists_of_mem_right h hc
  exact ⟨e, hec, height_lt_of_mem_entries he⟩

theorem distinct_of_forall₂ (h : List.Forall₂ (CodedEntry limits) es cs)
    (hdistinct : es.Pairwise fun e f => Distinct e.1 f.1)
    (hheight : entriesHeight es ≤ limits.maxDepth) :
    cs.Pairwise fun c d => c.1.bytes ≠ d.1.bytes := by
  have hbounded : List.Forall₂ (fun e c => height e.1 ≤ limits.maxDepth ∧ CodedEntry limits e c)
      es cs := by
    refine (List.forall₂_and_left es cs).mpr ⟨fun e he => ?_, h⟩
    have := (height_lt_of_mem_entries he).1
    omega
  refine pairwise_right ?_ hbounded hdistinct
  intro e f c d hef hec hfd
  exact bytes_ne_of_distinct hec.2.1 hfd.2.1 ⟨hec.1, hfd.1⟩ hef

theorem length_flatMap_flatEntry (h : List.Forall₂ (CodedEntry limits) es cs) :
    ((sortCodes cs).flatMap flatEntry).length = entriesSize es := by
  rw [List.length_flatMap, ((perm_sortCodes cs).map _).sum_nat]
  induction h with
  | nil => rfl
  | cons he hes ih =>
      rw [List.map_cons, List.sum_cons, ih, flatEntry, List.length_append, he.1.length,
        he.2.length, entriesSize]

/-- A `Map`, or a plain object read as one. -/
theorem coded_entries {v : Value} (h : List.Forall₂ (CodedEntry limits) es cs)
    (hdistinct : es.Pairwise fun e f => Distinct e.1 f.1)
    (hheight : entriesHeight es ≤ limits.maxDepth) (hlimits : limits.maxDepth ≤ absoluteMaxDepth)
    (hlen : es.length ≤ Double.maxSafe) (hvheight : height v = entriesHeight es)
    (hvsize : size v = headSize es.length + entriesSize es)
    (hvreturns : ∀ ws ws', List.Perm ws ws' → EntriesReturn es ws' → Returns v (.map ws))
    (hvencode : ∀ depth, depth + entriesHeight es ≤ absoluteMaxDepth →
      encodeValue false depth v = encodeEntries false (depth + 1) es >>= assembleMap) :
    ∃ c, Coded limits v c := by
  have hcs : ∀ c ∈ sortCodes cs, Within limits (entriesHeight es) c := fun c hc =>
    within_of_forall₂ h ((perm_sortCodes cs).mem_iff.mp hc)
  have hne := distinct_of_forall₂ h hdistinct hheight
  have hnesorted : (sortCodes cs).Pairwise fun c d => c.1.bytes ≠ d.1.bytes :=
    (perm_sortCodes cs).symm.pairwise hne fun h => h.symm
  have hcslen : cs.length = es.length := h.length_eq.symm
  have hsortlen : (sortCodes cs).length = es.length :=
    (perm_sortCodes cs).length_eq.trans hcslen
  have hn : es.length < 2 ^ 64 := Nat.lt_of_le_of_lt hlen (by decide)
  have hsort : sortCodes (sortCodes cs) = sortCodes cs :=
    (List.pairwise_insertionSort codeLE cs).insertionSort_eq
  refine ⟨⟨headBytes 5 es.length ++ (sortCodes cs).flatMap flatEntry,
    .map ((sortCodes cs).map entryValues)⟩, ?_, ?_, ?_, ?_, ?_, trivial, trivial⟩
  · refine hvreturns _ (cs.map entryValues) ((perm_sortCodes cs).map _) ?_
    refine entriesReturn_iff.mpr (List.forall₂_map_right_iff.mpr ?_)
    exact h.imp fun _ _ hc => ⟨hc.1.returns, hc.2.returns⟩
  · rw [List.length_append, length_headBytes, length_flatMap_flatEntry h, hvsize]
  · intro depth hdepth
    rw [hvheight] at hdepth
    have hentries : encodeEntries false (depth + 1) es = .ok (cs.map entryBytes) := by
      have hmem := (List.forall₂_and_left (p := fun e => e ∈ es) es cs).mpr ⟨fun _ he => he, h⟩
      refine encodeEntries_eq (hmem.imp ?_)
      intro e c hmem
      obtain ⟨he, hec⟩ := hmem
      have := height_lt_of_mem_entries he
      exact ⟨hec.1.encode _ (by omega), hec.2.encode _ (by omega)⟩
    rw [hvencode depth hdepth, hentries, bind_ok, assembleMap_eq hne (hcslen ▸ hn), hcslen]
  · intro depth hdepth
    rw [hvheight] at hdepth
    have hentries : encodeEntries false (depth + 1) ((sortCodes cs).map entryValues)
        = .ok ((sortCodes cs).map entryBytes) := by
      refine encodeEntries_eq (List.forall₂_map_left_iff.mpr (List.forall₂_same.mpr ?_))
      intro c hc
      obtain ⟨e, hec, hk, hv⟩ := hcs c hc
      exact ⟨hec.1.reencode _ (by omega), hec.2.reencode _ (by omega)⟩
    rw [encodeValue, if_neg (by omega), hentries, bind_ok,
      assembleMap_eq hnesorted (hsortlen ▸ hn), hsort, hsortlen]
  · intro fuel depth rest hdepth hfuel
    rw [hvheight] at hdepth
    rw [List.length_append, length_headBytes] at hfuel
    obtain ⟨f, rfl⟩ : ∃ f, fuel = f + 1 := ⟨fuel - 1, by omega⟩
    have := headSize_pos es.length
    have hentries : decodeEntries limits f (depth + 1) (sortCodes cs).length [] []
        ((sortCodes cs).flatMap flatEntry ++ rest) =
          .ok ([] ++ (sortCodes cs).map entryValues, rest) :=
      decodeEntries_eq f [] [] rest hcs hnesorted (fun _ _ => List.not_mem_nil)
        (fun _ hp => (List.not_mem_nil hp).elim) (by omega) (by omega) (by omega)
    rw [hsortlen, List.nil_append] at hentries
    rw [List.append_assoc, decodeItem_map (by omega) hlen, hentries]
    rfl

end Entries

/-! ## Every value -/

theorem encodeProperties_eq {depth : Nat} {es : List (JsString × Value)}
    (hdepth : es = [] ∨ depth ≤ absoluteMaxDepth) :
    encodeProperties false depth es = encodeEntries false depth (asEntries es) := by
  induction es with
  | nil =>
      rw [encodeProperties, asEntries, List.map_nil, encodeEntries]
  | cons e es ih =>
      have hle := hdepth.resolve_left (List.cons_ne_nil _ _)
      rw [encodeProperties, asEntries_cons, encodeEntries, encodeValue,
        if_neg (Nat.not_lt.mpr hle), ih (Or.inr hle)]

theorem distinct_asEntries {es : List (JsString × Value)} (h : (es.map Prod.fst).Nodup) :
    (asEntries es).Pairwise fun e f => Distinct e.1 f.1 := by
  refine List.pairwise_map.mpr ((List.pairwise_map.mp h).imp ?_)
  intro e f hne u hu hu'
  rw [Returns] at hu hu'
  rw [hu, Value.text.injEq] at hu'
  exact hne hu'

theorem exists_coded_entries {es : List (Value × Value)}
    (ih : ∀ e ∈ es,
      (Everywhere (FitNode limits) e.1 → size e.1 ≤ Double.maxSafe → height e.1 ≤ limits.maxDepth →
        ∃ c, Coded limits e.1 c) ∧
      (Everywhere (FitNode limits) e.2 → size e.2 ≤ Double.maxSafe → height e.2 ≤ limits.maxDepth →
        ∃ c, Coded limits e.2 c))
    (hfit : EverywhereEntries (FitNode limits) es) (hsize : entriesSize es ≤ Double.maxSafe)
    (hheight : entriesHeight es ≤ limits.maxDepth) :
    ∃ cs, List.Forall₂ (CodedEntry limits) es cs := by
  refine exists_forall₂ fun e he => ?_
  have hsizes := size_le_entriesSize he
  have hheights := height_lt_of_mem_entries he
  obtain ⟨hk, hv⟩ := everywhereEntries_iff.mp hfit e he
  obtain ⟨c, hc⟩ := (ih e he).1 hk (by omega) (by omega)
  obtain ⟨d, hd⟩ := (ih e he).2 hv (by omega) (by omega)
  exact ⟨(c, d), hc, hd⟩

/-- Whatever is fit to be encoded comes back. -/
theorem exists_coded (hlimits : limits.maxDepth ≤ absoluteMaxDepth) (v : Value) :
    Everywhere (FitNode limits) v → size v ≤ Double.maxSafe → height v ≤ limits.maxDepth →
      ∃ c, Coded limits v c := by
  refine PassesUp.value (P := fun v => Everywhere (FitNode limits) v → size v ≤ Double.maxSafe →
    height v ≤ limits.maxDepth → ∃ c, Coded limits v c) ⟨?_, ?_, ?_, ?_, ?_, ?_⟩ v
  · intro v hparts hfit hsize _
    exact coded_leaf hparts ((everywhere_leaf hparts).mp hfit) hsize
  · intro v _ hfit
    rw [Everywhere] at hfit
    exact hfit.1.1.elim
  · intro items ih hfit hsize hheight
    rw [Everywhere, everywhereItems_iff] at hfit
    rw [size] at hsize
    rw [height] at hheight
    obtain ⟨cs, hcs⟩ := exists_forall₂ fun v hv => by
      have := size_le_itemsSize hv
      have := height_lt_of_mem_items hv
      exact ih v hv (hfit.2 v hv) (by omega) (by omega)
    have := length_le_itemsSize items
    exact ⟨_, coded_array hcs (by omega)⟩
  · intro es ih hfit hsize hheight
    rw [Everywhere] at hfit
    rw [size] at hsize
    rw [height] at hheight
    obtain ⟨cs, hcs⟩ := exists_coded_entries ih hfit.2 (by omega) hheight
    have := length_le_entriesSize es
    refine coded_entries hcs hfit.1.1 hheight hlimits (by omega) (by rw [height]) (by rw [size])
      ?_ ?_
    · intro ws ws' hperm hreturns
      rw [Returns]
      exact ⟨ws, ws', rfl, hperm, hreturns⟩
    · intro depth hdepth
      rw [encodeValue, if_neg (by omega)]
  · intro es ih hfit hsize hheight
    rw [Everywhere, everywhereProperties_iff] at hfit
    rw [size, propertiesSize_eq] at hsize
    rw [height, propertiesHeight_eq] at hheight
    obtain ⟨cs, hcs⟩ := exists_coded_entries ih hfit.2 (by omega) hheight
    have := length_le_entriesSize (asEntries es)
    have hlength : (asEntries es).length = es.length := List.length_map _
    refine coded_entries hcs (distinct_asEntries hfit.1.1) hheight hlimits (by omega)
      (by rw [height, propertiesHeight_eq]) (by rw [size, propertiesSize_eq, hlength]) ?_ ?_
    · intro ws ws' hperm hreturns
      rw [Returns]
      exact ⟨ws, ws', rfl, hperm, propertiesReturn_iff.mpr hreturns⟩
    · intro depth hdepth
      rw [encodeValue, if_neg (by omega), encodeProperties_eq]
      cases es with
      | nil => exact Or.inl rfl
      | cons e es =>
          rw [asEntries_cons, entriesHeight] at hdepth
          exact Or.inr (by omega)
  · intro n v ih hfit hsize hheight
    rw [Everywhere] at hfit
    rw [size] at hsize
    rw [height] at hheight
    obtain ⟨c, hc⟩ := ih hfit.2 (by omega) (by omega)
    exact ⟨_, coded_tag hfit.1.2.2.1 hfit.1.2.2.2 hc⟩

end Blamejs.Cbor
