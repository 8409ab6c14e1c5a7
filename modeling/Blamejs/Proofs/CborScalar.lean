import Blamejs.Proofs.CborRead
import Blamejs.Spec.CborValue

/-!
# Scalars there and back

The encoder's head and the decoder's argument are inverse at every width, and
with that each scalar reads back: an integer as the number or big integer it
is, a string without its byte-order mark. An integral Number past the safe
range is written as a float, of single or double width but never of half.
-/

namespace Blamejs.Cbor

open Blamejs.Js BinaryFormat

/-! ## Heads -/

/-- What `head` writes when it does not fail. -/
def headBytes (major n : Nat) : List UInt8 :=
  let mt := major * 32
  if n < 24 then [UInt8.ofNat (mt + n)]
  else if n < 256 then UInt8.ofNat (mt + 24) :: beBytes 1 n
  else if n < 65536 then UInt8.ofNat (mt + 25) :: beBytes 2 n
  else if n < 4294967296 then UInt8.ofNat (mt + 26) :: beBytes 4 n
  else UInt8.ofNat (mt + 27) :: beBytes 8 n

theorem head_eq {major n : Nat} (h : n < 2 ^ 64) : head major n = .ok (headBytes major n) := by
  unfold head headBytes
  dsimp only
  split_ifs
  · rfl
  · rfl
  · rfl
  · rfl
  · rfl
  · omega

theorem head_eq_ok {major n : Nat} {bs : List UInt8} (h : head major n = .ok bs) :
    n < 2 ^ 64 ∧ bs = headBytes major n := by
  have hn : n < 2 ^ 64 := by
    by_contra hn
    unfold head at h
    dsimp only at h
    rw [if_neg (by omega), if_neg (by omega), if_neg (by omega), if_neg (by omega),
      if_neg (by omega)] at h
    exact fail_ne_ok h
  rw [head_eq hn] at h
  exact ⟨hn, (Except.ok.inj h).symm⟩

theorem length_headBytes (major n : Nat) : (headBytes major n).length = headSize n := by
  unfold headBytes headSize
  dsimp only
  split_ifs
  · rfl
  · rw [List.length_cons, length_beBytes]
  · rw [List.length_cons, length_beBytes]
  · rw [List.length_cons, length_beBytes]
  · rw [List.length_cons, length_beBytes]

theorem takeBytes_append {n : Nat} {bytes : List UInt8} (h : bytes.length = n)
    (rest : List UInt8) : takeBytes n (bytes ++ rest) = .ok (bytes, rest) :=
  takeBytes_ok.mpr ⟨rfl, h⟩

/-- The first byte of a head carries the major type and where the argument is. -/
theorem initialByte {major : Nat} (ai : Nat) (hmajor : major < 8) (hai : ai < 32) :
    (UInt8.ofNat (major * 32 + ai)).toNat / 32 = major ∧
      (UInt8.ofNat (major * 32 + ai)).toNat % 32 = ai := by
  rw [UInt8.toNat_ofNat']
  omega

theorem readArgument_beBytes {ai k n : Nat} {rest : List UInt8} (hn : n < 256 ^ k)
    (hread : ∀ st, readArgument ai st = (takeBytes k st).map fun p => (beValue p.1, p.2)) :
    readArgument ai (beBytes k n ++ rest) = .ok (n, rest) := by
  rw [hread, takeBytes_append (length_beBytes k n)]
  show Except.ok (beValue (beBytes k n), rest) = _
  rw [beValue_beBytes hn]

/-- The decoder takes a head apart, whatever follows. -/
theorem headBytes_read (major : Nat) {n : Nat} (hmajor : major < 8) (hn : n < 2 ^ 64) :
    ∃ ib tail, headBytes major n = ib :: tail ∧ ib.toNat / 32 = major ∧
      ∀ rest, readArgument (ib.toNat % 32) (tail ++ rest) = .ok (n, rest) := by
  unfold headBytes
  dsimp only
  split_ifs with h1 h2 h3 h4
  · obtain ⟨hdiv, hmod⟩ := initialByte n hmajor (by omega)
    refine ⟨_, [], rfl, hdiv, fun rest => ?_⟩
    rw [hmod, readArgument, if_pos h1, List.nil_append]
  · obtain ⟨hdiv, hmod⟩ := initialByte 24 hmajor (by omega)
    refine ⟨_, _, rfl, hdiv, fun rest => ?_⟩
    rw [hmod]
    exact readArgument_beBytes (by omega) fun st => rfl
  · obtain ⟨hdiv, hmod⟩ := initialByte 25 hmajor (by omega)
    refine ⟨_, _, rfl, hdiv, fun rest => ?_⟩
    rw [hmod]
    exact readArgument_beBytes (by omega) fun st => rfl
  · obtain ⟨hdiv, hmod⟩ := initialByte 26 hmajor (by omega)
    refine ⟨_, _, rfl, hdiv, fun rest => ?_⟩
    rw [hmod]
    exact readArgument_beBytes (by omega) fun st => rfl
  · obtain ⟨hdiv, hmod⟩ := initialByte 27 hmajor (by omega)
    refine ⟨_, _, rfl, hdiv, fun rest => ?_⟩
    rw [hmod]
    exact readArgument_beBytes (by omega) fun st => rfl

theorem readLength_of_readArgument {ai n : Nat} {st rest : List UInt8}
    (h : readArgument ai st = .ok (n, rest)) (hn : n ≤ Double.maxSafe) :
    readLength ai st = .ok (n, rest) := by
  rw [readLength, h]
  show (if Double.maxSafe < n then _ else pure (n, rest)) = _
  rw [if_neg (Nat.not_lt.mpr hn)]
  rfl

/-! ## Integers -/

theorem decodeItem_unsigned {limits : Limits} {fuel depth n : Nat} {rest : List UInt8}
    (hdepth : depth ≤ limits.maxDepth) (hn : n < 2 ^ 64) :
    decodeItem limits (fuel + 1) depth (headBytes 0 n ++ rest) = .ok (ofArgument n, rest) := by
  obtain ⟨ib, tail, heq, hdiv, hread⟩ := headBytes_read 0 (by decide) hn
  rw [heq, List.cons_append, decodeItem, if_neg (Nat.not_lt.mpr hdepth)]
  simp only [hdiv, hread, bind_ok, pure_ok]

theorem decodeItem_negative {limits : Limits} {fuel depth n : Nat} {rest : List UInt8}
    (hdepth : depth ≤ limits.maxDepth) (hn : n < 2 ^ 64) :
    decodeItem limits (fuel + 1) depth (headBytes 1 n ++ rest) = .ok (ofNegArgument n, rest) := by
  obtain ⟨ib, tail, heq, hdiv, hread⟩ := headBytes_read 1 (by decide) hn
  rw [heq, List.cons_append, decodeItem, if_neg (Nat.not_lt.mpr hdepth)]
  simp only [hdiv, hread, bind_ok, pure_ok]

/-- What `encodeInt` writes within 64 bits. -/
def intBytes (z : Int) : List UInt8 :=
  if 0 ≤ z then headBytes 0 z.toNat else headBytes 1 (-1 - z).toNat

theorem encodeInt_eq {z : Int} (h : -2 ^ 64 ≤ z ∧ z < 2 ^ 64) :
    encodeInt z = .ok (intBytes z) := by
  unfold encodeInt intBytes
  split
  · exact head_eq (by omega)
  · exact head_eq (by omega)

theorem decodeItem_intBytes {limits : Limits} {fuel depth : Nat} {z : Int} {rest : List UInt8}
    (hdepth : depth ≤ limits.maxDepth) (h : -2 ^ 64 ≤ z ∧ z < 2 ^ 64) :
    decodeItem limits (fuel + 1) depth (intBytes z ++ rest) = .ok (ofInteger z, rest) := by
  unfold intBytes
  split
  · next hz =>
      rw [decodeItem_unsigned hdepth (by omega), ofArgument, ofInteger]
      have : z.toNat = z.natAbs := by omega
      have hcast : ((z.toNat : Nat) : Int) = z := Int.toNat_of_nonneg hz
      rw [hcast, this]
  · next hz =>
      rw [decodeItem_negative hdepth (by omega), ofNegArgument, ofInteger]
      have hsucc : (-1 - z).toNat + 1 = z.natAbs := by omega
      have hcast : -1 - (((-1 - z).toNat : Nat) : Int) = z := by omega
      rw [hcast, hsucc]

/-! ## Integral Numbers -/

/-- No integer past the safe range has a half-precision form. -/
theorem doubleToHalfBits_big {x : Double} (hfin : x.isFinite = true)
    (hbig : Double.maxSafe * Double.unitsPerOne < x.mag) : doubleToHalfBits x = none := by
  have hzero : x.isZero = false := by
    rw [Bool.eq_false_iff]
    intro hz
    rw [Double.mag_eq_zero_iff.mpr hz] at hbig
    exact Nat.not_lt_zero _ hbig
  have hround : 143 * 2 ^ 23 ≤ round 23 x.mag (2 ^ singleShift) := by
    have hpow : round 23 (2 ^ 16 * Double.unitsPerOne) (2 ^ singleShift) = 143 * 2 ^ 23 := by
      decide +kernel
    rw [← hpow]
    refine round_mono (Nat.le_of_lt (Nat.lt_of_le_of_lt ?_ hbig))
    exact Nat.mul_le_mul_right _ (by decide)
  have hexp : 143 ≤ writeSingle x >>> 23 &&& 0xff := by
    rw [writeSingle, Double.isNaN_of_isFinite hfin, Double.isInfinite_of_isFinite hfin,
      Nat.shiftRight_eq_div_pow, show (0xff : Nat) = 2 ^ 8 - 1 from rfl,
      Nat.and_two_pow_sub_one_eq_mod]
    generalize round 23 x.mag (2 ^ singleShift) = m at hround
    simp only [Bool.false_eq_true, if_false]
    split_ifs <;> omega
  unfold doubleToHalfBits
  rw [hzero, if_neg (by decide)]
  dsimp only
  split
  · rfl
  · rw [if_pos (by omega)]

/-- What `encodeNumber` writes of an integral Number. -/
def numberBytes (x : Double) : List UInt8 :=
  if x.isSafeInteger then intBytes x.toInt
  else if (readSingle (writeSingle x)).strictEq x then 0xfa :: beBytes 4 (writeSingle x)
  else 0xfb :: beBytes 8 (writeDouble x)

theorem isSafeInteger_eq {x : Double} (hint : x.isInteger = true) :
    x.isSafeInteger = decide (x.mag ≤ Double.maxSafe * Double.unitsPerOne) := by
  rw [Double.isSafeInteger, hint, Bool.true_and]

theorem isFinite_of_isInteger {x : Double} (h : x.isInteger = true) : x.isFinite = true := by
  rw [Double.isInteger, Bool.and_eq_true] at h
  exact h.1

theorem encodeNumber_eq {x : Double} (hint : x.isInteger = true) (hz : x.isNegZero = false) :
    encodeNumber false x = .ok (numberBytes x) := by
  have hfin := isFinite_of_isInteger hint
  unfold encodeNumber numberBytes
  rw [hint, hz, hfin, isSafeInteger_eq hint]
  by_cases hsafe : x.mag ≤ Double.maxSafe * Double.unitsPerOne
  · have := Double.natAbs_toInt_lt hsafe
    rw [decide_eq_true hsafe]
    exact encodeInt_eq (by omega)
  · rw [decide_eq_false hsafe, encodeFloat, Double.isNaN_of_isFinite hfin,
      Double.isInfinite_of_isFinite hfin, doubleToHalfBits_big hfin (Nat.lt_of_not_le hsafe)]
    rfl

theorem length_intBytes (z : Int) : (intBytes z).length = intSize z := by
  unfold intBytes intSize
  split
  · exact length_headBytes _ _
  · exact length_headBytes _ _

theorem length_numberBytes (x : Double) : (numberBytes x).length = numberSize x := by
  unfold numberBytes numberSize
  split
  · exact length_intBytes _
  · split
    · rw [List.length_cons, length_beBytes]
    · rw [List.length_cons, length_beBytes]

theorem decodeItem_float {limits : Limits} {depth k n : Nat} {read : Nat → Double}
    (fuel ai : Nat) (rest : List UInt8) (hdepth : depth ≤ limits.maxDepth) (hn : n < 256 ^ k)
    (hai : ai < 32)
    (hread : ∀ st, decodeSimpleOrFloat ai st
      = (takeBytes k st).map fun p => (Value.num (read (beValue p.1)), p.2)) :
    decodeItem limits (fuel + 1) depth (UInt8.ofNat (7 * 32 + ai) :: beBytes k n ++ rest)
      = .ok (.num (read n), rest) := by
  obtain ⟨hdiv, hmod⟩ := initialByte ai (show 7 < 8 by decide) hai
  rw [List.cons_append, decodeItem, if_neg (Nat.not_lt.mpr hdepth)]
  simp only [hdiv, hmod, hread, takeBytes_append (length_beBytes k n)]
  show Except.ok (Value.num (read (beValue (beBytes k n))), rest) = _
  rw [beValue_beBytes hn]

theorem decodeItem_numberBytes {limits : Limits} {fuel depth : Nat} {x : Double}
    {rest : List UInt8} (hdepth : depth ≤ limits.maxDepth) (hint : x.isInteger = true)
    (hz : x.isNegZero = false) :
    decodeItem limits (fuel + 1) depth (numberBytes x ++ rest) = .ok (.num x, rest) := by
  unfold numberBytes
  split
  · next hsafe =>
      have hmag := hsafe
      rw [isSafeInteger_eq hint, decide_eq_true_eq] at hmag
      have hlt := Double.natAbs_toInt_lt hmag
      rw [decodeItem_intBytes hdepth (by omega), ofInteger,
        if_pos (by rw [Double.maxSafe]; omega), Double.ofInt_toInt hsafe hz]
  · next hbig =>
      split
      · next hsingle =>
          have hx : readSingle (writeSingle x) = x := by
            have hzero : x.isZero = false := by
              rw [Bool.eq_false_iff]
              intro h0
              rw [isSafeInteger_eq hint, decide_eq_true_eq, Double.mag_eq_zero_iff.mpr h0] at hbig
              exact hbig (Nat.zero_le _)
            rw [Double.strictEq, hzero, Bool.and_false, Bool.false_or, Bool.and_eq_true] at hsingle
            exact eq_of_beq hsingle.2
          have := decodeItem_float fuel 26 rest hdepth (writeSingle_lt x) (by decide) fun st => rfl
          rw [hx] at this
          exact this
      · have := decodeItem_float fuel 27 rest hdepth (writeDouble_lt x) (by decide) fun st => rfl
        rw [readDouble_writeDouble] at this
        exact this

/-! ## Items with a length -/

section Lengths

variable {limits : Limits} {fuel depth n : Nat} {st rest : List UInt8}

theorem decodeItem_text {s : JsString} (hdepth : depth ≤ limits.maxDepth) (hs : WellFormed s)
    (hlen : (utf8 s).length ≤ Double.maxSafe) :
    decodeItem limits (fuel + 1) depth (headBytes 3 (utf8 s).length ++ (utf8 s ++ rest))
      = .ok (.text (withoutBom s), rest) := by
  have hn : (utf8 s).length < 2 ^ 64 := Nat.lt_of_le_of_lt hlen (by decide)
  obtain ⟨ib, tail, heq, hdiv, hread⟩ := headBytes_read 3 (by decide) hn
  have htext : decodeText (utf8 s) = .ok (withoutBom s) := by
    rw [decodeText, textDecode_utf8 hs]
  rw [heq, List.cons_append, decodeItem, if_neg (Nat.not_lt.mpr hdepth)]
  simp only [hdiv, readLength_of_readArgument (hread _) hlen, bind_ok, takeBytes_append rfl,
    htext, pure_ok]

theorem decodeItem_bytes {bs : List UInt8} (hdepth : depth ≤ limits.maxDepth)
    (hlen : bs.length ≤ Double.maxSafe) :
    decodeItem limits (fuel + 1) depth (headBytes 2 bs.length ++ (bs ++ rest))
      = .ok (.bytes bs, rest) := by
  have hn : bs.length < 2 ^ 64 := Nat.lt_of_le_of_lt hlen (by decide)
  obtain ⟨ib, tail, heq, hdiv, hread⟩ := headBytes_read 2 (by decide) hn
  rw [heq, List.cons_append, decodeItem, if_neg (Nat.not_lt.mpr hdepth)]
  simp only [hdiv, readLength_of_readArgument (hread _) hlen, bind_ok, takeBytes_append rfl,
    pure_ok]

theorem decodeItem_array (hdepth : depth ≤ limits.maxDepth) (hn : n ≤ Double.maxSafe) :
    decodeItem limits (fuel + 1) depth (headBytes 4 n ++ st)
      = (decodeItems limits fuel (depth + 1) n st).map fun p => (.array p.1, p.2) := by
  have hn' : n < 2 ^ 64 := Nat.lt_of_le_of_lt hn (by decide)
  obtain ⟨ib, tail, heq, hdiv, hread⟩ := headBytes_read 4 (by decide) hn'
  rw [heq, List.cons_append, decodeItem, if_neg (Nat.not_lt.mpr hdepth)]
  simp only [hdiv, readLength_of_readArgument (hread _) hn, bind_ok]
  rfl

theorem decodeItem_map (hdepth : depth ≤ limits.maxDepth) (hn : n ≤ Double.maxSafe) :
    decodeItem limits (fuel + 1) depth (headBytes 5 n ++ st)
      = (decodeEntries limits fuel (depth + 1) n [] [] st).map fun p => (.map p.1, p.2) := by
  have hn' : n < 2 ^ 64 := Nat.lt_of_le_of_lt hn (by decide)
  obtain ⟨ib, tail, heq, hdiv, hread⟩ := headBytes_read 5 (by decide) hn'
  rw [heq, List.cons_append, decodeItem, if_neg (Nat.not_lt.mpr hdepth)]
  simp only [hdiv, readLength_of_readArgument (hread _) hn, bind_ok]
  rfl

theorem decodeItem_tag (hdepth : depth ≤ limits.maxDepth) (hn : n ≤ Double.maxSafe)
    (htag : n ∈ limits.allowedTags) :
    decodeItem limits (fuel + 1) depth (headBytes 6 n ++ st)
      = (decodeItem limits fuel (depth + 1) st).map fun p => (.tag n p.1, p.2) := by
  have hn' : n < 2 ^ 64 := Nat.lt_of_le_of_lt hn (by decide)
  obtain ⟨ib, tail, heq, hdiv, hread⟩ := headBytes_read 6 (by decide) hn'
  rw [heq, List.cons_append, decodeItem, if_neg (Nat.not_lt.mpr hdepth)]
  simp only [hdiv, readLength_of_readArgument (hread _) hn, bind_ok, if_neg (not_not.mpr htag)]
  rfl

/-- A length or a tag number past the safe range is refused. -/
theorem le_maxSafe_of_decodeItem {major : Nat} {r : Value × List UInt8}
    (hmajor : 2 ≤ major ∧ major ≤ 6) (hn : n < 2 ^ 64)
    (h : decodeItem limits fuel depth (headBytes major n ++ st) = .ok r) :
    n ≤ Double.maxSafe := by
  by_contra hbig
  obtain ⟨ib, tail, heq, hdiv, hread⟩ := headBytes_read major (by omega) hn
  have hlong : readLength (ib.toNat % 32) (tail ++ st) = fail "cbor/length-too-large"
      "cbor.decode: declared length exceeds addressable range" := by
    rw [readLength, hread]
    show (if Double.maxSafe < n then _ else pure (n, st)) = _
    rw [if_pos (Nat.lt_of_not_le hbig)]
  have hfail : ∀ {α β : Type} {code message} {f : α → Except Failure β} {b : β},
      (fail code message >>= f) ≠ .ok b := by
    intro _ _ _ _ _ _ h
    cases h
  obtain ⟨fuel, rfl⟩ : ∃ f, fuel = f + 1 := by
    cases fuel with
    | zero =>
        rw [decodeItem] at h
        cases h
    | succ f => exact ⟨f, rfl⟩
  rw [heq, List.cons_append, decodeItem] at h
  split at h
  · exact fail_ne_ok h
  · have hcases : major = 2 ∨ major = 3 ∨ major = 4 ∨ major = 5 ∨ major = 6 := by omega
    rcases hcases with rfl | rfl | rfl | rfl | rfl
    · simp only [hdiv, hlong] at h
      exact hfail h
    · simp only [hdiv, hlong] at h
      exact hfail h
    · simp only [hdiv, hlong] at h
      exact hfail h
    · simp only [hdiv, hlong] at h
      exact hfail h
    · simp only [hdiv, hlong] at h
      exact hfail h

theorem mem_allowedTags_of_decodeItem {r : Value × List UInt8} (hn : n ≤ Double.maxSafe)
    (h : decodeItem limits fuel depth (headBytes 6 n ++ st) = .ok r) :
    n ∈ limits.allowedTags := by
  by_contra htag
  obtain ⟨fuel, ib', st', rfl, -, hdepth, -⟩ := decodeItem_ok (v := r.1) h
  have hn' : n < 2 ^ 64 := Nat.lt_of_le_of_lt hn (by decide)
  obtain ⟨ib, tail, heq, hdiv, hread⟩ := headBytes_read 6 (by decide) hn'
  rw [heq, List.cons_append, decodeItem, if_neg (Nat.not_lt.mpr hdepth)] at h
  simp only [hdiv, readLength_of_readArgument (hread _) hn, bind_ok, if_pos htag] at h
  exact fail_ne_ok h

end Lengths

end Blamejs.Cbor
