import Blamejs.Ref.StatusList
import Blamejs.Js.ToNumber
import Mathlib.Algebra.GroupWithZero.Nat

/-!
# A status list is an array, and what its verifier reads

The bits of a field are named one by one, so that a write of a field and a read of it are
two views of the same places; an index is followed from the number it comes as.
-/

namespace Blamejs.StatusList

open Js

/-! ## Bits -/

/-- The bit at a place of the packed bytes, the low end of a byte first. -/
def bitAt (bytes : List UInt8) (j : Nat) : Bool := (bytes.getD (j / 8) 0).toNat.testBit (j % 8)

theorem bits_cases {bits : Nat} (h : bits ∈ supportedBitSizes) :
    bits = 1 ∨ bits = 2 ∨ bits = 4 ∨ bits = 8 := by
  simpa [supportedBitSizes] using h

theorem testBit_byte_of_ge (b : UInt8) {j : Nat} (h : 8 ≤ j) : b.toNat.testBit j = false :=
  Nat.testBit_lt_two_pow (Nat.lt_of_lt_of_le b.toNat_lt (Nat.pow_le_pow_right (by decide) h))

theorem getLsbD_byteAt (bytes : List UInt8) (i j : Nat) :
    (byteAt bytes i).getLsbD j = (bytes.getD i 0).toNat.testBit j := by
  rw [byteAt, BitVec.getLsbD_setWidth, BitVec.getLsbD]
  by_cases h : j < 32
  · rw [decide_eq_true h, Bool.true_and]
    rfl
  · rw [decide_eq_false h, Bool.false_and, testBit_byte_of_ge _ (by omega)]

theorem getLsbD_lowMask {bits : Nat} (h : bits ∈ supportedBitSizes) (j : Nat) :
    (lowMask bits).getLsbD j = decide (j < bits) := by
  by_cases hj : j < 32
  · have hall : ∀ b ∈ supportedBitSizes, ∀ j : Fin 32,
        (lowMask b).getLsbD j.val = decide (j.val < b) := by decide
    exact hall bits h ⟨j, hj⟩
  · obtain rfl | rfl | rfl | rfl := bits_cases h
    all_goals
      rw [BitVec.getLsbD_of_ge _ _ (by omega), decide_eq_false (by omega)]

/-- Where a field begins in its byte, and that it ends there. -/
theorem field_place {bits : Nat} (h : bits ∈ supportedBitSizes) (i t : Nat) (ht : t < bits) :
    (i * bits + t) / 8 = i * bits / 8 ∧ (i * bits + t) % 8 = i * bits % 8 + t := by
  obtain rfl | rfl | rfl | rfl := bits_cases h
  all_goals omega

theorem testBit_getAt {bytes : List UInt8} {bits : Nat} (h : bits ∈ supportedBitSizes)
    (i t : Nat) : (getAt bytes bits i).testBit t =
      (decide (t < bits) && bitAt bytes (i * bits + t)) := by
  unfold getAt bitAt
  split
  · next h8 =>
      subst h8
      by_cases ht : t < 8
      · obtain ⟨hdiv, hmod⟩ := field_place h i t ht
        rw [hdiv, hmod, Nat.mul_mod_left, Nat.zero_add, Nat.mul_div_cancel _ (by decide)]
        simp [ht]
      · rw [testBit_byte_of_ge _ (by omega), decide_eq_false ht, Bool.false_and]
  · next h8 =>
      rw [← BitVec.getLsbD, BitVec.getLsbD_and, getLsbD_lowMask h]
      by_cases ht : t < bits
      · obtain ⟨hdiv, hmod⟩ := field_place h i t ht
        have hb : bits ≤ 8 := by
          obtain rfl | rfl | rfl | rfl := bits_cases h
          all_goals decide
        have hlt : i * bits % 8 < 8 := Nat.mod_lt _ (by decide)
        rw [BitVec.getLsbD_sshiftRight, decide_eq_false (by omega), if_pos (by omega),
          getLsbD_byteAt, hdiv, hmod, decide_eq_true ht]
        simp
      · rw [decide_eq_false ht, Bool.and_false, Bool.false_and]

theorem getD_set (bytes : List UInt8) {i : Nat} (hi : i < bytes.length) (b : UInt8) (j : Nat) :
    (bytes.set i b).getD j 0 = if i = j then b else bytes.getD j 0 := by
  rw [List.getD_eq_getElem?_getD, List.getD_eq_getElem?_getD, List.getElem?_set]
  split
  · next hj => rfl
  · rfl

/-- A status lies in the bits of its own field, and every other bit stays. -/
theorem bitAt_setAt {bytes : List UInt8} {bits : Nat} (h : bits ∈ supportedBitSizes)
    {i : Nat} (hi : i * bits / 8 < bytes.length) (s j : Nat) :
    bitAt (setAt bytes bits i s) j =
      if i * bits ≤ j ∧ j < i * bits + bits then s.testBit (j - i * bits)
      else bitAt bytes j := by
  unfold setAt bitAt
  have hmod8 : j % 8 < 8 := Nat.mod_lt _ (by decide)
  split
  · next h8 =>
      subst h8
      rw [Nat.mul_div_cancel _ (by decide)] at hi
      rw [getD_set bytes hi]
      by_cases hj : i = j / 8
      · rw [if_pos hj, if_pos (by omega), UInt8.toNat_ofNat', Nat.testBit_mod_two_pow,
          decide_eq_true hmod8, Bool.true_and, Nat.testBit_and,
          show (0xff : Nat) = 2 ^ 8 - 1 from rfl, Nat.testBit_two_pow_sub_one,
          decide_eq_true hmod8, Bool.and_true]
        congr 1
        omega
      · rw [if_neg hj, if_neg (by omega)]
  · next h8 =>
      rw [getD_set bytes hi]
      have hfield : i * bits % 8 + bits ≤ 8 := by
        obtain rfl | rfl | rfl | rfl := bits_cases h
        all_goals omega
      split
      · next hj =>
          change (BitVec.toNat _).testBit _ = _
          rw [← BitVec.getLsbD]
          simp only [BitVec.getLsbD_setWidth, BitVec.getLsbD_or, BitVec.getLsbD_and,
            BitVec.getLsbD_not, BitVec.getLsbD_shiftLeft, getLsbD_lowMask h, getLsbD_byteAt,
            decide_eq_true hmod8, decide_eq_true (show j % 8 < 32 by omega), Bool.true_and]
          have hin : (i * bits ≤ j ∧ j < i * bits + bits) ↔
              i * bits % 8 ≤ j % 8 ∧ j % 8 - i * bits % 8 < bits := by omega
          have hoff : j - i * bits = j % 8 - i * bits % 8 := by omega
          rw [BitVec.getLsbD_ofNat, decide_eq_true (show j % 8 - i * bits % 8 < 32 by omega),
            Bool.true_and, hoff, ← hj]
          by_cases hf : i * bits % 8 ≤ j % 8 ∧ j % 8 - i * bits % 8 < bits
          · rw [if_pos (hin.mpr hf), decide_eq_false (by omega), decide_eq_true hf.2]
            simp
          · rw [if_neg fun h => hf (hin.mp h)]
            by_cases hlo : i * bits % 8 ≤ j % 8
            · rw [decide_eq_false (by omega), decide_eq_false fun h => hf ⟨hlo, h⟩]
              simp
            · rw [decide_eq_true (by omega)]
              simp
      · next hj =>
          rw [if_neg]
          rintro ⟨hlo, hhi⟩
          exact hj (by omega)

/-! ## Fields -/

variable {bytes : List UInt8} {bits : Nat}

/-- What the fields of a list read after a set. -/
theorem getAt_setAt (h : bits ∈ supportedBitSizes) {i s : Nat} (hi : i * bits / 8 < bytes.length)
    (hs : s < 2 ^ bits) (j : Nat) :
    getAt (setAt bytes bits i s) bits j = if j = i then s else getAt bytes bits j := by
  refine Nat.eq_of_testBit_eq fun t => ?_
  rw [testBit_getAt h, bitAt_setAt h hi]
  by_cases ht : t < bits
  · rw [decide_eq_true ht, Bool.true_and]
    have hin : (i * bits ≤ j * bits + t ∧ j * bits + t < i * bits + bits) ↔ j = i := by
      obtain rfl | rfl | rfl | rfl := bits_cases h
      all_goals omega
    by_cases hj : j = i
    · rw [if_pos (hin.mpr hj), if_pos hj, hj, Nat.add_sub_cancel_left]
    · rw [if_neg (mt hin.mp hj), if_neg hj, testBit_getAt h, decide_eq_true ht, Bool.true_and]
  · rw [decide_eq_false ht, Bool.false_and]
    split
    · exact (Nat.testBit_lt_two_pow (Nat.lt_of_lt_of_le hs
        (Nat.pow_le_pow_right (by decide) (by omega)))).symm
    · rw [testBit_getAt h, decide_eq_false ht, Bool.false_and]

theorem field_lt (h : bits ∈ supportedBitSizes) {size i : Nat} (hi : i < size)
    (hlen : bytes.length = (size * bits + 7) / 8) : i * bits / 8 < bytes.length := by
  rw [hlen]
  obtain rfl | rfl | rfl | rfl := bits_cases h
  all_goals omega

theorem getAt_replicate (h : bits ∈ supportedBitSizes) (n i : Nat) :
    getAt (List.replicate n 0) bits i = 0 := by
  refine Nat.eq_of_testBit_eq fun t => ?_
  have hzero : ∀ k, (List.replicate n (0 : UInt8)).getD k 0 = 0 := by
    intro k
    rw [List.getD_eq_getElem?_getD, List.getElem?_replicate]
    split <;> rfl
  rw [testBit_getAt h, bitAt, hzero, UInt8.toNat_zero, Nat.zero_testBit, Nat.zero_testBit,
    Bool.and_false]

theorem getAt_fillAll (h : bits ∈ supportedBitSizes) {s : Nat} (hs : s < 2 ^ bits) {size : Nat}
    (hlen : bytes.length = (size * bits + 7) / 8) :
    ∀ {n : Nat}, n ≤ size → ∀ {i : Nat}, i < n → getAt (fillAll bytes bits n s) bits i = s
  | 0, _, _, hi => absurd hi (Nat.not_lt_zero _)
  | n + 1, hn, i, hi => by
      rw [fillAll, List.range_succ, List.foldl_append, List.foldl_cons, List.foldl_nil,
        ← fillAll]
      rw [getAt_setAt h (field_lt h hn ((length_fillAll _ _ _ _).trans hlen)) hs]
      split
      · rfl
      · exact getAt_fillAll h hs hlen (Nat.le_of_succ_le hn) (by omega)

/-! ## Indices -/

theorem ext_key {x y : Double} (hneg : x.neg = y.neg) (hkey : x.key = y.key) : x = y := by
  have hbits : x.bits = y.bits := by
    rw [Double.key, Double.key, hneg] at hkey
    refine Fin.ext ?_
    split at hkey <;> omega
  cases x
  cases y
  rw [Double.mk.injEq]
  exact ⟨hneg, hbits⟩

theorem key_of_isZero {x : Double} (h : x.isZero = true) : x.key = 0 := by
  rw [Double.isZero, decide_eq_true_eq] at h
  rw [Double.key, h]
  split <;> rfl

theorem key_ofInt_zero : (Double.ofInt (0 : Nat)).key = 0 := by
  refine key_of_isZero (Double.mag_eq_zero_iff.mp ?_)
  rw [Double.mag_ofInt (by decide)]
  exact Nat.zero_mul _

theorem key_zero : (Double.zero false).key = 0 := key_of_isZero rfl

theorem le_ofInt {m n : Nat} (hm : m < 2 ^ 53) (hn : n < 2 ^ 53) :
    (Double.ofInt m).le (Double.ofInt n) = decide (m ≤ n) := by
  rw [Double.le, Double.isNaN_ofInt, Double.isNaN_ofInt, Bool.not_false, Bool.true_and,
    Bool.true_and, decide_eq_decide]
  refine ⟨fun hle => Nat.le_of_not_lt fun hlt => ?_, Double.key_ofInt_mono⟩
  have hkey := Int.le_antisymm hle (Double.key_ofInt_mono (Nat.le_of_lt hlt))
  have heq : Double.ofInt n = Double.ofInt m := by
    refine ext_key ?_ hkey.symm
    rw [Double.neg_ofInt, Double.neg_ofInt, decide_eq_false (by omega), decide_eq_false (by omega)]
  have hnat := Double.toInt_ofInt (z := n) (by omega)
  rw [heq, Double.toInt_ofInt (by omega)] at hnat
  omega

theorem toInt_of_isZero {x : Double} (h : x.isZero = true) : x.toInt = 0 := by
  rw [Double.toInt, Double.mag_eq_zero_iff.mpr h, Nat.zero_div]
  split <;> rfl

theorem natAbs_toInt32_lt (x : Double) : (toInt32 x).natAbs < 2 ^ 53 := by
  unfold toInt32
  split
  · have hlo := Int.le_bmod (x := x.toInt) (m := 4294967296) (by decide)
    have hhi := Int.bmod_lt (x := x.toInt) (m := 4294967296) (by decide)
    omega
  · decide

theorem isInt32_cases {x : Double} (h : isInt32 x = true) :
    x.isZero = true ∨ x = Double.ofInt (toInt32 x) := by
  rw [isInt32, Double.strictEq, Bool.or_eq_true, Bool.and_eq_true, Bool.and_eq_true,
    beq_iff_eq] at h
  exact h.imp And.right fun h => h.2.symm

theorem toInt32_ofInt {i : Nat} (h : i < 2147483648) : toInt32 (Double.ofInt i) = i := by
  rw [toInt32, if_pos (Double.isFinite_ofInt (by omega)), Double.toInt_ofInt (by omega),
    Int.bmod_def, if_pos (by omega)]
  omega

theorem isInt32_ofInt {i : Nat} (h : i < 2147483648) : isInt32 (Double.ofInt i) = true := by
  rw [isInt32, toInt32_ofInt h, Double.strictEq, Double.isNaN_ofInt, Bool.not_false,
    Bool.true_and, beq_self_eq_true, Bool.or_true]

theorem lt_zero_ofInt_of_neg {k : Int} (hk : k < 0) (h : k.natAbs < 2 ^ 53) :
    (Double.ofInt k).lt (.zero false) = true := by
  have hz := Double.isNegZero_ofInt h
  rw [Double.isNegZero, Double.neg_ofInt, decide_eq_true hk, Bool.true_and, Double.isZero,
    decide_eq_false_iff_not] at hz
  have hkey : (Double.ofInt k).key < 0 := by
    rw [Double.key, Double.neg_ofInt, decide_eq_true hk, if_pos rfl]
    omega
  rw [Double.lt, Double.isNaN_ofInt, key_zero, decide_eq_true hkey]
  rfl

theorem validIndex_number {size i : Nat} {x : Double} (h : validIndex size (.number x) = some i) :
    x.lt (.zero false) = false ∧ (Double.ofInt size).le x = false ∧ isInt32 x = true ∧
      x.toInt.toNat = i := by
  rw [validIndex] at h
  split at h
  · exact absurd h (by simp)
  · next hc =>
      rw [Bool.or_eq_true, Bool.or_eq_true, not_or, not_or, Bool.not_eq_true, Bool.not_eq_true,
        Bool.not_eq_true, Bool.not_eq_false'] at hc
      exact ⟨hc.1.1, hc.1.2, hc.2, Option.some.inj h⟩

theorem validIndex_lt {size i : Nat} {idx : Value} (h : validIndex size idx = some i) :
    i < size := by
  cases idx with
  | other => cases h
  | number x =>
      obtain ⟨hneg, hle, hint, rfl⟩ := validIndex_number h
      have hmono : ∀ n : Nat, size ≤ n → x = Double.ofInt n → False := by
        rintro n hn rfl
        rw [Double.le, Double.isNaN_ofInt, Double.isNaN_ofInt, Bool.not_false, Bool.true_and,
          Bool.true_and, decide_eq_false_iff_not] at hle
        exact hle (Double.key_ofInt_mono hn)
      rcases isInt32_cases hint with hz | hx
      · rw [toInt_of_isZero hz]
        refine Nat.pos_of_ne_zero ?_
        rintro rfl
        have hnan : x.isNaN = false := Double.isNaN_of_isFinite (by
          rw [Double.isZero, decide_eq_true_eq] at hz
          rw [Double.isFinite, hz]
          rfl)
        rw [Double.le, Double.isNaN_ofInt, hnan, key_ofInt_zero, key_of_isZero hz] at hle
        cases hle
      · rcases Int.lt_or_le (toInt32 x) 0 with hk | hk
        · rw [hx, lt_zero_ofInt_of_neg hk (natAbs_toInt32_lt x)] at hneg
          cases hneg
        · obtain ⟨n, hn⟩ := Int.eq_ofNat_of_zero_le hk
          have hsmall := natAbs_toInt32_lt x
          rw [hn] at hx hsmall
          refine Nat.lt_of_not_le fun hge => hmono n ?_ hx
          rwa [hx, Double.toInt_ofInt hsmall] at hge

theorem validIndex_ofInt {size i : Nat} (hi : i < size) (hsize : size < 2147483648) :
    validIndex size (.number (Double.ofInt i)) = some i := by
  have hneg : (Double.ofInt i).lt (.zero false) = false := by
    have hkey : ¬(Double.ofInt i).key < (Double.zero false).key := by
      have hmono := Double.key_ofInt_mono (Nat.zero_le i)
      rw [key_ofInt_zero] at hmono
      rw [key_zero]
      exact Int.not_lt.mpr hmono
    rw [Double.lt, decide_eq_false hkey, Bool.and_false]
  rw [validIndex, hneg, le_ofInt (by omega) (by omega), decide_eq_false (by omega),
    isInt32_ofInt (by omega), Double.toInt_ofInt (by omega)]
  rfl

theorem validIndex_ofInt_of_le {size i : Nat} (h : size ≤ i) :
    validIndex size (.number (Double.ofInt i)) = none := by
  have hle : (Double.ofInt size).le (Double.ofInt i) = true := by
    rw [Double.le, Double.isNaN_ofInt, Double.isNaN_ofInt,
      decide_eq_true (Double.key_ofInt_mono h)]
    rfl
  rw [validIndex, hle, Bool.or_true, Bool.true_or, if_pos rfl]

/-! ## Runs of `set` -/

/-- What a call sets at `i`, where it does not throw. -/
def acceptedAt (size bits i : Nat) (op : Value × Value) : Option Nat :=
  if validIndex size op.1 = some i then validateStatus bits op.2 else none

/-- The last status set at `i`, or the fill. -/
def lastSet (size bits fill : Nat) (sets : List (Value × Value)) (i : Nat) : Nat :=
  (sets.reverse.findSome? (acceptedAt size bits i)).getD fill

theorem validateStatus_lt {status : Value} {s : Nat} (h : validateStatus bits status = some s) :
    s < 2 ^ bits := by
  cases status with
  | other => cases h
  | number x =>
      rw [validateStatus] at h
      split at h
      · exact absurd h (by simp)
      · split at h
        · exact absurd h (by simp)
        · next hle =>
            have hpos : 0 < 2 ^ bits := Nat.pow_pos (by decide)
            rw [Nat.one_shiftLeft] at hle
            obtain rfl := Option.some.inj h
            omega

variable (list : StatusList)

theorem set_cases (op : Value × Value) :
    (list.set op.1 op.2).toOption.getD list = list ∧
        (∀ i, acceptedAt list.size list.bits i op = none) ∨
      ∃ i s, validIndex list.size op.1 = some i ∧ validateStatus list.bits op.2 = some s ∧
        ((list.set op.1 op.2).toOption.getD list).size = list.size ∧
        ((list.set op.1 op.2).toOption.getD list).bits = list.bits ∧
        ((list.set op.1 op.2).toOption.getD list).bytes = setAt list.bytes list.bits i s := by
  unfold set acceptedAt
  cases hi : validIndex list.size op.1 with
  | none => exact Or.inl ⟨rfl, fun i => if_neg (Option.some_ne_none i).symm⟩
  | some i =>
      cases hs : validateStatus list.bits op.2 with
      | none => exact Or.inl ⟨rfl, fun _ => ite_self _⟩
      | some s => exact Or.inr ⟨i, s, rfl, rfl, rfl, rfl, rfl⟩

theorem set_step (op : Value × Value) :
    ((list.set op.1 op.2).toOption.getD list).size = list.size ∧
      ((list.set op.1 op.2).toOption.getD list).bits = list.bits ∧
      ∀ i, getAt ((list.set op.1 op.2).toOption.getD list).bytes list.bits i =
        (acceptedAt list.size list.bits i op).getD (getAt list.bytes list.bits i) := by
  obtain ⟨heq, hnone⟩ | ⟨i, s, hi, hs, hsize, hbits, hbytes⟩ := set_cases list op
  · refine ⟨by rw [heq], by rw [heq], fun i => ?_⟩
    rw [heq, hnone, Option.getD_none]
  · refine ⟨hsize, hbits, fun j => ?_⟩
    rw [hbytes, getAt_setAt list.supported
      (field_lt list.supported (validIndex_lt hi) list.packed) (validateStatus_lt hs), acceptedAt,
      hi, hs]
    by_cases hj : j = i
    · rw [if_pos hj, if_pos (congrArg some hj.symm), Option.getD_some]
    · rw [if_neg hj, if_neg fun h => hj (Option.some.inj h).symm, Option.getD_none]

theorem setAll_run (sets : List (Value × Value)) :
    (list.setAll sets).size = list.size ∧ (list.setAll sets).bits = list.bits ∧
      ∀ i, getAt (list.setAll sets).bytes list.bits i =
        lastSet list.size list.bits (getAt list.bytes list.bits i) sets i := by
  induction sets generalizing list with
  | nil => exact ⟨rfl, rfl, fun _ => rfl⟩
  | cons op sets ih =>
      obtain ⟨hsize, hbits, hget⟩ := set_step list op
      have ih := ih ((list.set op.1 op.2).toOption.getD list)
      rw [hsize, hbits] at ih
      refine ⟨ih.1, ih.2.1, fun i => (ih.2.2 i).trans ?_⟩
      rw [hget, lastSet, lastSet, List.reverse_cons, List.findSome?_append, Option.getD_or,
        List.findSome?_cons, List.findSome?_nil]
      cases acceptedAt list.size list.bits i op <;> rfl

/-- What a new list holds. -/
theorem create_holds {size : Value} {bits : Option Nat} {fill : Option Value}
    {list : StatusList} (h : create size bits fill = .ok list) :
    validSize size = some list.size ∧ bits.getD 1 = list.bits ∧
      ∃ s, fillOf list.bits fill = some s ∧
        ∀ i < list.size, getAt list.bytes list.bits i = s := by
  unfold create at h
  cases hn : validSize size with
  | none => rw [hn] at h; cases h
  | some n =>
      rw [hn] at h
      by_cases hb : bits.getD 1 ∈ supportedBitSizes
      · simp only [dif_pos hb] at h
        cases hs : fillOf (bits.getD 1) fill with
        | none => rw [hs] at h; cases h
        | some s =>
            rw [hs] at h
            by_cases h0 : s = 0
            · simp only [if_pos h0] at h
              cases h
              exact ⟨rfl, rfl, s, hs, fun i _ => h0 ▸ getAt_replicate hb _ i⟩
            · simp only [if_neg h0] at h
              cases h
              have hlt : s < 2 ^ bits.getD 1 := by
                cases fill with
                | none => exact absurd (Option.some.inj hs).symm h0
                | some v =>
                    cases v with
                    | other => cases hs
                    | number x =>
                        rw [fillOf] at hs
                        split at hs
                        · exact absurd (Option.some.inj hs).symm h0
                        · exact validateStatus_lt hs
              exact ⟨rfl, rfl, s, hs, fun i hi =>
                getAt_fillAll hb hlt List.length_replicate (Nat.le_refl n) hi⟩
      · simp only [dif_neg hb] at h
        cases h

theorem get_eq (idx : Value) : list.get idx =
    (validIndex list.size idx).elim (.error .badIndex)
      fun i => .ok (getAt list.bytes list.bits i) := by
  unfold get
  cases validIndex list.size idx <;> rfl

/-! ## The token -/

section token

variable {Token : Type} {deflateRaw : List UInt8 → List UInt8}
  {inflateRaw : List UInt8 → Nat → Option (List UInt8)} {sign : Claims → Token}
  {verify : Token → Except ErrorCode Claims}

theorem fromB64url_toBase64Url (bytes : List UInt8) :
    fromB64url (toBase64Url bytes) = .ok bytes := by
  have hvalue : ∀ u ∈ toBase64Url bytes, (base64Value u).isSome = true :=
    fun _ hu => isSome_of_mem_toBase64Url hu
  have hpad : ∀ u ∈ (toBase64Url bytes).reverse, (u == unit '=') = false := by
    intro u hu
    rw [beq_eq_false_iff_ne]
    rintro rfl
    have := hvalue _ (List.mem_reverse.mp hu)
    rw [base64Value_pad] at this
    cases this
  have hurl : ∀ v, urlUnit v ≠ unit '+' ∧ urlUnit v ≠ unit '/' := by
    intro v
    unfold urlUnit
    split
    · decide
    · split
      · decide
      · exact ⟨‹_›, ‹_›⟩
  have hall : (toBase64Url bytes).all
      (fun u => (base64Value u).isSome && u != unit '+' && u != unit '/') = true := by
    rw [List.all_eq_true]
    intro u hu
    rw [hvalue u hu]
    obtain ⟨v, -, rfl⟩ := List.mem_map.mp hu
    simpa using hurl v
  have hlen : ((toBase64Url bytes).length % 4 != 1) = true := by
    rw [length_toBase64Url, bne_iff_ne]
    omega
  rw [fromB64url, dropWhile_eq_self hpad, List.reverse_reverse, hall, hlen, Nat.sub_self,
    ofBase64_toBase64Url]
  rfl

/-- Signing and verifying give the claims back, when the payload is not too long to parse. -/
def Verifies (payload : Claims → Nat) (sign : Claims → Token)
    (verify : Token → Except ErrorCode Claims) : Prop :=
  ∀ c, (payload c ≤ maxPayloadBytes →
      ∃ c', verify (sign c) = .ok c' ∧ c'.statusList = c.statusList) ∧
    (maxPayloadBytes < payload c → ∃ e, verify (sign c) = .error e)

variable {payload : Claims → Nat}
  (hinflate : ∀ bytes n, inflateRaw (deflateRaw bytes) n =
    if bytes.length ≤ n then some bytes else none)
  (hverify : Verifies payload sign verify)

include hverify

theorem fromJwt_refused {list : StatusList} {jwtOpts : JwtOpts}
    (hlong : maxPayloadBytes < payload (list.claims deflateRaw jwtOpts)) :
    ∃ e, fromJwt inflateRaw verify (sign (list.claims deflateRaw jwtOpts)) = .error e := by
  obtain ⟨e, he⟩ := (hverify _).2 hlong
  exact ⟨e, by rw [fromJwt, he]; rfl⟩

include hinflate

/-- What the verifier makes of the issuer's token. -/
theorem fromJwt_toJwt {list : StatusList} {jwtOpts : JwtOpts}
    (hlen : ¬ maxListBytes < (deflateRaw list.bytes).length)
    (hfits : payload (list.claims deflateRaw jwtOpts) ≤ maxPayloadBytes) :
    fromJwt inflateRaw verify (sign (list.claims deflateRaw jwtOpts)) =
      if list.bytes.length ≤ maxListBytes * 8 then
        .ok (ofInflated list.bits list.supported list.bytes)
      else .error .inflateFailed := by
  obtain ⟨claims, hok, hsl⟩ := (hverify _).1 hfits
  unfold fromJwt
  rw [hok]
  simp only [bind, Except.bind, hsl, StatusList.claims, Option.getD_some, dif_pos list.supported,
    fromB64url_toBase64Url, if_neg hlen, hinflate]
  by_cases hle : list.bytes.length ≤ maxListBytes * 8
  · simp only [if_pos hle]
    rfl
  · simp only [if_neg hle]
    rfl

omit hinflate hverify in
theorem toJwt_ok {list : StatusList} {jwtOpts : JwtOpts} {token : Token}
    (h : list.toJwt deflateRaw sign jwtOpts = .ok token) :
    ¬ maxListBytes < (deflateRaw list.bytes).length ∧
      token = sign (list.claims deflateRaw jwtOpts) := by
  unfold toJwt at h
  split at h
  · cases h
  · split at h
    · cases h
    · split at h
      · cases h
      · next hlen => exact ⟨hlen, (Except.ok.inj h).symm⟩

end token

/-! ## The laws -/

section laws

variable {Token : Type} {deflateRaw : List UInt8 → List UInt8}
  {inflateRaw : List UInt8 → Nat → Option (List UInt8)} {sign : Claims → Token}
  {verify : Token → Except ErrorCode Claims} {size : Value} {bits : Option Nat}
  {fill : Option Value} {list : StatusList}

theorem ofInflated_eq (list : StatusList) (h : list.size * list.bits % 8 = 0) :
    ofInflated list.bits list.supported list.bytes = list := by
  have hsize : list.bytes.length * 8 / list.bits = list.size := by
    rw [list.packed]
    obtain h1 | h1 | h1 | h1 := bits_cases list.supported
    all_goals
      rw [h1] at h ⊢
      omega
  cases list
  rw [ofInflated, StatusList.mk.injEq]
  exact ⟨hsize, rfl, rfl⟩

theorem size_lt_ofInflated (list : StatusList) (h : list.size * list.bits % 8 ≠ 0) :
    list.size < (ofInflated list.bits list.supported list.bytes).size := by
  change list.size < list.bytes.length * 8 / list.bits
  rw [list.packed]
  obtain h1 | h1 | h1 | h1 := bits_cases list.supported
  all_goals
    rw [h1] at h ⊢
    omega

/-- The verifier's list is the issuer's exactly where the statuses fill their bytes; else
the first place of the padding reads as a status. -/
theorem agree_iff (list : StatusList) (hlen : list.bytes.length ≤ maxListBytes * 8) :
    (∀ idx, (ofInflated list.bits list.supported list.bytes).get idx = list.get idx) ↔
      list.size * list.bits % 8 = 0 := by
  constructor
  · intro hagree
    refine Decidable.byContradiction fun hne => ?_
    have hlt := size_lt_ofInflated list hne
    have hsmall : (ofInflated list.bits list.supported list.bytes).size < 2147483648 := by
      rw [maxListBytes] at hlen
      change list.bytes.length * 8 / list.bits < 2147483648
      obtain h1 | h1 | h1 | h1 := bits_cases list.supported
      all_goals
        rw [h1]
        omega
    have hget := hagree (.number (Double.ofInt list.size))
    rw [get_eq, get_eq, validIndex_ofInt hlt hsmall, validIndex_ofInt_of_le (Nat.le_refl _)] at hget
    cases hget
  · intro h idx
    rw [ofInflated_eq list h]

theorem toInt32_lt (x : Double) : toInt32 x < 2147483648 := by
  unfold toInt32
  split
  · have hhi := Int.bmod_lt (x := x.toInt) (m := 4294967296) (by decide)
    omega
  · decide

theorem toNat_lt_of_isInt32 {x : Double} (h : isInt32 x = true) : x.toInt.toNat < 2147483648 := by
  rcases isInt32_cases h with hz | hx
  · rw [toInt_of_isZero hz]
    decide
  · have hlt := toInt32_lt x
    rw [hx, Double.toInt_ofInt (natAbs_toInt32_lt x)]
    omega

theorem validSize_number {x : Double} {n : Nat} (h : validSize (.number x) = some n) :
    isInt32 x = true ∧ x.toInt.toNat = n := by
  rw [validSize] at h
  split at h
  · exact absurd h (by simp)
  · next hc =>
      rw [Bool.or_eq_true, not_or, Bool.not_eq_true, Bool.not_eq_true, Bool.not_eq_false'] at hc
      exact ⟨hc.2, Option.some.inj h⟩

theorem validSize_lt {v : Value} {n : Nat} (h : validSize v = some n) : n < 2147483648 := by
  cases v with
  | other => cases h
  | number x =>
      obtain ⟨hint, rfl⟩ := validSize_number h
      exact toNat_lt_of_isInt32 hint

/-- A list is an array from its first status to its last: an index is one of these places
or none, a place holds the last status set there, or the fill, and a set changes no other.
A verifier that is handed the issuer's token has a list exactly when the bytes are no more
than it inflates and the payload no more than it parses, and it answers as the issuer's
list does, at every index, exactly when the statuses fill the bytes. -/
theorem list_laws {payload : Claims → Nat}
    (hinflate : ∀ bytes n, inflateRaw (deflateRaw bytes) n =
      if bytes.length ≤ n then some bytes else none)
    (hverify : Verifies payload sign verify)
    (hcreate : create size bits fill = .ok list) (sets : List (Value × Value)) :
    (validSize size = some list.size ∧ bits.getD 1 = list.bits) ∧
    ((∀ i : Nat, validIndex list.size (.number (Double.ofInt i)) =
        if i < list.size then some i else none) ∧
      ∀ idx i, validIndex list.size idx = some i → i < list.size) ∧
    (∃ s, fillOf list.bits fill = some s ∧
      ∀ idx, (list.setAll sets).get idx = (validIndex list.size idx).elim (.error .badIndex)
        fun i => .ok (lastSet list.size list.bits s sets i)) ∧
    (∀ idx status list', (list.setAll sets).set idx status = .ok list' →
      ∀ j, validIndex list.size j ≠ validIndex list.size idx →
        list'.get j = (list.setAll sets).get j) ∧
    ∀ jwtOpts token, (list.setAll sets).toJwt deflateRaw sign jwtOpts = .ok token →
      ((∃ v, fromJwt inflateRaw verify token = .ok v) ↔
        list.bytes.length ≤ maxListBytes * 8 ∧
          payload ((list.setAll sets).claims deflateRaw jwtOpts) ≤ maxPayloadBytes) ∧
      ∀ v, fromJwt inflateRaw verify token = .ok v →
        ((∀ idx, v.get idx = (list.setAll sets).get idx) ↔
          list.size * list.bits % 8 = 0) := by
  obtain ⟨hn, hb, s, hs, hfill⟩ := create_holds hcreate
  obtain ⟨hsize, hbits, hget⟩ := setAll_run list sets
  have hlen : (list.setAll sets).bytes.length = list.bytes.length := by
    rw [(list.setAll sets).packed, hsize, hbits, list.packed]
  refine ⟨⟨hn, hb⟩, ⟨fun i => ?_, fun _ _ => validIndex_lt⟩, ⟨s, hs, fun idx => ?_⟩, ?_, ?_⟩
  · split
    · next hi => exact validIndex_ofInt hi (validSize_lt hn)
    · next hi => exact validIndex_ofInt_of_le (Nat.le_of_not_lt hi)
  · rw [get_eq, hsize, hbits]
    cases hi : validIndex list.size idx with
    | none => rfl
    | some i =>
        rw [Option.elim_some, Option.elim_some, hget, hfill i (validIndex_lt hi)]
  · intro idx status list' hset j hj
    have hstep := set_step (list.setAll sets) (idx, status)
    rw [hset] at hstep
    obtain ⟨hsize', hbits', hget'⟩ := hstep
    change list'.size = _ at hsize'
    change list'.bits = _ at hbits'
    rw [get_eq, get_eq, hsize', hbits', hsize]
    cases hi : validIndex list.size j with
    | none => rw [Option.elim_none, Option.elim_none]
    | some i =>
        have hother : acceptedAt (list.setAll sets).size (list.setAll sets).bits i (idx, status) =
            none := if_neg fun h => hj (by rw [hi, ← hsize, h])
        have hsame := hget' i
        rw [hother, Option.getD_none] at hsame
        exact congrArg Except.ok hsame
  · intro jwtOpts token htoken
    obtain ⟨hsmall, rfl⟩ := toJwt_ok htoken
    by_cases hfits : payload ((list.setAll sets).claims deflateRaw jwtOpts) ≤ maxPayloadBytes
    · have hfrom := fromJwt_toJwt hinflate hverify hsmall hfits
      rw [hlen] at hfrom
      refine ⟨⟨fun ⟨v, hv⟩ => ⟨?_, hfits⟩, fun ⟨hle, _⟩ => ⟨_, hfrom.trans (if_pos hle)⟩⟩,
        fun v hv => ?_⟩
      · refine Decidable.byContradiction fun hgt => ?_
        rw [hfrom, if_neg hgt] at hv
        cases hv
      · rw [hfrom] at hv
        split at hv
        · next hle =>
            obtain rfl := Except.ok.inj hv
            rw [← hsize, ← hbits]
            exact agree_iff (list.setAll sets) (hlen ▸ hle)
        · cases hv
    · obtain ⟨e, he⟩ := fromJwt_refused hverify (Nat.not_le.mp hfits)
      refine ⟨⟨fun ⟨v, hv⟩ => ?_, fun ⟨_, h⟩ => absurd h hfits⟩, fun v hv => ?_⟩
      all_goals
        rw [he] at hv
        cases hv

end laws

/-! ## One status in a byte -/

/-- Deflating, exact on the bytes of the examples. -/
def deflateByte (bytes : List UInt8) : List UInt8 :=
  if bytes = [0] then [0x63, 0, 0] else if bytes = [0x28] then [0xd3, 0, 0] else 1 :: bytes

def inflateByte (deflated : List UInt8) (n : Nat) : Option (List UInt8) :=
  let bytes := if deflated = [0x63, 0, 0] then [0] else if deflated = [0xd3, 0, 0] then [0x28]
    else deflated.drop 1
  if bytes.length ≤ n then some bytes else none

theorem inflateByte_deflateByte (bytes : List UInt8) (n : Nat) :
    inflateByte (deflateByte bytes) n = if bytes.length ≤ n then some bytes else none := by
  rw [inflateByte]
  unfold deflateByte
  split
  · next h => rw [h]; rfl
  · split
    · next h => rw [h]; rfl
    · simp

/-- Tokens that carry the claims in the clear, in payloads that are never too long. -/
theorem verifies_clear : Verifies (fun _ => 0) id (Except.ok : Claims → Except ErrorCode Claims) :=
  fun c => ⟨fun _ => ⟨c, rfl, rfl⟩, fun h => nomatch h⟩

/-- The list of one status of one bit. -/
def oneStatus : StatusList := empty 1 1 (by decide)

theorem create_oneStatus :
    create (.number (Double.ofInt 1)) (some 1) none = .ok oneStatus := by
  have hsize : validSize (.number (Double.ofInt 1)) = some 1 := by decide +kernel
  unfold create
  rw [hsize]
  rfl

theorem toJwt_oneStatus : oneStatus.toJwt deflateByte id ⟨[unit 'i'], [unit 's'], none⟩ =
    .ok ⟨[unit 'i'], [unit 's'], some ⟨some 1, some (toBase64Url [0x63, 0, 0])⟩, none⟩ := by
  rfl

/-- The list of eight statuses of one bit, and two sets. -/
def eightStatuses : StatusList := empty 8 1 (by decide)

def eightSets : List (Value × Value) :=
  [(.number (Double.ofInt 3), .number (Double.ofInt 1)),
    (.number (Double.ofInt 5), .number (Double.ofInt 1))]

theorem create_eightStatuses :
    create (.number (Double.ofInt 8)) (some 1) none = .ok eightStatuses := by
  have hsize : validSize (.number (Double.ofInt 8)) = some 8 := by decide +kernel
  unfold create
  rw [hsize]
  rfl

theorem list_laws_eightStatuses : ∃ token v,
    (eightStatuses.setAll eightSets).toJwt deflateByte id ⟨[unit 'i'], [unit 's'], none⟩ =
      .ok token ∧
    fromJwt inflateByte Except.ok token = .ok v ∧
    (∀ idx, v.get idx = (eightStatuses.setAll eightSets).get idx) ∧
    v.get (.number (Double.ofInt 3)) = .ok 1 ∧ v.get (.number (Double.ofInt 4)) = .ok 0 := by
  have hget : (eightStatuses.setAll eightSets).get (.number (Double.ofInt 3)) = .ok 1 ∧
      (eightStatuses.setAll eightSets).get (.number (Double.ofInt 4)) = .ok 0 := by
    decide +kernel
  have hsmall : ¬ maxListBytes < (deflateByte (eightStatuses.setAll eightSets).bytes).length := by
    decide +kernel
  have htoken : (eightStatuses.setAll eightSets).toJwt deflateByte id
      ⟨[unit 'i'], [unit 's'], none⟩ = .ok ((eightStatuses.setAll eightSets).claims deflateByte
        ⟨[unit 'i'], [unit 's'], none⟩) := by
    rw [toJwt, if_neg (by simp), if_neg (by simp), if_neg hsmall]
    rfl
  obtain ⟨-, -, -, -, hlaws⟩ := @list_laws Claims deflateByte inflateByte id Except.ok _ _ _ _ _
    inflateByte_deflateByte verifies_clear create_eightStatuses eightSets
  obtain ⟨hread, hsame⟩ := hlaws _ _ htoken
  obtain ⟨v, hv⟩ := hread.mpr ⟨by decide, Nat.zero_le _⟩
  have hsame := (hsame v hv).mpr rfl
  exact ⟨_, v, htoken, hv, hsame, (hsame _).trans hget.1, (hsame _).trans hget.2⟩

/-- The issuer's list has one status; the verifier's reads seven more as valid. -/
theorem padding_reads_valid : ∃ token v,
    create (.number (Double.ofInt 1)) (some 1) none = .ok oneStatus ∧
    oneStatus.toJwt deflateByte id ⟨[unit 'i'], [unit 's'], none⟩ = .ok token ∧
    fromJwt inflateByte Except.ok token = .ok v ∧
    oneStatus.get (.number (Double.ofInt 1)) = .error .badIndex ∧
    v.get (.number (Double.ofInt 1)) = .ok 0 := by
  have hfrom := @fromJwt_toJwt Claims deflateByte inflateByte id Except.ok _
    inflateByte_deflateByte verifies_clear oneStatus ⟨[unit 'i'], [unit 's'], none⟩ (by decide)
    (Nat.zero_le _)
  refine ⟨_, _, create_oneStatus, toJwt_oneStatus, hfrom.trans (if_pos (by decide)), ?_, ?_⟩
  · have hone : validIndex oneStatus.size (.number (Double.ofInt 1)) = none :=
      @validIndex_ofInt_of_le 1 1 (Nat.le_refl 1)
    rw [get_eq, hone]
    rfl
  · have hone : validIndex 8 (.number (Double.ofInt 1)) = some 1 :=
      validIndex_ofInt (i := 1) (by decide) (by decide)
    rw [get_eq]
    change (validIndex 8 _).elim _ _ = _
    rw [hone]
    rfl

end Blamejs.StatusList
