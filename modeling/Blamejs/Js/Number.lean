import Blamejs.Lib.BinaryFormat

/-!
# JavaScript numbers

A Number is an IEEE 754 double: a sign and a 63-bit pattern, read through
`BinaryFormat` at 52 fraction bits. Finite values are counted in units of
`2 ^ -1074`, the smallest subnormal, so the value of a finite Number is
`scaled / unitsPerOne` and arithmetic on it is integer arithmetic followed by
one rounding.

The pattern type holds 2 ^ 53 different NaNs where the language has one; the
operations that produce a NaN produce `nan`, and those that compare go through
`isNaN` rather than equality.
-/

namespace Blamejs.Js

open BinaryFormat

/-- A double: the sign and the exponent and fraction fields. -/
structure Double where
  neg : Bool
  bits : Fin (2 ^ 63)
deriving DecidableEq, Repr

namespace Double

/-- The pattern of infinity; every finite pattern lies below it and every NaN
above. -/
def infBits : Nat := 2047 * 2 ^ 52

/-- One is `2 ^ unitOrder` units. Irreducible, so that only the kernel ever
evaluates the power. -/
@[irreducible] def unitOrder : Nat := 1074

theorem unitOrder_eq : unitOrder = 1074 := by rw [unitOrder]

/-- How many units of the smallest subnormal make one. -/
def unitsPerOne : Nat := 2 ^ unitOrder

theorem unitsPerOne_pos : 0 < unitsPerOne := Nat.two_pow_pos unitOrder

def isNaN (x : Double) : Bool := infBits < x.bits.val

def isInfinite (x : Double) : Bool := x.bits.val = infBits

def isFinite (x : Double) : Bool := x.bits.val < infBits

def isZero (x : Double) : Bool := x.bits.val = 0

def nan : Double := ⟨false, ⟨infBits + 2 ^ 51, by decide⟩⟩

def infinity (neg : Bool) : Double := ⟨neg, ⟨infBits, by decide⟩⟩

def zero (neg : Bool) : Double := ⟨neg, ⟨0, by decide⟩⟩

/-- A rounded pattern as a double; patterns past the finite ones overflow. -/
def ofBits (neg : Bool) (n : Nat) : Double :=
  if h : n < infBits then ⟨neg, ⟨n, Nat.lt_trans h (by decide)⟩⟩ else infinity neg

/-- The magnitude of a finite double, in units. -/
def mag (x : Double) : Nat := magnitude 52 x.bits.val

def scaled (x : Double) : Int := if x.neg then -(x.mag : Int) else x.mag

/-- The double nearest to `n` units. -/
def ofScaled (neg : Bool) (n : Nat) : Double := ofBits neg (round 52 n 1)

/-- The double nearest to `a / b`. -/
def ofRatio (neg : Bool) (a b : Nat) : Double := ofBits neg (round 52 (a * unitsPerOne) b)

/-- `Number(z)` for an exact integer `z`. -/
def ofInt (z : Int) : Double := ofRatio (z < 0) z.natAbs 1

/-- `Number.isInteger(x)`. -/
def isInteger (x : Double) : Bool := x.isFinite && x.mag % unitsPerOne == 0

/-- The integer an integral double stands for. -/
def toInt (x : Double) : Int :=
  if x.neg then -((x.mag / unitsPerOne : Nat) : Int) else (x.mag / unitsPerOne : Nat)

/-- `Number.MAX_SAFE_INTEGER`. -/
def maxSafe : Nat := 9007199254740991

/-- `Number.isSafeInteger(x)`. -/
def isSafeInteger (x : Double) : Bool :=
  x.isInteger && x.mag ≤ maxSafe * unitsPerOne

/-- `Object.is(x, -0)`. -/
def isNegZero (x : Double) : Bool := x.neg && x.isZero

/-- The equality `Map` and `Set` look keys up by: every NaN is one key, and so
are the two zeros. -/
def sameValueZero (x y : Double) : Bool :=
  (x.isNaN && y.isNaN) || (x.isZero && y.isZero) || (!x.isNaN && x == y)

/-- The language's `===` on numbers. -/
def strictEq (x y : Double) : Bool := (x.isZero && y.isZero) || (!x.isNaN && x == y)

/-- The place of a number that is not NaN in the numeric order. -/
def key (x : Double) : Int := if x.neg then -(x.bits.val : Int) else x.bits.val

/-- `x < y`. -/
def lt (x y : Double) : Bool := !x.isNaN && !y.isNaN && decide (x.key < y.key)

/-- `x <= y`. -/
def le (x y : Double) : Bool := !x.isNaN && !y.isNaN && decide (x.key ≤ y.key)

/-- `x + y`. -/
def add (x y : Double) : Double :=
  if x.isNaN || y.isNaN then nan
  else if x.isInfinite then (if y.isInfinite && x.neg != y.neg then nan else x)
  else if y.isInfinite then y
  else if x.scaled + y.scaled = 0 then zero (x.neg && y.neg)
  else ofScaled (x.scaled + y.scaled < 0) (x.scaled + y.scaled).natAbs

/-- `Math.max(x, y)`, the zeros aside. -/
def max (x y : Double) : Double :=
  if x.isNaN || y.isNaN then nan else if x.lt y then y else x

theorem isNaN_of_isFinite {x : Double} (h : x.isFinite = true) : x.isNaN = false := by
  simp only [isFinite, isNaN, decide_eq_true_eq, decide_eq_false_iff_not] at h ⊢
  omega

theorem isInfinite_of_isFinite {x : Double} (h : x.isFinite = true) : x.isInfinite = false := by
  simp only [isFinite, isInfinite, decide_eq_true_eq, decide_eq_false_iff_not] at h ⊢
  omega

theorem ofBits_of_lt {neg : Bool} {n : Nat} (h : n < infBits) :
    ofBits neg n = ⟨neg, ⟨n, Nat.lt_trans h (by decide)⟩⟩ := by
  rw [ofBits, dif_pos h]

theorem ofBits_bits {x : Double} (h : x.isFinite = true) : ofBits x.neg x.bits.val = x := by
  rw [ofBits_of_lt (by simpa [isFinite] using h)]

theorem isFinite_ofBits {neg : Bool} {n : Nat} (h : n < infBits) :
    (ofBits neg n).isFinite = true := by
  rw [ofBits_of_lt h]; simpa [isFinite] using h

theorem mag_ofBits {neg : Bool} {n : Nat} (h : n < infBits) :
    (ofBits neg n).mag = magnitude 52 n := by
  rw [ofBits_of_lt h, mag]

theorem neg_ofBits {neg : Bool} {n : Nat} : (ofBits neg n).neg = neg := by
  unfold ofBits
  split <;> rfl

/-- Rounding a double's own magnitude gives the double back. -/
theorem ofScaled_mag {x : Double} (h : x.isFinite = true) : ofScaled x.neg x.mag = x := by
  rw [ofScaled, mag, round_magnitude, ofBits_bits h]

/-- A fraction whose value is a double's magnitude rounds to that double. -/
theorem ofRatio_eq {x : Double} (h : x.isFinite = true) {a b : Nat} (hb : 0 < b)
    (hab : a * unitsPerOne = x.mag * b) : ofRatio x.neg a b = x := by
  rw [ofRatio, hab, round_exact hb]
  exact ofScaled_mag h

theorem ofRatio_congr {neg : Bool} {a b a' b' : Nat} (hb : 0 < b) (hb' : 0 < b')
    (h : a * b' = a' * b) : ofRatio neg a b = ofRatio neg a' b' := by
  rw [ofRatio, ofRatio]
  refine congrArg _ (round_congr hb hb' ?_)
  rw [Nat.mul_right_comm, h, Nat.mul_right_comm]

/-- Two finite doubles with the same sign and magnitude are the same. -/
theorem ext_mag {x y : Double} (hneg : x.neg = y.neg) (hmag : x.mag = y.mag) : x = y := by
  obtain ⟨nx, bx⟩ := x
  obtain ⟨ny, bv⟩ := y
  have hb : bx = bv := Fin.ext (magnitude_injective 52 hmag)
  simp only at hneg
  rw [hneg, hb]

theorem mag_eq_zero_iff {x : Double} : x.mag = 0 ↔ x.isZero = true := by
  have h0 : magnitude 52 0 = 0 := magnitude_small (by decide)
  rw [mag, isZero, decide_eq_true_eq]
  constructor
  · intro h
    exact magnitude_injective 52 (h.trans h0.symm)
  · intro h
    rw [h, h0]

/-! ## Integers up to `2 ^ 53`

Everything an integer of at most 53 bits is converted into keeps its value. -/

theorem round_natAbs_lt {n : Nat} (h : n < 2 ^ 53) : round 52 (n * unitsPerOne) 1 < infBits := by
  rcases Nat.eq_zero_or_pos n with rfl | hpos
  · rw [Nat.zero_mul, round_small (by decide)]; decide
  have hne : n ≠ 0 := Nat.ne_of_gt hpos
  have hlog := (Nat.log2_lt hne).mpr h
  have hself := Nat.log2_self_le hne
  have hlt := Nat.lt_log2_self (n := n)
  have hsplit : n * unitsPerOne
      = n * 2 ^ (52 - Nat.log2 n) * 2 ^ (1022 + Nat.log2 n) := by
    rw [unitsPerOne, Nat.mul_assoc, ← Nat.pow_add]
    congr 2; rw [unitOrder_eq]; omega
  have hlo : 2 ^ 52 ≤ n * 2 ^ (52 - Nat.log2 n) := by
    calc 2 ^ 52 = 2 ^ Nat.log2 n * 2 ^ (52 - Nat.log2 n) := by
          rw [← Nat.pow_add]; congr 1; omega
      _ ≤ _ := Nat.mul_le_mul_right _ hself
  have hhi : n * 2 ^ (52 - Nat.log2 n) < 2 ^ (52 + 1) := by
    calc n * 2 ^ (52 - Nat.log2 n)
        < 2 ^ (Nat.log2 n + 1) * 2 ^ (52 - Nat.log2 n) :=
          Nat.mul_lt_mul_of_pos_right hlt (Nat.two_pow_pos _)
      _ = 2 ^ (52 + 1) := by rw [← Nat.pow_add]; congr 1; omega
  rw [hsplit, round_normal hlo hhi, infBits]
  have : (1022 + Nat.log2 n) * 2 ^ 52 ≤ 1074 * 2 ^ 52 := Nat.mul_le_mul_right _ (by omega)
  omega

theorem isFinite_ofInt {z : Int} (h : z.natAbs < 2 ^ 53) : (ofInt z).isFinite = true :=
  isFinite_ofBits (round_natAbs_lt h)

theorem mag_ofInt {z : Int} (h : z.natAbs < 2 ^ 53) :
    (ofInt z).mag = z.natAbs * unitsPerOne := by
  rw [ofInt, ofRatio, mag_ofBits (round_natAbs_lt h), unitsPerOne, magnitude_round h]

@[simp] theorem neg_ofInt (z : Int) : (ofInt z).neg = decide (z < 0) := neg_ofBits

theorem toInt_ofInt {z : Int} (h : z.natAbs < 2 ^ 53) : (ofInt z).toInt = z := by
  rw [toInt, mag_ofInt h, neg_ofInt, Nat.mul_div_cancel _ unitsPerOne_pos]
  split <;> rename_i hz <;> simp only [decide_eq_true_eq] at hz <;> omega

theorem isInteger_ofInt {z : Int} (h : z.natAbs < 2 ^ 53) : (ofInt z).isInteger = true := by
  rw [isInteger, isFinite_ofInt h, mag_ofInt h, Nat.mul_mod_left]
  rfl

theorem isNegZero_ofInt {z : Int} (h : z.natAbs < 2 ^ 53) : (ofInt z).isNegZero = false := by
  rw [isNegZero, neg_ofInt, Bool.and_eq_false_iff, decide_eq_false_iff_not]
  rcases lt_or_ge z 0 with hz | hz
  · refine Or.inr (Bool.eq_false_iff.mpr fun hzero => ?_)
    rw [← mag_eq_zero_iff, mag_ofInt h] at hzero
    have := (Nat.mul_eq_zero.mp hzero).resolve_right (Nat.ne_of_gt unitsPerOne_pos)
    omega
  · exact Or.inl (by omega)

theorem isSafeInteger_ofInt {z : Int} (h : z.natAbs < 2 ^ 53) :
    (ofInt z).isSafeInteger = true := by
  rw [isSafeInteger, isInteger_ofInt h, mag_ofInt h, Bool.true_and, decide_eq_true_eq, maxSafe]
  exact Nat.mul_le_mul_right _ (by omega)

theorem natAbs_toInt (x : Double) : x.toInt.natAbs = x.mag / unitsPerOne := by
  rw [toInt]
  generalize x.mag / unitsPerOne = q
  split <;> omega

theorem natAbs_toInt_lt {x : Double} (h : x.mag ≤ maxSafe * unitsPerOne) :
    x.toInt.natAbs < 2 ^ 53 := by
  rw [natAbs_toInt]
  have : x.mag / unitsPerOne ≤ maxSafe :=
    (Nat.div_le_iff_le_mul_add_pred unitsPerOne_pos).mpr (by
      have := unitsPerOne_pos
      rw [Nat.mul_comm]; omega)
  rw [maxSafe] at this
  omega

/-- An integral double below `2 ^ 53` other than `-0` is the one its integer
converts to. -/
theorem ofInt_toInt {x : Double} (hint : x.isSafeInteger = true) (hz : x.isNegZero = false) :
    ofInt x.toInt = x := by
  rw [isSafeInteger, isInteger, Bool.and_eq_true, Bool.and_eq_true, beq_iff_eq,
    decide_eq_true_eq] at hint
  obtain ⟨⟨hfin, hdvd⟩, hle⟩ := hint
  have hmul : x.mag / unitsPerOne * unitsPerOne = x.mag := by
    have := Nat.div_add_mod' x.mag unitsPerOne
    omega
  have hsmall : x.toInt.natAbs < 2 ^ 53 := natAbs_toInt_lt hle
  refine ext_mag ?_ ?_
  · rw [neg_ofInt]
    cases hneg : x.neg with
    | false =>
        rw [toInt, hneg, decide_eq_false_iff_not, if_neg (by decide)]
        generalize x.mag / unitsPerOne = q
        omega
    | true =>
        rw [toInt, hneg, if_pos rfl, decide_eq_true_eq]
        have hne : x.mag ≠ 0 := by
          intro h0
          rw [mag_eq_zero_iff] at h0
          rw [isNegZero, hneg, h0] at hz
          exact absurd hz (by decide)
        have : x.mag / unitsPerOne ≠ 0 := by
          intro h0
          rw [h0, Nat.zero_mul] at hmul
          exact hne hmul.symm
        generalize x.mag / unitsPerOne = q at this
        omega
  · rw [mag_ofInt hsmall, natAbs_toInt, hmul]

/-! ## The order of integers -/

theorem isNaN_ofBits (neg : Bool) (n : Nat) : (ofBits neg n).isNaN = false := by
  unfold ofBits
  split
  · next h => simpa [isNaN] using Nat.le_of_lt h
  · cases neg <;> decide

theorem isNaN_ofInt (z : Int) : (ofInt z).isNaN = false := isNaN_ofBits _ _

theorem key_ofBits (n : Nat) : (ofBits false n).key = min n infBits := by
  unfold ofBits
  split
  · next h => simp [key, Nat.min_eq_left (Nat.le_of_lt h)]
  · next h => simp [key, infinity, Nat.min_eq_right (Nat.le_of_not_lt h)]

/-- Conversion keeps the order of natural numbers, whatever it rounds. -/
theorem key_ofInt_mono {m n : Nat} (h : m ≤ n) : (ofInt m).key ≤ (ofInt n).key := by
  have hsign : ∀ k : Nat, decide ((k : Int) < 0) = false := by intro k; simp
  rw [ofInt, ofInt, hsign, hsign, ofRatio, ofRatio, key_ofBits, key_ofBits]
  have hround := round_mono (p := 52) (b := 1) (Nat.mul_le_mul_right unitsPerOne h)
  simp only [Int.natAbs_natCast] at hround ⊢
  omega

theorem key_ofInt_pos {n : Nat} (h : 0 < n) : 0 < (ofInt n).key := by
  have hone : 0 < (ofInt 1).key := by decide +kernel
  exact Int.lt_of_lt_of_le hone (key_ofInt_mono (m := 1) h)

end Double

end Blamejs.Js
