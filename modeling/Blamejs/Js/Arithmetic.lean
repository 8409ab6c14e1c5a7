import Blamejs.Js.Number
import Mathlib.Data.Rat.Floor
import Mathlib.Tactic.Positivity

/-!
# Arithmetic on numbers

Subtraction, products and quotients round the exact result once, like `add`. Sums and
differences of integers stay exact below `2 ^ 53`, which is what a counter kept in a
Number rests on.
-/

namespace Blamejs.Js.Double

/-- The exact value of a finite double. -/
def value (x : Double) : Rat := x.scaled / unitsPerOne

/-- `-x`. -/
def negate (x : Double) : Double := { x with neg := !x.neg }

/-- `x - y`. -/
def sub (x y : Double) : Double := x.add y.negate

/-- `x * y` of finite numbers. -/
def mul (x y : Double) : Double :=
  ofRatio (x.neg != y.neg) (x.mag * y.mag) (unitsPerOne * unitsPerOne)

/-- `x / y` of finite numbers, `y` not zero. -/
def div (x y : Double) : Double := ofRatio (x.neg != y.neg) x.mag y.mag

/-- `Math.floor(x)`. -/
def floor (x : Double) : Int := x.scaled / unitsPerOne

/-- `x || 0`. -/
def orZero (x : Double) : Double := if x.isNaN || x.isZero then zero false else x

/-! ## Counters -/

theorem neg_ofNat (n : Nat) : (ofInt n).neg = false := by
  rw [neg_ofInt]
  exact decide_eq_false (Int.not_lt.mpr (Int.natCast_nonneg n))

theorem scaled_negate (x : Double) : x.negate.scaled = -x.scaled := by
  rw [scaled, scaled, negate]
  cases x.neg with
  | false => rfl
  | true => exact (Int.neg_neg _).symm

theorem isFinite_negate (x : Double) : x.negate.isFinite = x.isFinite := rfl

theorem scaled_of_mag {x : Double} {n u : Nat} (hneg : x.neg = false) (hmag : x.mag = n * u) :
    x.scaled = n * u := by
  rw [scaled, hneg, if_neg Bool.false_ne_true, hmag]
  exact Int.natCast_mul n u

theorem natAbs_lt {n : Nat} (h : n < 2 ^ 53) : (n : Int).natAbs < 2 ^ 53 := by
  rwa [Int.natAbs_natCast]

theorem mag_ofNat {n : Nat} (h : n < 2 ^ 53) : (ofInt n).mag = n * unitsPerOne := by
  have hmag := mag_ofInt (natAbs_lt h)
  rwa [Int.natAbs_natCast] at hmag

theorem scaled_ofInt {n : Nat} (h : n < 2 ^ 53) : (ofInt n).scaled = n * unitsPerOne :=
  scaled_of_mag (neg_ofNat n) (mag_ofNat h)

theorem value_of_scaled {x : Double} {n u : Nat} (hu : 0 < u) (h : x.scaled = n * u) :
    (x.scaled / u : Rat) = n := by
  have hne : (u : Rat) ≠ 0 := Nat.cast_ne_zero.mpr (Nat.ne_of_gt hu)
  rw [h, Int.cast_mul, Int.cast_natCast, Int.cast_natCast, mul_div_cancel_right₀ _ hne]

theorem value_ofInt {n : Nat} (h : n < 2 ^ 53) : (ofInt n).value = n :=
  value_of_scaled unitsPerOne_pos (scaled_ofInt h)

theorem scaled_negate_ofInt {n : Nat} (h : n < 2 ^ 53) :
    (ofInt n).negate.scaled = -(n * unitsPerOne) := by
  rw [scaled_negate, scaled_ofInt h]

theorem isFinite_ofNat {n : Nat} (h : n < 2 ^ 53) : (ofInt n).isFinite = true :=
  isFinite_ofInt (by simpa using h)

theorem ofInt_zero : ofInt 0 = zero false := by decide +kernel

theorem add_of_isFinite {x y : Double} (hx : x.isFinite = true) (hy : y.isFinite = true) :
    x.add y = if x.scaled + y.scaled = 0 then zero (x.neg && y.neg)
      else ofScaled (x.scaled + y.scaled < 0) (x.scaled + y.scaled).natAbs := by
  rw [add, isNaN_of_isFinite hx, isNaN_of_isFinite hy, isInfinite_of_isFinite hx,
    isInfinite_of_isFinite hy]
  simp only [Bool.or_self, Bool.false_eq_true, if_false]

/-- A sum of whole units is the integer it comes to. -/
theorem ofScaled_natAbs (n : Nat) (hn : n ≠ 0) :
    ofScaled (decide ((n * unitsPerOne : Int) < 0)) (n * unitsPerOne : Int).natAbs = ofInt n := by
  have hneg : ¬ (n * unitsPerOne : Int) < 0 := Int.not_lt.mpr (by positivity)
  have habs : (n * unitsPerOne : Int).natAbs = n * unitsPerOne := by
    rw [Int.natAbs_mul, Int.natAbs_natCast, Int.natAbs_natCast]
  rw [ofInt, ofRatio, ofScaled, habs, Int.natAbs_natCast, decide_eq_false hneg,
    decide_eq_false (by omega)]

theorem zero_mul_cast (u : Nat) : ((0 : Nat) * u : Int) = 0 := Int.zero_mul u

theorem natCast_mul_ne_zero {n : Nat} (h : n ≠ 0) : (n * unitsPerOne : Int) ≠ 0 := by
  have := unitsPerOne_pos
  positivity

theorem add_ofInt {m n : Nat} (h : m + n < 2 ^ 53) :
    (ofInt m).add (ofInt n) = ofInt (m + n : Nat) := by
  have hm : m < 2 ^ 53 := by omega
  have hn : n < 2 ^ 53 := by omega
  by_cases hzero : m + n = 0
  · obtain ⟨rfl, rfl⟩ := Nat.add_eq_zero_iff.mp hzero
    decide +kernel
  · rw [add_of_isFinite (isFinite_ofNat hm) (isFinite_ofNat hn), scaled_ofInt hm,
      scaled_ofInt hn, ← Int.add_mul, ← Int.natCast_add, if_neg (natCast_mul_ne_zero hzero),
      ofScaled_natAbs _ hzero]

theorem sub_units (m n u : Nat) (h : n ≤ m) : (m * u + -(n * u) : Int) = (m - n : Nat) * u := by
  rw [← Int.sub_eq_add_neg, ← Int.sub_mul, ← Int.natCast_sub h]

theorem sub_ofInt {m n : Nat} (h : m < 2 ^ 53) (hle : n ≤ m) :
    (ofInt m).sub (ofInt n) = ofInt (m - n : Nat) := by
  have hn : n < 2 ^ 53 := Nat.lt_of_le_of_lt hle h
  rw [sub, add_of_isFinite (isFinite_ofNat h) ((isFinite_negate _).trans (isFinite_ofNat hn)),
    scaled_negate_ofInt hn, scaled_ofInt h, sub_units m n unitsPerOne hle]
  by_cases hzero : m - n = 0
  · rw [hzero, if_pos (zero_mul_cast unitsPerOne), neg_ofNat, Bool.false_and]
    exact ofInt_zero.symm
  · rw [if_neg (natCast_mul_ne_zero hzero), ofScaled_natAbs _ hzero]

/-- The order of integers is the order of their conversions, below what is rounded. -/
theorem lt_ofInt_mono {m n : Nat} {x : Double} (h : n ≤ m) (hle : x.lt (ofInt m) = false) :
    x.lt (ofInt n) = false := by
  rw [lt, Bool.and_eq_false_iff, decide_eq_false_iff_not] at hle ⊢
  rw [isNaN_ofInt] at hle ⊢
  exact hle.imp id fun hkey => fun hlt => hkey (Int.lt_of_lt_of_le hlt (key_ofInt_mono h))

theorem orZero_ofInt (n : Nat) : (ofInt n).orZero = ofInt n := by
  rw [orZero, isNaN_ofInt, Bool.false_or]
  split
  · next hzero =>
      rcases Nat.eq_zero_or_pos n with rfl | hpos
      · exact ofInt_zero.symm
      · have := key_ofInt_pos hpos
        rw [isZero, decide_eq_true_eq] at hzero
        rw [key, hzero] at this
        split at this <;> simp at this
  · rfl

theorem not_lt_zero (n : Nat) : (ofInt n).lt (zero false) = false := by
  have hkey : 0 ≤ (ofInt n).key := by
    have := key_ofInt_mono (Nat.zero_le n)
    rwa [show (ofInt (0 : Nat)).key = 0 by decide +kernel] at this
  rw [lt, Bool.and_eq_false_iff, decide_eq_false_iff_not]
  refine .inr fun hlt => ?_
  rw [show (zero false).key = 0 from rfl] at hlt
  omega

end Blamejs.Js.Double
