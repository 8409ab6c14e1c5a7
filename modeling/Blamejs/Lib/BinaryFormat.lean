import Mathlib.Data.Nat.Log
import Mathlib.Tactic.Ring
import Mathlib.Tactic.Common

/-!
# Binary floating-point magnitudes

A binary interchange format with `p` fraction bits, seen through one number:
its *bit pattern without the sign*, the exponent field above the fraction
field. Magnitudes are counted in the format's smallest subnormal, so every
finite value is a natural number and no exponent is ever negative.

The point of the layout is that rounding does not have to know about it. A
quotient that lies `s` binary orders above the subnormal range rounds to some
`m` units of `2 ^ s`, and `s * 2 ^ p + m` is its pattern whether `m` kept its
leading bit, carried into the next order, or never had one.
-/

namespace BinaryFormat

/-- The magnitude of a finite bit pattern, in units of the smallest
subnormal. -/
def magnitude (p bits : Nat) : Nat :=
  if bits / 2 ^ p = 0 then bits % 2 ^ p
  else (2 ^ p + bits % 2 ^ p) * 2 ^ (bits / 2 ^ p - 1)

/-- The integer nearest to `a / b`, ties to even. -/
def roundHalfEven (a b : Nat) : Nat :=
  if 2 * (a % b) < b then a / b
  else if b < 2 * (a % b) then a / b + 1
  else if a / b % 2 = 0 then a / b else a / b + 1

/-- The bit pattern nearest to `a / b` units, ties to even. Past the largest
finite pattern it keeps counting, and the caller reads that as overflow. -/
def round (p a b : Nat) : Nat :=
  let s := Nat.log2 (a / b) - p
  s * 2 ^ p + roundHalfEven a (b * 2 ^ s)

theorem roundHalfEven_mul {q b : Nat} (hb : 0 < b) : roundHalfEven (q * b) b = q := by
  rw [roundHalfEven, Nat.mul_mod_left, if_pos (by omega), Nat.mul_div_cancel q hb]

/-- Rounding sees a quotient, not the fraction it was written as. -/
theorem roundHalfEven_scale {a b c : Nat} (hc : 0 < c) :
    roundHalfEven (a * c) (b * c) = roundHalfEven a b := by
  unfold roundHalfEven
  rw [Nat.mul_mod_mul_right, Nat.mul_div_mul_right _ _ hc, ← Nat.mul_assoc]
  simp only [Nat.mul_lt_mul_right hc]

theorem round_scale {p a b c : Nat} (hc : 0 < c) : round p (a * c) (b * c) = round p a b := by
  simp only [round]
  rw [Nat.mul_div_mul_right _ _ hc, Nat.mul_right_comm, roundHalfEven_scale hc]

/-- Two fractions with the same value round alike. -/
theorem round_congr {p a b a' b' : Nat} (hb : 0 < b) (hb' : 0 < b') (h : a * b' = a' * b) :
    round p a b = round p a' b' := by
  rw [← round_scale hb', h, Nat.mul_comm b b', round_scale hb]

theorem round_exact {p a c : Nat} (hc : 0 < c) : round p (a * c) c = round p a 1 := by
  simpa using round_scale (p := p) (a := a) (b := 1) hc

/-- A value below the first binade that needs shifting is its own pattern. -/
theorem round_small {p m : Nat} (hm : m < 2 ^ (p + 1)) : round p m 1 = m := by
  have hlog : Nat.log2 m - p = 0 := by
    rcases Nat.eq_zero_or_pos m with rfl | hpos
    · simp
    · have := (Nat.log2_lt (Nat.ne_of_gt hpos)).mpr hm
      omega
  have h := roundHalfEven_mul (q := m) Nat.one_pos
  simp only [round, Nat.div_one, hlog]
  simpa using h

/-- A value with `p + 1` significant bits, `s` orders up, keeps all of them. -/
theorem round_normal {p m s : Nat} (hlo : 2 ^ p ≤ m) (hhi : m < 2 ^ (p + 1)) :
    round p (m * 2 ^ s) 1 = s * 2 ^ p + m := by
  have hpos := Nat.two_pow_pos p
  have hne : m * 2 ^ s ≠ 0 := Nat.mul_ne_zero (by omega) (Nat.ne_of_gt (Nat.two_pow_pos s))
  have hlog : Nat.log2 (m * 2 ^ s) = p + s := by
    have h₁ : p + s ≤ Nat.log2 (m * 2 ^ s) := by
      rw [Nat.le_log2 hne, Nat.pow_add]
      exact Nat.mul_le_mul_right _ hlo
    have h₂ : Nat.log2 (m * 2 ^ s) < p + 1 + s := by
      rw [Nat.log2_lt hne, Nat.pow_add]
      exact Nat.mul_lt_mul_of_pos_right hhi (Nat.two_pow_pos s)
    omega
  have h := roundHalfEven_mul (q := m) (Nat.two_pow_pos s)
  simp only [round, Nat.div_one, hlog, Nat.add_sub_cancel_left, Nat.one_mul, h]

/-- Every finite pattern is the rounding of its own magnitude. -/
theorem round_magnitude (p bits : Nat) : round p (magnitude p bits) 1 = bits := by
  have hmod := Nat.mod_lt bits (Nat.two_pow_pos p)
  have hdiv := Nat.div_add_mod' bits (2 ^ p)
  have hpow : 2 ^ (p + 1) = 2 ^ p + 2 ^ p := by ring
  unfold magnitude
  split
  · next h =>
      rw [round_small (by omega)]
      rw [h] at hdiv
      omega
  · next h =>
      rw [round_normal (by omega) (by omega)]
      obtain ⟨e, he⟩ : ∃ e, bits / 2 ^ p = e + 1 := ⟨_, (Nat.succ_pred_eq_of_ne_zero h).symm⟩
      rw [he] at hdiv ⊢
      rw [Nat.add_mul] at hdiv
      rw [Nat.add_sub_cancel]
      omega

theorem magnitude_normal {p m s : Nat} (hlo : 2 ^ p ≤ m) (hhi : m < 2 ^ (p + 1)) :
    magnitude p (s * 2 ^ p + m) = m * 2 ^ s := by
  obtain ⟨f, rfl⟩ := Nat.exists_eq_add_of_le hlo
  have hf : f < 2 ^ p := by rw [Nat.pow_succ] at hhi; omega
  have hpos := Nat.two_pow_pos p
  have hdiv : (s * 2 ^ p + (2 ^ p + f)) / 2 ^ p = s + 1 := by
    rw [show s * 2 ^ p + (2 ^ p + f) = f + (s + 1) * 2 ^ p by ring,
      Nat.add_mul_div_right _ _ hpos, Nat.div_eq_of_lt hf, Nat.zero_add]
  have hmod : (s * 2 ^ p + (2 ^ p + f)) % 2 ^ p = f := by
    rw [show s * 2 ^ p + (2 ^ p + f) = f + (s + 1) * 2 ^ p by ring,
      Nat.add_mul_mod_self_right, Nat.mod_eq_of_lt hf]
  rw [magnitude, hdiv, hmod, if_neg (Nat.succ_ne_zero s), Nat.add_sub_cancel]

theorem magnitude_small {p m : Nat} (hm : m < 2 ^ (p + 1)) : magnitude p m = m := by
  rcases Nat.lt_or_ge m (2 ^ p) with h | h
  · rw [magnitude, Nat.div_eq_of_lt h, if_pos rfl, Nat.mod_eq_of_lt h]
  · simpa using magnitude_normal (s := 0) h hm

/-- A magnitude determines its pattern. -/
theorem magnitude_injective (p : Nat) : Function.Injective (magnitude p) :=
  Function.LeftInverse.injective (g := fun a => round p a 1) (round_magnitude p)

/-- Values of at most `p + 1` significant bits survive rounding. -/
theorem magnitude_round {p m s : Nat} (hm : m < 2 ^ (p + 1)) :
    magnitude p (round p (m * 2 ^ s) 1) = m * 2 ^ s := by
  rcases Nat.eq_zero_or_pos m with rfl | hpos
  · rw [Nat.zero_mul, round_small (Nat.two_pow_pos _), magnitude_small (Nat.two_pow_pos _)]
  have hne := Nat.ne_of_gt hpos
  have hlog : Nat.log2 m < p + 1 := (Nat.log2_lt hne).mpr hm
  have hself := Nat.log2_self_le hne
  have hlt := Nat.lt_log2_self (n := m)
  -- Normalise: move trailing zeros from the scale into the significand.
  rcases Nat.le_total (p - Nat.log2 m) s with hs | hs
  · have hsplit : m * 2 ^ s = m * 2 ^ (p - Nat.log2 m) * 2 ^ (s - (p - Nat.log2 m)) := by
      rw [Nat.mul_assoc, ← Nat.pow_add, Nat.add_sub_cancel' hs]
    have hlo : 2 ^ p ≤ m * 2 ^ (p - Nat.log2 m) := by
      calc 2 ^ p = 2 ^ Nat.log2 m * 2 ^ (p - Nat.log2 m) := by
            rw [← Nat.pow_add]; congr 1; omega
        _ ≤ _ := Nat.mul_le_mul_right _ hself
    have hhi : m * 2 ^ (p - Nat.log2 m) < 2 ^ (p + 1) := by
      calc m * 2 ^ (p - Nat.log2 m)
          < 2 ^ (Nat.log2 m + 1) * 2 ^ (p - Nat.log2 m) :=
            Nat.mul_lt_mul_of_pos_right hlt (Nat.two_pow_pos _)
        _ = 2 ^ (p + 1) := by rw [← Nat.pow_add]; congr 1; omega
    rw [hsplit, round_normal hlo hhi, magnitude_normal hlo hhi]
  · have hsmall : m * 2 ^ s < 2 ^ (p + 1) := by
      calc m * 2 ^ s ≤ m * 2 ^ (p - Nat.log2 m) :=
            Nat.mul_le_mul_left _ (Nat.pow_le_pow_right (by decide) hs)
        _ < 2 ^ (Nat.log2 m + 1) * 2 ^ (p - Nat.log2 m) :=
            Nat.mul_lt_mul_of_pos_right hlt (Nat.two_pow_pos _)
        _ = 2 ^ (p + 1) := by rw [← Nat.pow_add]; congr 1; omega
    rw [round_small hsmall, magnitude_small hsmall]

/-! ## Rounding keeps the order -/

theorem div_le_roundHalfEven (a b : Nat) : a / b ≤ roundHalfEven a b := by
  unfold roundHalfEven
  split
  · exact Nat.le_refl _
  · split
    · omega
    · split <;> omega

theorem roundHalfEven_le (a b : Nat) : roundHalfEven a b ≤ a / b + 1 := by
  unfold roundHalfEven
  split
  · omega
  · split
    · omega
    · split <;> omega

theorem roundHalfEven_mono {a a' b : Nat} (h : a ≤ a') :
    roundHalfEven a b ≤ roundHalfEven a' b := by
  have hq : a / b ≤ a' / b := Nat.div_le_div_right h
  rcases Nat.lt_or_eq_of_le hq with hlt | heq
  · exact (roundHalfEven_le a b).trans (Nat.le_trans hlt (div_le_roundHalfEven a' b))
  · have hr : a % b ≤ a' % b := by
      have h1 := Nat.div_add_mod a b
      have h2 := Nat.div_add_mod a' b
      rw [heq] at h1
      omega
    unfold roundHalfEven
    rw [heq]
    generalize a' / b = q
    generalize a % b = r at hr
    generalize a' % b = r' at hr
    split_ifs <;> omega

/-- A larger quotient never rounds to a smaller pattern. -/
theorem round_mono {p a a' b : Nat} (h : a ≤ a') : round p a b ≤ round p a' b := by
  simp only [round]
  have hq : a / b ≤ a' / b := Nat.div_le_div_right h
  have hlog : Nat.log2 (a / b) ≤ Nat.log2 (a' / b) := by
    rcases Nat.eq_zero_or_pos (a / b) with h0 | hpos
    · rw [h0]; simp
    · exact (Nat.le_log2 (by omega)).mpr ((Nat.log2_self_le (by omega)).trans hq)
  rcases Nat.lt_or_ge (Nat.log2 (a / b) - p) (Nat.log2 (a' / b) - p) with hlt | hge
  · have hne : a' / b ≠ 0 := by
      intro h0
      rw [h0, Nat.log2_zero] at hlt
      omega
    have hself := Nat.log2_self_le hne
    have hself' := Nat.lt_log2_self (n := a / b)
    generalize hs : Nat.log2 (a / b) - p = s at hlt ⊢
    generalize hs' : Nat.log2 (a' / b) - p = s' at hlt ⊢
    have hhi : a / (b * 2 ^ s) < 2 ^ (p + 1) := by
      rw [← Nat.div_div_eq_div_mul, Nat.div_lt_iff_lt_mul (Nat.two_pow_pos s), ← Nat.pow_add]
      exact Nat.lt_of_lt_of_le hself' (Nat.pow_le_pow_right (by decide) (by omega))
    have hlo : 2 ^ p ≤ a' / (b * 2 ^ s') := by
      rw [← Nat.div_div_eq_div_mul, Nat.le_div_iff_mul_le (Nat.two_pow_pos s'), ← Nat.pow_add]
      exact Nat.le_trans (Nat.pow_le_pow_right (by decide) (by omega)) hself
    have h1 := roundHalfEven_le a (b * 2 ^ s)
    have h2 := div_le_roundHalfEven a' (b * 2 ^ s')
    have hstep : (s + 1) * 2 ^ p ≤ s' * 2 ^ p := Nat.mul_le_mul_right _ hlt
    rw [Nat.pow_succ] at hhi
    rw [Nat.add_mul] at hstep
    omega
  · have hs : Nat.log2 (a / b) - p = Nat.log2 (a' / b) - p := by omega
    rw [hs]
    exact Nat.add_le_add_left (roundHalfEven_mono h) _

theorem magnitude_mono {p a b : Nat} (h : a ≤ b) : magnitude p a ≤ magnitude p b := by
  rcases Nat.eq_or_lt_of_le h with rfl | hlt
  · exact Nat.le_refl _
  · by_contra hgt
    have := round_mono (p := p) (b := 1) (Nat.le_of_lt (Nat.not_le.mp hgt))
    rw [round_magnitude, round_magnitude] at this
    omega

end BinaryFormat
