import Blamejs.Js.Number
import Blamejs.Js.Text

/-!
# Numbers as text

`Number::toString` asks for the fewest decimal digits that read back as the
number and lays them out in one of four shapes depending on where the point
falls. `shortest` is the search and `formatDecimal` the layout.

`readDecimal` reads any of the four shapes back, so a number's text determines
the number: `ofDecimal_read`. Everything that signs or hashes a number through
its text rests on that.
-/

namespace Blamejs.Js

open BinaryFormat

/-- The decimal digits of a natural number. -/
def natText (n : Nat) : JsString := (Nat.toDigits 10 n).map unit

/-- `String(z)` for an exact integer. -/
def intText (z : Int) : JsString :=
  if z < 0 then unit '-' :: natText z.natAbs else natText z.natAbs

/-- The value of a run of digits. -/
def digitsValue (l : JsString) : Nat := l.foldl (fun acc u => 10 * acc + (u.toNat - 48)) 0

def isDigitUnit (u : UInt16) : Bool := 48 ≤ u.toNat && u.toNat ≤ 57

namespace Double

/-- The double nearest to `s * 10 ^ e`. -/
def ofDecimal (neg : Bool) (s : Nat) (e : Int) : Double :=
  if 0 ≤ e then ofRatio neg (s * 10 ^ e.toNat) 1 else ofRatio neg s (10 ^ (-e).toNat)

/-- How many zeros follow the point in `a / b` before the first digit. -/
def leadingZeros : Nat → Nat → Nat → Nat
  | 0, _, _ => 0
  | fuel + 1, a, b => if b ≤ a * 10 then 0 else leadingZeros fuel (a * 10) b + 1

/-- The `n` with `10 ^ (n - 1) ≤ a / b < 10 ^ n`. -/
def decimalOrder (a b : Nat) : Int :=
  if b ≤ a then (Nat.toDigits 10 (a / b)).length else -(leadingZeros 400 a b : Int)

/-- A `k`-digit decimal that reads back as `x`: one of the two neighbours of `x`
on the `k`-digit grid, the nearer one first. -/
def candidate (x : Double) (k : Nat) : Option (Nat × Int) :=
  let e := decimalOrder x.mag unitsPerOne - k
  let a := if 0 ≤ e then x.mag else x.mag * 10 ^ (-e).toNat
  let b := if 0 ≤ e then unitsPerOne * 10 ^ e.toNat else unitsPerOne
  let near := roundHalfEven a b
  let other := if near = a / b then a / b + 1 else a / b
  ([near, other].find? fun s => ofDecimal x.neg s e == x).map fun s => (s, e)

/-- Trailing zeros of the significand moved into the exponent. -/
def stripZeros : Nat → Nat × Int → Nat × Int
  | 0, d => d
  | fuel + 1, (s, e) =>
      if s % 10 = 0 ∧ s ≠ 0 then stripZeros fuel (s / 10, e + 1) else (s, e)

/-- The shortest decimal that reads back as `x`. Seventeen digits are always
enough for a double; the exact expansion behind `getD` only spares this
definition from having to know that. -/
def shortest (x : Double) : Nat × Int :=
  stripZeros 400 (((List.range 17).findSome? fun i => candidate x (i + 1)).getD
    (x.mag * 5 ^ unitOrder, -unitOrder))

end Double

/-- The layout of `Number::toString` for the digits of `s * 10 ^ e`. -/
def formatDecimal (s : Nat) (e : Int) : JsString :=
  let digits := natText s
  let k : Int := digits.length
  let n := k + e
  if k ≤ n ∧ n ≤ 21 then digits ++ List.replicate (n - k).toNat (unit '0')
  else if 0 < n ∧ n ≤ 21 then
    digits.take n.toNat ++ unit '.' :: digits.drop n.toNat
  else if -6 < n ∧ n ≤ 0 then
    unit '0' :: unit '.' :: (List.replicate (-n).toNat (unit '0') ++ digits)
  else
    let tail := unit 'e' :: (if n - 1 < 0 then unit '-' else unit '+') :: natText (n - 1).natAbs
    if digits.length = 1 then digits ++ tail
    else digits.take 1 ++ unit '.' :: (digits.drop 1 ++ tail)

/-- `Number::toString(x)`. -/
def numberText (x : Double) : JsString :=
  if x.isNaN then units "NaN"
  else if x.isZero then units "0"
  else if x.isInfinite then (if x.neg then units "-Infinity" else units "Infinity")
  else
    let text := formatDecimal x.shortest.1 x.shortest.2
    if x.neg then unit '-' :: text else text

/-! ## Reading a layout back -/

/-- The exponent part `e±ddd`, or zero where there is none. -/
def readExponent : JsString → Int
  | _ :: sign :: digits =>
    if sign = unit '-' then -(digitsValue digits : Int) else digitsValue digits
  | _ => 0

/-- A layout of `formatDecimal` read back as a significand and an exponent. -/
def readDecimal (l : JsString) : Nat × Int :=
  let mantissa := l.takeWhile (· ≠ unit 'e')
  let whole := mantissa.takeWhile (· ≠ unit '.')
  let fraction := (mantissa.dropWhile (· ≠ unit '.')).drop 1
  (digitsValue (whole ++ fraction),
    readExponent (l.dropWhile (· ≠ unit 'e')) - fraction.length)

theorem toNat_unit_of_isDigit {c : Char} (h : c.isDigit = true) :
    (unit c).toNat = c.toNat ∧ 48 ≤ c.toNat ∧ c.toNat ≤ 57 := by
  simp only [Char.isDigit, Bool.and_eq_true, decide_eq_true_eq] at h
  have h1 : 48 ≤ c.toNat := h.1
  have h2 : c.toNat ≤ 57 := h.2
  refine ⟨?_, h1, h2⟩
  rw [unit, UInt16.toNat_ofNat']
  omega

theorem isDigitUnit_of_mem_natText {n : Nat} {u : UInt16} (h : u ∈ natText n) :
    isDigitUnit u = true := by
  obtain ⟨c, hc, rfl⟩ := List.mem_map.mp h
  obtain ⟨h1, h2, h3⟩ := toNat_unit_of_isDigit
    (Nat.isDigit_of_mem_toDigits (by decide) (by decide) hc)
  rw [isDigitUnit, h1]
  simp [h2, h3]

theorem natText_ne_nil (n : Nat) : natText n ≠ [] := by
  simp [natText]

theorem natText_length_pos (n : Nat) : 0 < (natText n).length :=
  List.length_pos_iff.mpr (natText_ne_nil n)

theorem digitsValue_map_unit {l : List Char} (h : ∀ c ∈ l, c.isDigit = true) :
    digitsValue (l.map unit) = Nat.ofDigitChars 10 l 0 := by
  rw [digitsValue, Nat.ofDigitChars_eq_foldl, List.foldl_map]
  generalize 0 = acc
  induction l generalizing acc with
  | nil => rfl
  | cons c cs ih =>
      have hc := (toNat_unit_of_isDigit (h c (by simp))).1
      rw [List.foldl_cons, List.foldl_cons, hc]
      exact ih (fun d hd => h d (by simp [hd])) _

@[simp] theorem digitsValue_natText (n : Nat) : digitsValue (natText n) = n := by
  rw [natText, digitsValue_map_unit, Nat.ofDigitChars_toDigits (by decide) (by decide)]
  exact fun c hc => Nat.isDigit_of_mem_toDigits (by decide) (by decide) hc

theorem digitsValue_append_zeros (l : JsString) (j : Nat) :
    digitsValue (l ++ List.replicate j (unit '0')) = digitsValue l * 10 ^ j := by
  have hz : (unit '0').toNat = 48 := by decide
  induction j with
  | zero => simp
  | succ j ih =>
      rw [List.replicate_succ', ← List.append_assoc, digitsValue, List.foldl_append, ← digitsValue,
        ih, List.foldl_cons, List.foldl_nil, hz]
      ring

theorem digitsValue_zeros_append (l : JsString) (j : Nat) :
    digitsValue (List.replicate j (unit '0') ++ l) = digitsValue l := by
  have hz : (unit '0').toNat = 48 := by decide
  induction j with
  | zero => rfl
  | succ j ih =>
      rw [List.replicate_succ, List.cons_append, digitsValue, List.foldl_cons, hz]
      exact ih

theorem ne_of_isDigitUnit {u v : UInt16} (h : isDigitUnit u = true) (hv : isDigitUnit v = false) :
    u ≠ v := fun he => by rw [he, hv] at h; exact absurd h (by decide)

theorem takeWhile_of_digits {l r : JsString} {v : UInt16} (hl : ∀ u ∈ l, isDigitUnit u = true)
    (hv : isDigitUnit v = false) :
    (l ++ r).takeWhile (· ≠ v) = l ++ r.takeWhile (· ≠ v) :=
  List.takeWhile_append_of_pos fun u hu => by simpa using ne_of_isDigitUnit (hl u hu) hv

theorem dropWhile_of_digits {l r : JsString} {v : UInt16} (hl : ∀ u ∈ l, isDigitUnit u = true)
    (hv : isDigitUnit v = false) :
    (l ++ r).dropWhile (· ≠ v) = r.dropWhile (· ≠ v) :=
  List.dropWhile_append_of_pos fun u hu => by simpa using ne_of_isDigitUnit (hl u hu) hv

/-- Where the digits of a mantissa fall around its point does not matter to
what is read, beyond how many of them follow it. -/
theorem readDecimal_point {whole fraction tail : JsString}
    (hw : ∀ u ∈ whole, isDigitUnit u = true) (hf : ∀ u ∈ fraction, isDigitUnit u = true)
    (ht : tail.takeWhile (· ≠ unit 'e') = []) :
    readDecimal (whole ++ unit '.' :: (fraction ++ tail))
      = (digitsValue (whole ++ fraction), readExponent tail - fraction.length) := by
  have he : isDigitUnit (unit 'e') = false := by decide
  have hdot : isDigitUnit (unit '.') = false := by decide
  have hm : (whole ++ unit '.' :: (fraction ++ tail)).takeWhile (· ≠ unit 'e')
      = whole ++ unit '.' :: fraction := by
    rw [takeWhile_of_digits hw he, List.takeWhile_cons_of_pos (by decide),
      takeWhile_of_digits hf he, ht, List.append_nil]
  have hd : (whole ++ unit '.' :: (fraction ++ tail)).dropWhile (· ≠ unit 'e') = tail := by
    have htail := List.takeWhile_append_dropWhile (p := (· ≠ unit 'e')) (l := tail)
    rw [ht, List.nil_append] at htail
    rw [dropWhile_of_digits hw he, List.dropWhile_cons_of_pos (by decide),
      dropWhile_of_digits hf he, htail]
  unfold readDecimal
  simp only [hm, hd]
  rw [takeWhile_of_digits hw hdot, dropWhile_of_digits hw hdot]
  simp

theorem readDecimal_whole {whole tail : JsString} (hw : ∀ u ∈ whole, isDigitUnit u = true)
    (ht : tail.takeWhile (· ≠ unit 'e') = []) :
    readDecimal (whole ++ tail) = (digitsValue whole, readExponent tail) := by
  have he : isDigitUnit (unit 'e') = false := by decide
  have hdot : isDigitUnit (unit '.') = false := by decide
  have htail := List.takeWhile_append_dropWhile (p := (· ≠ unit 'e')) (l := tail)
  rw [ht, List.nil_append] at htail
  have hw1 := takeWhile_of_digits (r := []) hw hdot
  have hw2 := dropWhile_of_digits (r := []) hw hdot
  unfold readDecimal
  rw [takeWhile_of_digits hw he, dropWhile_of_digits hw he, ht, htail, List.append_nil]
  simp only [List.append_nil, List.takeWhile_nil, List.dropWhile_nil] at hw1 hw2
  simp only [hw1, hw2, List.drop_nil, List.append_nil, List.length_nil]
  simp

theorem readExponent_text (z : Int) :
    readExponent (unit 'e' :: (if z < 0 then unit '-' else unit '+') :: natText z.natAbs) = z := by
  have hsign : unit '+' ≠ unit '-' := by decide
  rw [readExponent, digitsValue_natText]
  rcases Int.lt_or_le z 0 with h | h
  · simp only [h, if_true]
    omega
  · simp only [Int.not_lt.mpr h, hsign, if_false]
    omega

/-- What `formatDecimal` writes reads back as the same value: a zero-padded
integer moves its zeros into the significand, the other three shapes are read
back digit for digit. -/
theorem readDecimal_formatDecimal (s : Nat) (e : Int) :
    ∃ j : Nat, readDecimal (formatDecimal s e) = (s * 10 ^ j, e - j) := by
  have hdig : ∀ u ∈ natText s, isDigitUnit u = true := fun u => isDigitUnit_of_mem_natText
  have hz : isDigitUnit (unit '0') = true := by decide
  have hlen := natText_length_pos s
  unfold formatDecimal
  simp only []
  split
  · next h =>
      refine ⟨(↑(natText s).length + e - ↑(natText s).length).toNat, ?_⟩
      have hzeros : ∀ u ∈ natText s ++ List.replicate
          (↑(natText s).length + e - ↑(natText s).length).toNat (unit '0'),
          isDigitUnit u = true := by
        intro u hu
        rcases List.mem_append.mp hu with hu | hu
        · exact hdig u hu
        · rw [List.eq_of_mem_replicate hu, hz]
      have := @readDecimal_whole _ [] hzeros rfl
      rw [List.append_nil] at this
      rw [this, digitsValue_append_zeros, digitsValue_natText]
      simp only [readExponent, Prod.mk.injEq, true_and]
      omega
  · split
    · next h =>
        refine ⟨0, ?_⟩
        have := @readDecimal_point ((natText s).take (↑(natText s).length + e).toNat)
          ((natText s).drop (↑(natText s).length + e).toNat) []
          (fun u hu => hdig u (List.mem_of_mem_take hu))
          (fun u hu => hdig u (List.mem_of_mem_drop hu)) rfl
        rw [List.append_nil, List.take_append_drop, digitsValue_natText] at this
        rw [this]
        simp only [readExponent, List.length_drop, Nat.pow_zero, Nat.mul_one, Prod.mk.injEq,
          true_and]
        omega
    · split
      · next h =>
          refine ⟨0, ?_⟩
          have := @readDecimal_point [unit '0']
            (List.replicate (-(↑(natText s).length + e)).toNat (unit '0') ++ natText s) []
            (by simpa using hz) (by
              intro u hu
              rcases List.mem_append.mp hu with hu | hu
              · rw [List.eq_of_mem_replicate hu, hz]
              · exact hdig u hu) rfl
          rw [List.append_nil, ← List.append_assoc, ← List.replicate_one (a := unit '0'),
            List.replicate_append_replicate, digitsValue_zeros_append, digitsValue_natText] at this
          refine Eq.trans this ?_
          simp only [readExponent, List.length_append, List.length_replicate, Nat.pow_zero,
            Nat.mul_one, Prod.mk.injEq, true_and]
          omega
      · refine ⟨0, ?_⟩
        have htail : ∀ z : Int, List.takeWhile (· ≠ unit 'e')
            (unit 'e' :: (if z < 0 then unit '-' else unit '+') :: natText z.natAbs) = [] :=
          fun z => List.takeWhile_cons_of_neg (by simp)
        split
        · next h1 =>
            rw [readDecimal_whole hdig (htail _), readExponent_text, digitsValue_natText, h1]
            simp
        · next h1 =>
            have := @readDecimal_point ((natText s).take 1) ((natText s).drop 1) _
              (fun u hu => hdig u (List.mem_of_mem_take hu))
              (fun u hu => hdig u (List.mem_of_mem_drop hu))
              (htail (↑(natText s).length + e - 1))
            rw [List.take_append_drop, digitsValue_natText, readExponent_text] at this
            rw [this]
            simp only [List.length_drop, Nat.pow_zero, Nat.mul_one, Prod.mk.injEq, true_and]
            omega

/-! ## The text determines the number -/

namespace Double

/-- Moving a power of ten between the significand and the exponent does not
change what is rounded. -/
theorem ofDecimal_shift (neg : Bool) (s : Nat) (e : Int) (j : Nat) :
    ofDecimal neg (s * 10 ^ j) (e - j) = ofDecimal neg s e := by
  have hp : ∀ n, 0 < 10 ^ n := fun n => Nat.pow_pos (by decide)
  unfold ofDecimal
  split <;> split
  · next h₁ h₂ =>
      refine ofRatio_congr Nat.one_pos Nat.one_pos ?_
      rw [show e.toNat = j + (e - j).toNat by omega, Nat.pow_add, Nat.mul_one, Nat.mul_one,
        Nat.mul_assoc]
  · next h₁ h₂ => exact absurd (show 0 ≤ e by omega) h₂
  · next h₁ h₂ =>
      refine ofRatio_congr (hp _) Nat.one_pos ?_
      rw [Nat.mul_one, Nat.mul_assoc, ← Nat.pow_add]
      congr 2; omega
  · next h₁ h₂ =>
      refine ofRatio_congr (hp _) (hp _) ?_
      rw [Nat.mul_assoc, ← Nat.pow_add]
      congr 2; omega

theorem ofDecimal_stripZeros (neg : Bool) : ∀ (fuel s : Nat) (e : Int),
    ofDecimal neg (stripZeros fuel (s, e)).1 (stripZeros fuel (s, e)).2 = ofDecimal neg s e := by
  intro fuel
  induction fuel with
  | zero => intro s e; rfl
  | succ fuel ih =>
      intro s e
      rw [stripZeros]
      split
      · next h =>
          rw [ih]
          have := ofDecimal_shift neg (s / 10) (e + 1) 1
          rw [Nat.pow_one, Nat.div_mul_cancel (Nat.dvd_of_mod_eq_zero h.1)] at this
          rw [← this]
          congr 1; omega
      · rfl

theorem ofDecimal_candidate {x : Double} {k : Nat} {d : Nat × Int}
    (h : candidate x k = some d) : ofDecimal x.neg d.1 d.2 = x := by
  obtain ⟨s, hs, rfl⟩ := Option.map_eq_some_iff.mp h
  simpa using List.find?_some hs

theorem ofDecimal_exact {x : Double} (h : x.isFinite = true) :
    ofDecimal x.neg (x.mag * 5 ^ unitOrder) (-unitOrder) = x := by
  have ho := unitOrder_eq
  rw [ofDecimal, if_neg (by omega)]
  refine ofRatio_eq h (Nat.pow_pos (by decide)) ?_
  rw [show (-(-(unitOrder : Int))).toNat = unitOrder by omega, unitsPerOne, Nat.mul_assoc,
    ← Nat.mul_pow]

/-- The shortest decimal of a finite double reads back as that double. -/
theorem ofDecimal_shortest {x : Double} (h : x.isFinite = true) :
    ofDecimal x.neg x.shortest.1 x.shortest.2 = x := by
  unfold shortest
  cases hf : (List.range 17).findSome? fun i => candidate x (i + 1) with
  | none =>
      rw [Option.getD_none, ofDecimal_stripZeros, ofDecimal_exact h]
  | some d =>
      obtain ⟨i, -, hi⟩ := List.exists_of_findSome?_eq_some hf
      rw [Option.getD_some, ofDecimal_stripZeros, ofDecimal_candidate hi]

/-- `Number(text)` of a layout is the number it was laid out from. -/
theorem ofDecimal_read {x : Double} (h : x.isFinite = true) :
    ofDecimal x.neg (readDecimal (formatDecimal x.shortest.1 x.shortest.2)).1
      (readDecimal (formatDecimal x.shortest.1 x.shortest.2)).2 = x := by
  obtain ⟨j, hj⟩ := readDecimal_formatDecimal x.shortest.1 x.shortest.2
  rw [hj, ofDecimal_shift, ofDecimal_shortest h]

end Double

theorem formatDecimal_head (s : Nat) (e : Int) :
    ∃ u rest, formatDecimal s e = u :: rest ∧ isDigitUnit u = true := by
  have hdig : ∀ u ∈ natText s, isDigitUnit u = true := fun u => isDigitUnit_of_mem_natText
  obtain ⟨d, ds, hd⟩ := List.exists_cons_of_ne_nil (natText_ne_nil s)
  have hd1 : isDigitUnit d = true := hdig d (by rw [hd]; simp)
  unfold formatDecimal
  simp only [hd]
  split
  · exact ⟨d, _, rfl, hd1⟩
  · split
    · next h =>
        obtain ⟨m, hm⟩ : ∃ m, (((d :: ds).length : Int) + e).toNat = m + 1 :=
          ⟨(((d :: ds).length : Int) + e).toNat - 1, by omega⟩
        rw [hm]
        exact ⟨d, _, rfl, hd1⟩
    · split
      · exact ⟨_, _, rfl, by decide⟩
      · split
        · exact ⟨d, _, rfl, hd1⟩
        · exact ⟨d, _, rfl, hd1⟩

/-- The units `Number::toString` draws the text of a finite number from. -/
def isNumberUnit (u : UInt16) : Bool :=
  isDigitUnit u || u == unit '.' || u == unit 'e' || u == unit '+' || u == unit '-'

theorem isNumberUnit_of_isDigitUnit {u : UInt16} (h : isDigitUnit u = true) :
    isNumberUnit u = true := by
  simp [isNumberUnit, h]

theorem lt_of_isNumberUnit {u : UInt16} (h : isNumberUnit u = true) : u.toNat < 0x80 := by
  simp only [isNumberUnit, isDigitUnit, Bool.or_eq_true, Bool.and_eq_true, decide_eq_true_eq,
    beq_iff_eq] at h
  rcases h with (((h | rfl) | rfl) | rfl) | rfl
  · omega
  all_goals decide

theorem isNumberUnit_formatDecimal {s : Nat} {e : Int} {u : UInt16}
    (hu : u ∈ formatDecimal s e) : isNumberUnit u = true := by
  have hnat : ∀ n u, u ∈ natText n → isNumberUnit u = true :=
    fun n u h => isNumberUnit_of_isDigitUnit (isDigitUnit_of_mem_natText h)
  have hrep : ∀ n u, u ∈ List.replicate n (unit '0') → isNumberUnit u = true := by
    intro n u h
    rw [List.eq_of_mem_replicate h]
    decide
  have htake : ∀ n u, u ∈ (natText s).take n → isNumberUnit u = true :=
    fun n u h => hnat s u (List.mem_of_mem_take h)
  have hdrop : ∀ n u, u ∈ (natText s).drop n → isNumberUnit u = true :=
    fun n u h => hnat s u (List.mem_of_mem_drop h)
  have hc : isNumberUnit (unit '.') = true ∧ isNumberUnit (unit '0') = true ∧
      isNumberUnit (unit 'e') = true ∧ isNumberUnit (unit '+') = true ∧
      isNumberUnit (unit '-') = true := by decide
  unfold formatDecimal at hu
  simp only [] at hu
  repeat' split at hu
  all_goals
    simp only [List.mem_append, List.mem_cons] at hu
    grind

theorem isNumberUnit_numberText {x : Double} (h : x.isFinite = true) {u : UInt16}
    (hu : u ∈ numberText x) : isNumberUnit u = true := by
  have hn := Double.isNaN_of_isFinite h
  have hi := Double.isInfinite_of_isFinite h
  rw [numberText, hn, hi] at hu
  simp only [Bool.false_eq_true, if_false] at hu
  split at hu
  · obtain rfl : u = unit '0' := by simpa [units] using hu
    decide
  · split at hu
    · rcases List.mem_cons.mp hu with rfl | hu
      · decide
      · exact isNumberUnit_formatDecimal hu
    · exact isNumberUnit_formatDecimal hu

theorem numberText_zero {x : Double} (h : x.isZero = true) : numberText x = units "0" := by
  have hn : x.isNaN = false := by
    simp only [Double.isZero, Double.isNaN, decide_eq_true_eq, decide_eq_false_iff_not] at h ⊢
    omega
  rw [numberText, hn, h]
  simp

theorem numberText_finite {x : Double} (h : x.isFinite = true) (hz : x.isZero = false) :
    numberText x = (if x.neg then [unit '-'] else []) ++
      formatDecimal x.shortest.1 x.shortest.2 := by
  have hn := Double.isNaN_of_isFinite h
  have hi := Double.isInfinite_of_isFinite h
  rw [numberText, hn, hi, hz]
  simp only [Bool.false_eq_true, if_false]
  cases x.neg <;> rfl

theorem numberText_ne_nil {x : Double} (h : x.isFinite = true) : numberText x ≠ [] := by
  cases hz : x.isZero with
  | true =>
      rw [numberText_zero hz]
      decide
  | false =>
      obtain ⟨u, rest, hfmt, -⟩ := formatDecimal_head x.shortest.1 x.shortest.2
      rw [numberText_finite h hz, hfmt]
      simp

/-- `Number(text)`, on the texts `numberText` gives finite numbers. -/
def readNumber : JsString → Double
  | [] => Double.zero false
  | u :: rest =>
      if u = unit '-' then Double.ofDecimal true (readDecimal rest).1 (readDecimal rest).2
      else Double.ofDecimal false (readDecimal (u :: rest)).1 (readDecimal (u :: rest)).2

theorem readNumber_numberText {x : Double} (h : x.isFinite = true) (hz : x.isZero = false) :
    readNumber (numberText x) = x := by
  have hx := Double.ofDecimal_read h
  rw [numberText_finite h hz]
  obtain ⟨u, rest, hfmt, hu⟩ := formatDecimal_head x.shortest.1 x.shortest.2
  rw [hfmt] at hx ⊢
  cases hneg : x.neg with
  | true =>
      rw [hneg] at hx
      rw [if_pos rfl, List.singleton_append, readNumber, if_pos rfl, hx]
  | false =>
      rw [hneg] at hx
      have hne : u ≠ unit '-' := ne_of_isDigitUnit hu (by decide)
      rw [if_neg (by decide), List.nil_append, readNumber, if_neg hne, hx]

theorem readNumber_zero_text : readNumber (units "0") = Double.zero false := by
  decide +kernel

/-- Two finite numbers share a text exactly when the language calls them
equal. -/
theorem numberText_eq_iff {x y : Double} (hx : x.isFinite = true) (hy : y.isFinite = true) :
    numberText x = numberText y ↔ x.strictEq y = true := by
  -- A nonzero number's text is never the text of zero: it reads back nonzero.
  have hzero : ∀ {z : Double}, z.isFinite = true → z.isZero = false →
      numberText z ≠ units "0" := by
    intro z hfin hz htext
    have hr := readNumber_numberText hfin hz
    rw [htext, readNumber_zero_text] at hr
    rw [← hr] at hz
    exact absurd hz (by decide)
  rw [Double.strictEq, Double.isNaN_of_isFinite hx]
  cases hzx : x.isZero <;> cases hzy : y.isZero
  · simp only [Bool.and_false, Bool.false_or, Bool.not_false, Bool.true_and, beq_iff_eq]
    constructor
    · intro h
      rw [← readNumber_numberText hx hzx, h, readNumber_numberText hy hzy]
    · rintro rfl
      rfl
  · rw [numberText_zero hzy]
    refine iff_of_false (hzero hx hzx) ?_
    simp only [Bool.and_true, Bool.false_or, Bool.not_false, Bool.true_and, beq_iff_eq]
    rintro rfl
    rw [hzx] at hzy
    exact absurd hzy (by decide)
  · rw [numberText_zero hzx]
    refine iff_of_false (fun h => hzero hy hzy h.symm) ?_
    simp only [Bool.and_false, Bool.false_or, Bool.not_false, Bool.true_and, beq_iff_eq]
    rintro rfl
    rw [hzx] at hzy
    exact absurd hzy (by decide)
  · rw [numberText_zero hzx, numberText_zero hzy]
    simp

end Blamejs.Js
