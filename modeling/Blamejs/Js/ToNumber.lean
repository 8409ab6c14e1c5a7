import Blamejs.Js.NumberText
import Mathlib.Data.List.TakeWhile

/-!
# `Number(text)`

The language's own reading of a string as a number: white space trimmed, the
empty string zero, the radix prefixes, a sign and `Infinity`, and otherwise a
decimal literal or NaN. On the digits `natText` writes it is the number those
digits stand for, rounded when there are too many of them.
-/

namespace Blamejs.Js

/-- White space and line terminators. -/
def isWhite (u : UInt16) : Bool :=
  let n := u.toNat
  (9 ≤ n && n ≤ 13) || n == 0x20 || n == 0xA0 || n == 0x1680 || (0x2000 ≤ n && n ≤ 0x200A) ||
    n == 0x2028 || n == 0x2029 || n == 0x202F || n == 0x205F || n == 0x3000 || n == 0xFEFF

/-- `s.trim()`. -/
def trim (s : JsString) : JsString :=
  ((s.dropWhile isWhite).reverse.dropWhile isWhite).reverse

/-- The value of an alphanumeric unit as a digit. -/
def digitValue (u : UInt16) : Nat :=
  let n := u.toNat
  if 48 ≤ n ∧ n ≤ 57 then n - 48
  else if 97 ≤ n ∧ n ≤ 122 then n - 87
  else if 65 ≤ n ∧ n ≤ 90 then n - 55
  else 36

/-- The digits of a literal with a radix prefix. -/
def readRadix (base : Nat) (digits : JsString) : Double :=
  if digits ≠ [] ∧ digits.all fun u => digitValue u < base then
    Double.ofRatio false (digits.foldl (fun acc u => acc * base + digitValue u) 0) 1
  else Double.nan

/-- An exponent part, or nothing. -/
def readExponentPart : JsString → Option Int
  | [] => some 0
  | e :: rest =>
      if e = unit 'e' ∨ e = unit 'E' then
        let digits := match rest with
          | u :: more => if u = unit '+' ∨ u = unit '-' then more else rest
          | [] => []
        if digits ≠ [] ∧ digits.all isDigitUnit then
          some (if rest.head? = some (unit '-') then -(digitsValue digits : Int)
            else digitsValue digits)
        else none
      else none

/-- A decimal literal without a sign. -/
def readUnsigned (neg : Bool) (s : JsString) : Double :=
  let whole := s.takeWhile isDigitUnit
  let rest := s.dropWhile isDigitUnit
  let fraction := if rest.head? = some (unit '.') then (rest.drop 1).takeWhile isDigitUnit else []
  let tail := if rest.head? = some (unit '.') then (rest.drop 1).dropWhile isDigitUnit else rest
  if whole ++ fraction = [] then Double.nan
  else match readExponentPart tail with
    | some e => Double.ofDecimal neg (digitsValue (whole ++ fraction)) (e - fraction.length)
    | none => Double.nan

/-- `Number(s)` for a string. -/
def stringToNumber (s : JsString) : Double :=
  match trim s with
  | [] => Double.zero false
  | [u] => readUnsigned false [u]
  | u :: v :: rest =>
      if u = unit '0' ∧ (v = unit 'x' ∨ v = unit 'X') then readRadix 16 rest
      else if u = unit '0' ∧ (v = unit 'o' ∨ v = unit 'O') then readRadix 8 rest
      else if u = unit '0' ∧ (v = unit 'b' ∨ v = unit 'B') then readRadix 2 rest
      else if u = unit '+' ∨ u = unit '-' then
        if v :: rest = units "Infinity" then Double.infinity (u = unit '-')
        else readUnsigned (u = unit '-') (v :: rest)
      else if u :: v :: rest = units "Infinity" then Double.infinity false
      else readUnsigned false (u :: v :: rest)

theorem isWhite_of_isDigitUnit {u : UInt16} (h : isDigitUnit u = true) : isWhite u = false := by
  simp only [isDigitUnit, Bool.and_eq_true, decide_eq_true_eq] at h
  have hne : ∀ n, n < 48 ∨ 57 < n → (u.toNat == n) = false := by
    intro n hn
    rw [beq_eq_false_iff_ne]
    omega
  simp only [isWhite, hne 0x20 (by decide), hne 0xA0 (by decide), hne 0x1680 (by decide),
    hne 0x2028 (by decide), hne 0x2029 (by decide), hne 0x202F (by decide),
    hne 0x205F (by decide), hne 0x3000 (by decide), hne 0xFEFF (by decide), Bool.or_false,
    Bool.or_eq_false_iff, Bool.and_eq_false_iff, decide_eq_false_iff_not]
  omega

theorem dropWhile_eq_self {p : UInt16 → Bool} {s : JsString} (h : ∀ u ∈ s, p u = false) :
    s.dropWhile p = s := by
  cases s with
  | nil => rfl
  | cons u s => rw [List.dropWhile_cons_of_neg (by simp [h u List.mem_cons_self])]

theorem trim_eq_self {s : JsString} (h : ∀ u ∈ s, isWhite u = false) : trim s = s := by
  rw [trim, dropWhile_eq_self h, dropWhile_eq_self (fun u hu => h u (List.mem_reverse.mp hu)),
    List.reverse_reverse]

theorem readUnsigned_digits {s : JsString} (hne : s ≠ []) (h : ∀ u ∈ s, isDigitUnit u = true) :
    readUnsigned false s = Double.ofRatio false (digitsValue s) 1 := by
  have htake : s.takeWhile isDigitUnit = s := List.takeWhile_eq_self_iff.mpr h
  have hdrop : s.dropWhile isDigitUnit = [] := List.dropWhile_eq_nil_iff.mpr h
  simp only [readUnsigned, htake, hdrop, List.head?_nil, reduceCtorEq, if_false,
    List.append_nil, if_neg hne, readExponentPart, List.length_nil]
  simp [Double.ofDecimal]

/-- A run of digits reads as the number it writes. -/
theorem stringToNumber_digits {s : JsString} (hne : s ≠ []) (h : ∀ u ∈ s, isDigitUnit u = true) :
    stringToNumber s = Double.ofRatio false (digitsValue s) 1 := by
  rw [stringToNumber, trim_eq_self fun u hu => isWhite_of_isDigitUnit (h u hu)]
  match s, hne, h with
  | [u], hne, h => exact readUnsigned_digits hne h
  | u :: v :: rest, hne, h =>
      have hu := h u (by simp)
      have hv := h v (by simp)
      have hne' : ∀ {w c : UInt16}, isDigitUnit w = true → isDigitUnit c = false → w ≠ c :=
        fun hw hc => ne_of_isDigitUnit hw hc
      simp only [hne' hv (show isDigitUnit (unit 'x') = false by decide),
        hne' hv (show isDigitUnit (unit 'X') = false by decide),
        hne' hv (show isDigitUnit (unit 'o') = false by decide),
        hne' hv (show isDigitUnit (unit 'O') = false by decide),
        hne' hv (show isDigitUnit (unit 'b') = false by decide),
        hne' hv (show isDigitUnit (unit 'B') = false by decide),
        hne' hu (show isDigitUnit (unit '+') = false by decide),
        hne' hu (show isDigitUnit (unit '-') = false by decide), or_self, and_false, if_false]
      rw [if_neg, readUnsigned_digits hne h]
      intro heq
      rw [(List.cons.inj heq).1] at hu
      exact absurd hu (by decide)

theorem stringToNumber_natText (n : Nat) : stringToNumber (natText n) = Double.ofInt n := by
  rw [stringToNumber_digits (natText_ne_nil n) fun u => isDigitUnit_of_mem_natText,
    digitsValue_natText, Double.ofInt]
  have : decide ((n : Int) < 0) = false := by simp
  rw [this, Int.natAbs_natCast]

end Blamejs.Js
