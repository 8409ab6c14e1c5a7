import Blamejs.Js.Date
import Mathlib.Tactic.Zify
import Mathlib.Tactic.Positivity

/-!
# Dates as text

A later day has a later text: the year, the month and the date are written with as many digits
each time, and grow with the day.
-/

namespace Blamejs.Js.Date

open Blamejs.Js

/-! ## Days -/

theorem yearOfDay_bounds (day : Int) :
    dayFromYear (yearOfDay day) ≤ day ∧ day < dayFromYear (yearOfDay day + 1) := by
  have hlow : dayFromYear (1970 + day * 400 / 146097 - 1) ≤ day := by
    unfold dayFromYear
    omega
  have hhigh : day < dayFromYear (1970 + day * 400 / 146097 + 1 + 1) := by
    unfold dayFromYear
    omega
  unfold yearOfDay
  dsimp only
  split
  · next hlt => exact ⟨hlow, by rw [Int.sub_add_cancel]; exact hlt⟩
  · next hge =>
      split
      · next hnext => exact ⟨hnext, hhigh⟩
      · next hnext => exact ⟨Int.not_lt.mp hge, Int.not_le.mp hnext⟩

theorem yearOfDay_mono {day day' : Int} (h : day ≤ day') : yearOfDay day ≤ yearOfDay day' := by
  by_contra hlt
  obtain ⟨n, hn⟩ := Int.eq_ofNat_of_zero_le (a := yearOfDay day - (yearOfDay day' + 1)) (by omega)
  have hstart := dayFromYear_add (yearOfDay day' + 1) n
  have hyear : yearOfDay day' + 1 + n = yearOfDay day := by omega
  rw [hyear] at hstart
  have := (yearOfDay_bounds day).1
  have := (yearOfDay_bounds day').2
  omega

theorem monthOfYearDay_mono (leap : Bool) {yearDay yearDay' : Int} (h : yearDay ≤ yearDay') :
    monthOfYearDay leap yearDay ≤ monthOfYearDay leap yearDay' := by
  have hlen := (List.monotone_filter_right [(1 : Int), 2, 3, 4, 5, 6, 7, 8, 9, 10, 11]
    (p := fun m => decide (monthStart leap m ≤ yearDay))
    (q := fun m => decide (monthStart leap m ≤ yearDay'))
    fun m hm => decide_eq_true ((of_decide_eq_true hm).trans h)).length_le
  unfold monthOfYearDay
  omega

theorem dayWithinYear_bounds (t : Int) : 0 ≤ dayWithinYear t ∧ dayWithinYear t < 366 := by
  have hbounds := yearOfDay_bounds (dayOf t)
  have hnext : dayFromYear (getUTCFullYear t + 1) ≤ dayFromYear (getUTCFullYear t) + 366 := by
    unfold dayFromYear
    omega
  unfold dayWithinYear
  unfold getUTCFullYear at *
  omega

/-- The month of a day is the last one that has begun. -/
theorem monthOfYearDay_eq (leap : Bool) {d : Int} {m : Nat} (hm : m < 12)
    (h : monthStart leap m ≤ d) (h' : m = 11 ∨ d < monthStart leap (m + 1)) :
    monthOfYearDay leap d = m := by
  have hbegun : ∀ k ∈ [(1 : Int), 2, 3, 4, 5, 6, 7, 8, 9, 10, 11],
      decide (monthStart leap k ≤ d) = decide (k ≤ (m : Int)) := by
    intro k hk
    have hrange : ∀ k ∈ [(1 : Int), 2, 3, 4, 5, 6, 7, 8, 9, 10, 11], 0 ≤ k ∧ k < 12 := by decide
    obtain ⟨hpos, hlt⟩ := hrange k hk
    refine decide_eq_decide.mpr ⟨fun hstart => ?_, fun hle => ?_⟩
    · by_contra hle
      rcases Int.lt_or_eq_of_le (show (m : Int) + 1 ≤ k by omega) with hnext | rfl
      · have := monthStart_lt leap (by omega) hnext hlt
        omega
      · omega
    · rcases Int.lt_or_eq_of_le hle with hbefore | rfl
      · have := monthStart_lt leap hpos hbefore (by omega)
        omega
      · exact h
  have hcount : ∀ m : Fin 12, ([(1 : Int), 2, 3, 4, 5, 6, 7, 8, 9, 10, 11].filter
      fun k => decide (k ≤ ((m : Nat) : Int))).length = m := by decide
  unfold monthOfYearDay
  rw [List.filter_congr hbegun]
  exact congrArg Nat.cast (hcount ⟨m, hm⟩)

theorem exists_month (leap : Bool) {d : Int} (h : 0 ≤ d) :
    ∃ m : Nat, m < 12 ∧ monthStart leap m ≤ d ∧ (m = 11 ∨ d < monthStart leap (m + 1)) := by
  by_contra hnone
  have hbegun : ∀ m : Nat, m < 12 → monthStart leap m ≤ d := by
    intro m
    induction m with
    | zero =>
        have hjan : ∀ leap, monthStart leap (0 : Nat) = 0 := by decide
        intro _
        rw [hjan]
        exact h
    | succ m ih =>
        intro hm
        by_contra hlt
        exact hnone ⟨m, by omega, ih (by omega), .inr (by push_cast at hlt; omega)⟩
  exact hnone ⟨11, by omega, hbegun 11 (by omega), .inl rfl⟩

/-- Where a day of a year is in its month. -/
theorem dayWithinYear_month (t : Int) :
    monthStart (isLeap (getUTCFullYear t)) (getUTCMonth t) ≤ dayWithinYear t ∧
      dayWithinYear t < monthStart (isLeap (getUTCFullYear t)) (getUTCMonth t) + 32 ∧
      (getUTCMonth t = 11 ∨
        dayWithinYear t < monthStart (isLeap (getUTCFullYear t)) (getUTCMonth t + 1)) := by
  obtain ⟨hlow, hhigh⟩ := dayWithinYear_bounds t
  obtain ⟨m, hm, hbegun, hnext⟩ := exists_month (isLeap (getUTCFullYear t)) hlow
  have hmonth : getUTCMonth t = m := monthOfYearDay_eq _ hm hbegun hnext
  have hlast : ∀ leap, 334 ≤ monthStart leap (11 : Nat) := by decide
  have hlong : ∀ (leap : Bool) (m : Fin 11),
      monthStart leap ((m : Nat) + 1) ≤ monthStart leap (m : Nat) + 31 := by decide
  rw [hmonth]
  refine ⟨hbegun, ?_, ?_⟩
  · by_cases hdec : m = 11
    · subst hdec
      have := hlast (isLeap (getUTCFullYear t))
      omega
    · have : monthStart (isLeap (getUTCFullYear t)) (m + 1) ≤
          monthStart (isLeap (getUTCFullYear t)) m + 31 := hlong _ ⟨m, by omega⟩
      omega
  · rcases hnext with rfl | hnext
    · exact .inl rfl
    · exact .inr hnext

theorem date_bounds (t : Int) : 0 ≤ getUTCDate t ∧ getUTCDate t < 100 := by
  have := dayWithinYear_month t
  unfold getUTCDate
  omega

/-- A day is in its month. -/
theorem dayOf_month (t : Int) :
    makeDay (getUTCFullYear t) (getUTCMonth t) 1 ≤ dayOf t ∧
      dayOf t < makeDay (getUTCFullYear t) (getUTCMonth t + 1) 1 := by
  obtain ⟨hlow, -, hhigh⟩ := dayWithinYear_month t
  have hmonth := month_bounds t
  have hyear := (yearOfDay_bounds (dayOf t)).2
  rw [makeDay_month _ _ hmonth.1 hmonth.2]
  have hday : dayOf t = dayFromYear (getUTCFullYear t) + dayWithinYear t := by
    unfold dayWithinYear
    omega
  refine ⟨by omega, ?_⟩
  by_cases hlast : getUTCMonth t = 11
  · have hjan : ∀ leap, monthStart leap 0 = 0 := by decide
    have hnext : makeDay (getUTCFullYear t) (11 + 1) 1 = dayFromYear (getUTCFullYear t + 1) +
        monthStart (isLeap (getUTCFullYear t + 1)) 0 + 1 - 1 := rfl
    rw [hlast, hnext, hjan]
    unfold getUTCFullYear
    omega
  · have hlt := hhigh.resolve_left hlast
    rw [makeDay_month _ _ (by omega) (by omega)]
    omega

/-- The months counted through, years and all. -/
theorem makeDay_index (year month date : Int) :
    makeDay year month date = makeDay 0 (12 * year + month) date := by
  unfold makeDay
  have hyear : 0 + (12 * year + month) / 12 = year + month / 12 := by omega
  have hmonth : (12 * year + month) % 12 = month % 12 := by omega
  rw [hyear, hmonth]

theorem makeDay_lt_succ (i : Int) : makeDay 0 i 1 < makeDay 0 (i + 1) 1 := by
  have hsplit : 12 * (i / 12) + i % 12 = i := by omega
  have hlt := @makeDay_lt_month (i / 12) (i % 12) 1 1 (by omega) (by omega) (by decide)
  rw [makeDay_index, makeDay_index (i / 12) (i % 12 + 1)] at hlt
  rw [hsplit, ← Int.add_assoc, hsplit] at hlt
  exact hlt

/-- A later day has a later year, or a later month of it, or a later date in this. -/
theorem fields_of_lt {t u : Int} (h : dayOf t < dayOf u) :
    getUTCFullYear t < getUTCFullYear u ∨ getUTCFullYear t = getUTCFullYear u ∧
      (getUTCMonth t < getUTCMonth u ∨
        getUTCMonth t = getUTCMonth u ∧ getUTCDate t < getUTCDate u) := by
  have hyear : getUTCFullYear t ≤ getUTCFullYear u := yearOfDay_mono (Int.le_of_lt h)
  rcases Int.lt_or_eq_of_le hyear with hlt | heq
  · exact .inl hlt
  · have hday : dayWithinYear t < dayWithinYear u := by
      unfold dayWithinYear
      rw [heq]
      omega
    have hmonth : getUTCMonth t ≤ getUTCMonth u := by
      unfold getUTCMonth
      rw [heq]
      exact monthOfYearDay_mono _ (Int.le_of_lt hday)
    rcases Int.lt_or_eq_of_le hmonth with hlt | hsame
    · exact .inr ⟨heq, .inl hlt⟩
    · refine .inr ⟨heq, .inr ⟨hsame, ?_⟩⟩
      unfold getUTCDate
      rw [heq, hsame]
      omega

/-! ## Digits -/

theorem digitsValue_cons (u : UInt16) (l : JsString) :
    digitsValue (u :: l) = (u.toNat - 48) * 10 ^ l.length + digitsValue l := by
  have hacc (acc : Nat) (l : JsString) : l.foldl (fun acc u => 10 * acc + (u.toNat - 48)) acc =
      acc * 10 ^ l.length + digitsValue l := by
    induction l generalizing acc with
    | nil => simp [digitsValue]
    | cons v l ih =>
        have hv : digitsValue (v :: l) =
            (10 * 0 + (v.toNat - 48)) * 10 ^ l.length + digitsValue l := by
          rw [← ih, digitsValue, List.foldl_cons]
        rw [List.foldl_cons, ih, hv, List.length_cons, pow_succ]
        ring
  rw [digitsValue, List.foldl_cons, hacc]
  simp

theorem digitsValue_lt {l : JsString} (h : ∀ u ∈ l, isDigitUnit u = true) :
    digitsValue l < 10 ^ l.length := by
  induction l with
  | nil => decide
  | cons u l ih =>
      have hl := ih fun v hv => h v (.tail _ hv)
      have hu := h u (.head _)
      rw [isDigitUnit] at hu
      simp only [Bool.and_eq_true, decide_eq_true_eq] at hu
      rw [digitsValue_cons, List.length_cons, pow_succ]
      have hdigit : u.toNat - 48 ≤ 9 := by omega
      have := Nat.mul_le_mul_right (10 ^ l.length) hdigit
      omega

/-- Digits of one length are in the order of their values. -/
theorem digits_of_lt {a b u v : JsString} (hlen : a.length = b.length)
    (ha : ∀ c ∈ a, isDigitUnit c = true) (hb : ∀ c ∈ b, isDigitUnit c = true)
    (h : a ++ u < b ++ v) :
    digitsValue a < digitsValue b ∨ digitsValue a = digitsValue b ∧ u < v := by
  induction a generalizing b with
  | nil =>
      rw [List.length_nil, eq_comm, List.length_eq_zero_iff] at hlen
      subst hlen
      exact .inr ⟨rfl, h⟩
  | cons x a ih =>
      cases b with
      | nil => cases hlen
      | cons y b =>
          have hlen' : a.length = b.length := Nat.succ.inj hlen
          rw [List.cons_append, List.cons_append, List.cons_lt_cons_iff] at h
          rw [digitsValue_cons, digitsValue_cons, hlen']
          rcases h with hxy | ⟨rfl, h⟩
          · have hvalue := digitsValue_lt fun c hc => ha c (.tail _ hc)
            have hx := ha x (.head _)
            rw [isDigitUnit] at hx
            simp only [Bool.and_eq_true, decide_eq_true_eq] at hx
            have hstep : x.toNat - 48 + 1 ≤ y.toNat - 48 := by
              have := UInt16.lt_iff_toNat_lt.mp hxy
              omega
            have hmul := Nat.mul_le_mul_right (10 ^ b.length) hstep
            rw [Nat.add_mul, Nat.one_mul] at hmul
            rw [hlen'] at hvalue
            omega
          · rcases ih hlen' (fun c hc => ha c (.tail _ hc)) (fun c hc => hb c (.tail _ hc)) h with
              hlt | ⟨heq, hlt⟩
            · exact .inl (by omega)
            · exact .inr ⟨by omega, hlt⟩

theorem isDigitUnit_of_mem_padded {width : Nat} {n : Int} {u : UInt16} (h : u ∈ padded width n) :
    isDigitUnit u = true := by
  rw [padded] at h
  rcases List.mem_append.mp h with hzero | hdigit
  · rw [List.eq_of_mem_replicate hzero]
    decide
  · exact isDigitUnit_of_mem_natText hdigit

theorem digitsValue_padded (width : Nat) (n : Int) : digitsValue (padded width n) = n.toNat := by
  rw [padded, digitsValue_zeros_append, digitsValue_natText]

theorem length_padded {width : Nat} {n : Int} (hwidth : 0 < width) (h : n < 10 ^ width) :
    (padded width n).length = width := by
  have hlen : (natText n.toNat).length ≤ width := by
    rw [natText, List.length_map, Nat.length_toDigits_le_iff (by decide) hwidth]
    zify
    rw [Int.toNat_eq_max]
    exact max_lt h (by positivity)
  rw [padded, List.length_append, List.length_replicate]
  omega

/-- Numbers of one width are in the order of their texts. -/
theorem padded_of_lt {width : Nat} {n m : Int} {u v : JsString} (hwidth : 0 < width)
    (hn : 0 ≤ n) (hm : 0 ≤ m) (hn' : n < 10 ^ width) (hm' : m < 10 ^ width)
    (h : padded width n ++ u < padded width m ++ v) : n < m ∨ n = m ∧ u < v := by
  have hlen := (length_padded hwidth hn').trans (length_padded hwidth hm').symm
  have hlt := digits_of_lt hlen (fun _ => isDigitUnit_of_mem_padded)
    (fun _ => isDigitUnit_of_mem_padded) h
  rw [digitsValue_padded, digitsValue_padded] at hlt
  rcases hlt with hlt | ⟨heq, hlt⟩
  · exact .inl (by omega)
  · exact .inr ⟨by omega, hlt⟩

/-- The text of a day. -/
def dayText (t : Int) (more : JsString) : JsString :=
  yearText (getUTCFullYear t) ++ unit '-' :: (padded 2 (getUTCMonth t + 1) ++
    unit '-' :: (padded 2 (getUTCDate t) ++ more))

/-- An earlier text is that of no later day. -/
theorem dayOf_le_of_lt {t u : Int} {more more' : JsString} (ht : 0 ≤ getUTCFullYear t)
    (ht' : getUTCFullYear t ≤ 9999) (hu : getUTCFullYear u ≤ 9999)
    (h : dayText t more < dayText u more') : dayOf t ≤ dayOf u := by
  by_contra hlt
  have hfields := fields_of_lt (Int.not_le.mp hlt)
  have hmonth := month_bounds t
  have hmonth' := month_bounds u
  have hdate := date_bounds t
  have hdate' := date_bounds u
  have hdash {a b : JsString} (h : unit '-' :: a < unit '-' :: b) : a < b := by
    rcases List.cons_lt_cons_iff.mp h with h | h
    · exact absurd h (by decide)
    · exact h.2
  rw [dayText, dayText, yearText, yearText, if_pos ⟨ht, ht'⟩] at h
  by_cases hyear : 0 ≤ getUTCFullYear u
  · rw [if_pos ⟨hyear, hu⟩] at h
    rcases padded_of_lt (by decide) ht hyear (by omega) (by omega) h with hlt | ⟨heq, h⟩
    · omega
    · rcases padded_of_lt (by decide) (by omega) (by omega) (by omega) (by omega) (hdash h) with
        hlt | ⟨heq', h⟩
      · omega
      · rcases padded_of_lt (by decide) (by omega) (by omega) (by omega) (by omega) (hdash h) with
          hlt | ⟨heq'', -⟩
        · omega
        · omega
  · rw [if_neg fun h => hyear h.1, if_pos (by omega)] at h
    have hlen := @length_padded 4 (getUTCFullYear t) (by decide) (by omega)
    cases hp : padded 4 (getUTCFullYear t) with
    | nil => rw [hp] at hlen; cases hlen
    | cons x l =>
        have hx := isDigitUnit_of_mem_padded (hp ▸ List.mem_cons_self)
        rw [isDigitUnit] at hx
        simp only [Bool.and_eq_true, decide_eq_true_eq] at hx
        rw [hp, List.cons_append, List.cons_append, List.cons_lt_cons_iff] at h
        have hle : x.toNat ≤ (unit '-').toNat := by
          rcases h with h | h
          · exact Nat.le_of_lt (UInt16.lt_iff_toNat_lt.mp h)
          · rw [h.1]
        have hdashValue : (unit '-').toNat = 45 := by decide
        omega

end Blamejs.Js.Date
