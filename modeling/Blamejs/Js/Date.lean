import Blamejs.Js.NumberText

/-!
# Dates

Time values as the language standard counts them, in milliseconds from 1970-01-01T00:00:00Z
without leap seconds; `none` is NaN. A year is found from a day by its mean length, which is off
by one year at most.
-/

namespace Blamejs.Js.Date

def msPerDay : Int := 86400000

/-- The day a year starts on. -/
def dayFromYear (y : Int) : Int :=
  365 * (y - 1970) + (y - 1969) / 4 - (y - 1901) / 100 + (y - 1601) / 400

def isLeap (y : Int) : Bool := (y % 4 == 0 && y % 100 != 0) || y % 400 == 0

def yearOfDay (day : Int) : Int :=
  let guess := 1970 + day * 400 / 146097
  if day < dayFromYear guess then guess - 1
  else if dayFromYear (guess + 1) ≤ day then guess + 1
  else guess

/-- The days of a year before a month, January being 0. -/
def monthStart (leap : Bool) (month : Int) : Int :=
  let later : Int := if leap && 2 ≤ month then 1 else 0
  ([0, 31, 59, 90, 120, 151, 181, 212, 243, 273, 304, 334].getD month.toNat 0) + later

/-- The month a day of a year is in. -/
def monthOfYearDay (leap : Bool) (yearDay : Int) : Int :=
  (([1, 2, 3, 4, 5, 6, 7, 8, 9, 10, 11].filter fun m => monthStart leap m ≤ yearDay).length : Int)

def timeClip (t : Int) : Option Int := if t.natAbs ≤ 8640000000000000 then some t else none

/-- `MakeDay`: the month may be any integer, the date counts from 1. -/
def makeDay (year month date : Int) : Int :=
  let y := year + month / 12
  dayFromYear y + monthStart (isLeap y) (month % 12) + date - 1

def makeTime (hours minutes seconds ms : Int) : Int :=
  hours * 3600000 + minutes * 60000 + seconds * 1000 + ms

/-- `Date.UTC`: the years 0 to 99 are those of the twentieth century. -/
def utc (year month date hours minutes seconds ms : Int) : Option Int :=
  let fullYear := if 0 ≤ year ∧ year ≤ 99 then 1900 + year else year
  timeClip (makeDay fullYear month date * msPerDay + makeTime hours minutes seconds ms)

def dayOf (t : Int) : Int := t / msPerDay

def timeWithinDay (t : Int) : Int := t % msPerDay

def getUTCFullYear (t : Int) : Int := yearOfDay (dayOf t)

/-- The day of the year, from 0. -/
def dayWithinYear (t : Int) : Int := dayOf t - dayFromYear (getUTCFullYear t)

def getUTCMonth (t : Int) : Int := monthOfYearDay (isLeap (getUTCFullYear t)) (dayWithinYear t)

def getUTCDate (t : Int) : Int :=
  dayWithinYear t - monthStart (isLeap (getUTCFullYear t)) (getUTCMonth t) + 1

/-- Sunday is 0. -/
def getUTCDay (t : Int) : Int := (dayOf t + 4) % 7

def getUTCHours (t : Int) : Int := timeWithinDay t / 3600000

def getUTCMinutes (t : Int) : Int := timeWithinDay t / 60000 % 60

def getUTCSeconds (t : Int) : Int := timeWithinDay t / 1000 % 60

def getUTCMilliseconds (t : Int) : Int := timeWithinDay t % 1000

/-- A date of the given day at the time of day of `t`. -/
def onDay (day t : Int) : Option Int := timeClip (day * msPerDay + timeWithinDay t)

def setUTCDate (t date : Int) : Option Int :=
  onDay (makeDay (getUTCFullYear t) (getUTCMonth t) date) t

def setUTCMonth (t month : Int) : Option Int :=
  onDay (makeDay (getUTCFullYear t) month (getUTCDate t)) t

def setUTCFullYear (t year : Int) : Option Int :=
  onDay (makeDay year (getUTCMonth t) (getUTCDate t)) t

/-- `setUTCHours`, `setUTCMinutes` and `setUTCSeconds` with their first argument alone. -/
def atTime (t hours minutes seconds : Int) : Option Int :=
  timeClip (dayOf t * msPerDay + makeTime hours minutes seconds (getUTCMilliseconds t))

def setUTCHours (t hours : Int) : Option Int :=
  atTime t hours (getUTCMinutes t) (getUTCSeconds t)

def setUTCMinutes (t minutes : Int) : Option Int :=
  atTime t (getUTCHours t) minutes (getUTCSeconds t)

def setUTCSeconds (t seconds : Int) : Option Int :=
  atTime t (getUTCHours t) (getUTCMinutes t) seconds

/-- A number in at least `width` digits. -/
def padded (width : Nat) (n : Int) : JsString :=
  let digits := natText n.toNat
  List.replicate (width - digits.length) (unit '0') ++ digits

/-- The year of `toISOString`: four digits, or a sign and six. -/
def yearText (y : Int) : JsString :=
  if 0 ≤ y ∧ y ≤ 9999 then padded 4 y
  else (if y < 0 then unit '-' else unit '+') :: padded 6 y.natAbs

/-- `toISOString` up to the seconds. -/
def isoSeconds (t : Int) : JsString :=
  yearText (getUTCFullYear t) ++ unit '-' :: padded 2 (getUTCMonth t + 1) ++
    unit '-' :: padded 2 (getUTCDate t) ++ unit 'T' :: padded 2 (getUTCHours t) ++
    unit ':' :: padded 2 (getUTCMinutes t) ++ unit ':' :: padded 2 (getUTCSeconds t)

/-! ## Later days -/

theorem dayFromYear_succ (y : Int) : dayFromYear y + 365 ≤ dayFromYear (y + 1) := by
  unfold dayFromYear
  omega

theorem dayFromYear_add (y : Int) (n : Nat) : dayFromYear y + 365 * n ≤ dayFromYear (y + n) := by
  induction n with
  | zero => simp
  | succ n ih =>
      have hstep := dayFromYear_succ (y + n)
      rw [show y + ((n + 1 : Nat) : Int) = y + n + 1 by omega]
      omega

theorem monthStart_bounds (leap : Bool) {month : Int} (h : 0 ≤ month) (h' : month < 12) :
    0 ≤ monthStart leap month ∧ monthStart leap month ≤ 335 := by
  obtain ⟨n, rfl⟩ := Int.eq_ofNat_of_zero_le h
  have hall : ∀ (leap : Bool) (n : Fin 12),
      0 ≤ monthStart leap (n : Nat) ∧ monthStart leap (n : Nat) ≤ 335 := by decide
  exact hall leap ⟨n, by omega⟩

theorem monthStart_lt (leap : Bool) {m m' : Int} (h : 0 ≤ m) (hlt : m < m') (h' : m' < 12) :
    monthStart leap m < monthStart leap m' := by
  obtain ⟨n, rfl⟩ := Int.eq_ofNat_of_zero_le h
  obtain ⟨n', rfl⟩ := Int.eq_ofNat_of_zero_le (Int.le_trans h (Int.le_of_lt hlt))
  have hall : ∀ (leap : Bool) (m m' : Fin 12), m < m' →
      monthStart leap (m : Nat) < monthStart leap (m' : Nat) := by decide
  exact hall leap ⟨n, by omega⟩ ⟨n', by omega⟩ (Fin.mk_lt_mk.mpr (by omega))

theorem month_bounds (t : Int) : 0 ≤ getUTCMonth t ∧ getUTCMonth t < 12 := by
  unfold getUTCMonth monthOfYearDay
  have hlen := List.length_filter_le (fun m =>
    decide (monthStart (isLeap (getUTCFullYear t)) m ≤ dayWithinYear t))
    [1, 2, 3, 4, 5, 6, 7, 8, 9, 10, 11]
  rw [show [1, 2, 3, 4, 5, 6, 7, 8, 9, 10, (11 : Int)].length = 11 from rfl] at hlen
  omega

theorem makeDay_month (year : Int) {month : Int} (date : Int) (h : 0 ≤ month) (h' : month < 12) :
    makeDay year month date = dayFromYear year + monthStart (isLeap year) month + date - 1 := by
  rw [makeDay, Int.ediv_eq_zero_of_lt h h', Int.emod_eq_of_lt h h', Int.add_zero]

theorem makeDay_date (t n : Int) :
    makeDay (getUTCFullYear t) (getUTCMonth t) (getUTCDate t + n) = dayOf t + n := by
  rw [makeDay_month _ _ (month_bounds t).1 (month_bounds t).2, getUTCDate, dayWithinYear]
  omega

/-- A later month starts later. -/
theorem makeDay_lt_month (year : Int) {month : Int} (date n : Int) (h : 0 ≤ month)
    (h' : month < 12) (hn : 0 < n) : makeDay year month date < makeDay year (month + n) date := by
  rw [makeDay_month _ _ h h', makeDay]
  have hmod := Int.emod_nonneg (month + n) (show (12 : Int) ≠ 0 by decide)
  have hlt := Int.emod_lt_of_pos (month + n) (show (0 : Int) < 12 by decide)
  obtain ⟨k, hk⟩ := Int.eq_ofNat_of_zero_le
    (Int.ediv_nonneg (show 0 ≤ month + n by omega) (show (0 : Int) ≤ 12 by decide))
  rw [hk]
  cases k with
  | zero =>
      have hsame : (month + n) % 12 = month + n := by omega
      rw [hsame, Int.ofNat_zero, Int.add_zero]
      have := monthStart_lt (isLeap year) h (show month < month + n by omega) (by omega)
      omega
  | succ k =>
      have hyear := dayFromYear_add year (k + 1)
      have hbefore := (monthStart_bounds (isLeap year) h h').2
      have hafter := (monthStart_bounds (isLeap (year + ((k + 1 : Nat) : Int))) hmod hlt).1
      omega

theorem makeDay_lt_year (year : Int) {month : Int} (date n : Int) (h : 0 ≤ month)
    (h' : month < 12) (hn : 0 < n) : makeDay year month date < makeDay (year + n) month date := by
  rw [makeDay_month _ _ h h', makeDay_month _ _ h h']
  obtain ⟨k, rfl⟩ := Int.eq_ofNat_of_zero_le (Int.le_of_lt hn)
  have hyear := dayFromYear_add year k
  have hleap : monthStart (isLeap year) month ≤ monthStart (isLeap (year + k)) month + 1 := by
    unfold monthStart
    dsimp only
    split <;> split <;> omega
  omega

theorem timeClip_eq_some {t u : Int} (h : timeClip t = some u) : u = t := by
  unfold timeClip at h
  split at h
  · exact (Option.some.inj h).symm
  · cases h

theorem lt_of_onDay {day t u : Int} (h : onDay day t = some u) (hlt : dayOf t < day) : t < u := by
  rw [timeClip_eq_some h]
  unfold dayOf timeWithinDay msPerDay at *
  omega

theorem lt_setUTCDate {t n u : Int} (h : setUTCDate t (getUTCDate t + n) = some u) (hn : 0 < n) :
    t < u :=
  lt_of_onDay h (by rw [makeDay_date]; omega)

theorem dayOf_eq (t : Int) :
    dayOf t = makeDay (getUTCFullYear t) (getUTCMonth t) (getUTCDate t) := by
  have := makeDay_date t 0
  rwa [Int.add_zero, Int.add_zero, eq_comm] at this

theorem lt_setUTCMonth {t n u : Int} (h : setUTCMonth t (getUTCMonth t + n) = some u)
    (hn : 0 < n) : t < u := by
  refine lt_of_onDay h ?_
  rw [dayOf_eq t]
  exact makeDay_lt_month _ _ _ (month_bounds t).1 (month_bounds t).2 hn

theorem lt_setUTCFullYear {t n u : Int} (h : setUTCFullYear t (getUTCFullYear t + n) = some u)
    (hn : 0 < n) : t < u := by
  refine lt_of_onDay h ?_
  rw [dayOf_eq t]
  exact makeDay_lt_year _ _ _ (month_bounds t).1 (month_bounds t).2 hn

theorem time_eq (t : Int) : t = dayOf t * msPerDay +
    makeTime (getUTCHours t) (getUTCMinutes t) (getUTCSeconds t) (getUTCMilliseconds t) := by
  unfold dayOf makeTime getUTCHours getUTCMinutes getUTCSeconds getUTCMilliseconds timeWithinDay
    msPerDay
  omega

theorem lt_atTime {t hours minutes seconds u : Int} (h : atTime t hours minutes seconds = some u)
    (hlt : makeTime (getUTCHours t) (getUTCMinutes t) (getUTCSeconds t) (getUTCMilliseconds t) <
      makeTime hours minutes seconds (getUTCMilliseconds t)) : t < u := by
  rw [timeClip_eq_some h]
  have := time_eq t
  omega

/-- A year starts before the next one, but for the year 99 of `Date.UTC`. -/
theorem utc_lt_year {year t u : Int} (ht : utc year 0 1 0 0 0 0 = some t)
    (hu : utc (year + 1) 0 1 0 0 0 0 = some u) (hyear : year ≠ 99) : t < u := by
  rw [timeClip_eq_some ht, timeClip_eq_some hu, makeDay_month _ _ (by decide) (by decide),
    makeDay_month _ _ (by decide) (by decide)]
  have hjan : ∀ leap, monthStart leap 0 = 0 := by decide
  rw [hjan, hjan]
  have hlater : ∀ {y y' : Int}, y < y' →
      (dayFromYear y + 0 + 1 - 1) * msPerDay + makeTime 0 0 0 0 <
        (dayFromYear y' + 0 + 1 - 1) * msPerDay + makeTime 0 0 0 0 := by
    intro y y' hy
    obtain ⟨k, hk⟩ := Int.eq_ofNat_of_zero_le (show 0 ≤ y' - y by omega)
    have := dayFromYear_add y k
    rw [show y + (k : Int) = y' by omega] at this
    unfold msPerDay
    omega
  refine hlater ?_
  split <;> split <;> omega

theorem utc_lt_month {year month t u : Int} (ht : utc year month 1 0 0 0 0 = some t)
    (hu : utc year (month + 1) 1 0 0 0 0 = some u) (h : 0 ≤ month) (h' : month < 12) : t < u := by
  rw [timeClip_eq_some ht, timeClip_eq_some hu]
  have := makeDay_lt_month (if 0 ≤ year ∧ year ≤ 99 then 1900 + year else year) 1 1 h h' (by decide)
  unfold msPerDay
  omega

end Blamejs.Js.Date
