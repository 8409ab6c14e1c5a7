import Blamejs.Js.Date
import Blamejs.Js.LowerCase
import Blamejs.Lib.Checked

/-!
# Recurring events (`lib/calendar.js`)

An event that `validate` accepts, so a rule's frequency is one of the seven, with its dates
beside what `Date.parse` reads in them and its numbers as `parseInt` reads them, `none` being
NaN. Both loops walk the instants of a rule and push those that count; here they push instants,
whose texts are taken where the rules are united. Days after the last that a date can name have
no candidates.
-/

namespace Blamejs.Calendar

open Blamejs.Js Blamejs.Js.Date

inductive Frequency where
  | yearly | monthly | weekly | daily | hourly | minutely | secondly
deriving DecidableEq

/-- A date as it is written, and the time value `Date.parse` gives for it. -/
structure DateText where
  text : JsString
  ms : Option Int

structure Rule where
  frequency : Frequency
  interval : Option (Option Int)
  count : Option Int
  untilDate : Option DateText
  byDay : List JsString
  byMonth : List (Option Int)
  byMonthDay : List (Option Int)
  byWeekNo : List (Option Int)
  byYearDay : List (Option Int)
  byHour : List (Option Int)
  byMinute : List (Option Int)
  bySecond : List (Option Int)
  bySetPos : List (Option Int)

structure Event where
  start : Option DateText
  recurrenceRules : List Rule

structure Opts where
  fromDate : Option DateText
  toDate : Option DateText
  max : Option Nat

structure Refusal where
  code : String
  text : JsString

def maxExpandInstances : Nat := 4096

def maxExpandSpanMs : Int := 10 * 365 * 24 * 60 * 60 * 1000

def msToIsoZ (t : Int) : JsString := isoSeconds t ++ units "Z"

def localToUtc (localStr : JsString) : JsString :=
  if localStr.getLast? = some (unit 'Z') then localStr else localStr ++ units "Z"

/-! ## What a rule asks of an instant -/

def dayCodes : List (JsString × Int) :=
  [(units "su", 0), (units "mo", 1), (units "tu", 2), (units "we", 3), (units "th", 4),
    (units "fr", 5), (units "sa", 6)]

/-- The entries within bounds; none when the rule has no entries at all. -/
def boundedSet (entries : List (Option Int)) (ok : Int → Bool) : Option (List Int) :=
  if entries = [] then none else some (entries.reduceOption.filter ok)

/-- As `boundedSet`, but no restriction when no entry is within bounds. -/
def bySet (entries : List (Option Int)) (lo hi : Int) : Option (List Int) :=
  match boundedSet entries fun n => lo ≤ n ∧ n ≤ hi with
  | some [] => none
  | set => set

def byDaySet (entries : List JsString) : Option (List Int) :=
  if entries = [] then none
  else some (entries.filterMap fun e => dayCodes.lookup (e.map smallUnit))

/-- The week and its year; `none` when either is NaN. -/
def isoWeekParts (d : Int) : Option (Int × Int) := do
  let midnight ← utc (getUTCFullYear d) (getUTCMonth d) (getUTCDate d) 0 0 0 0
  let dayOfWeek := if getUTCDay midnight = 0 then 7 else getUTCDay midnight
  let thursday ← setUTCDate midnight (getUTCDate midnight + 4 - dayOfWeek)
  let yearStart ← utc (getUTCFullYear thursday) 0 1 0 0 0 0
  some (((thursday - yearStart) / msPerDay + 1 + 6) / 7, getUTCFullYear thursday)

def lastWeekOf (d : Int) : Option Int := do
  let late ← utc (getUTCFullYear d) 11 28 0 0 0 0
  (isoWeekParts late).map Prod.fst

def yearDayOf (d : Int) : Option Int := do
  let startOfYear ← utc (getUTCFullYear d) 0 1 0 0 0 0
  some ((d - startOfYear) / msPerDay + 1)

def daysInYear (year : Int) : Int := if isLeap year then 366 else 365

def inWeeks (set : List Int) (d : Int) : Bool :=
  match isoWeekParts d with
  | none => false
  | some (week, year) =>
      year = getUTCFullYear d &&
        (week ∈ set || (lastWeekOf d).any fun last => -(last - week + 1) ∈ set)

def inYearDays (set : List Int) (d : Int) : Bool :=
  (yearDayOf d).any fun yd => yd ∈ set || -(daysInYear (getUTCFullYear d) - yd + 1) ∈ set

/-- A restriction that is absent lets everything through. -/
def allowed (set : Option (List Int)) (test : List Int → Bool) : Bool := set.all test

def matchesBy (rule : Rule) (t : Int) : Bool :=
  allowed (byDaySet rule.byDay) (getUTCDay t ∈ ·) &&
  allowed (boundedSet rule.byMonth fun n => 1 ≤ n ∧ n ≤ 12) (getUTCMonth t + 1 ∈ ·) &&
  allowed (boundedSet rule.byMonthDay fun n => n ≠ 0 ∧ -31 ≤ n ∧ n ≤ 31) (getUTCDate t ∈ ·) &&
  allowed (boundedSet rule.byWeekNo fun n => n ≠ 0 ∧ -53 ≤ n ∧ n ≤ 53) (inWeeks · t) &&
  allowed (boundedSet rule.byYearDay fun n => n ≠ 0 ∧ -366 ≤ n ∧ n ≤ 366) (inYearDays · t) &&
  allowed (bySet rule.byHour 0 23) (getUTCHours t ∈ ·) &&
  allowed (bySet rule.byMinute 0 59) (getUTCMinutes t ∈ ·) &&
  allowed (bySet rule.bySecond 0 60) (getUTCSeconds t ∈ ·)

/-! ## Bounds -/

/-- `Math.max(1, parseInt(rule.interval || 1, 10))`. -/
def intervalOf (rule : Rule) : Option Int := (rule.interval.getD (some 1)).map (max 1)

/-- What the loops compare with, in both of them. -/
structure Bounds where
  startMs : Int
  fromDate : Option DateText
  toDate : Option DateText
  maxCount : Nat

/-- `t > untilMs`: a date that cannot be read ends nothing. -/
def pastUntil (rule : Rule) (t : Int) : Bool := (rule.untilDate.bind DateText.ms).any (· < t)

def pastTo (b : Bounds) (t : Int) : Bool := (b.toDate.bind DateText.ms).any (· < t)

/-- `fromMs === null || t >= fromMs`: nothing is at or after a date that cannot be read. -/
def fromReached (b : Bounds) (t : Int) : Bool := b.fromDate.all fun d => d.ms.any (· ≤ t)

/-- `out.length < count && out.length < maxCount`. -/
def hasRoom (b : Bounds) (rule : Rule) (length : Nat) : Bool :=
  rule.count.all ((length : Int) < ·) && length < b.maxCount

structure Expanded where
  instances : List Int
  stepBudgetRemaining : Nat

/-! ## The loop without positions -/

def advance (t : Int) (freq : Frequency) (interval : Int) : Option Int :=
  match freq with
  | .daily => setUTCDate t (getUTCDate t + interval)
  | .weekly => setUTCDate t (getUTCDate t + 7 * interval)
  | .monthly => setUTCMonth t (getUTCMonth t + interval)
  | .yearly => setUTCFullYear t (getUTCFullYear t + interval)
  | .hourly => setUTCHours t (getUTCHours t + interval)
  | .minutely => setUTCMinutes t (getUTCMinutes t + interval)
  | .secondly => setUTCSeconds t (getUTCSeconds t + interval)

/-- The instant after `t`, `none` when it is not finite. -/
def next (rule : Rule) (t : Int) : Option Int :=
  (intervalOf rule).bind (advance t rule.frequency)

def expandLoop (b : Bounds) (rule : Rule) : Nat → Int → List Int → Expanded
  | 0, _, out => ⟨out, 0⟩
  | remaining + 1, t, out =>
      if hasRoom b rule out.length then
        if pastUntil rule t || pastTo b t then ⟨out, remaining⟩
        else
          let out := if matchesBy rule t && fromReached b t then out ++ [t] else out
          match next rule t with
          | none => ⟨out, remaining⟩
          | some t' => expandLoop b rule remaining t' out
      else ⟨out, remaining + 1⟩

/-! ## The loop with positions -/

/-- The first and the last millisecond of a period; `none` for a frequency without periods, or
when either is not finite. -/
def periodForIndex (freq : Frequency) (startMs offset : Int) : Option (Int × Int) :=
  match freq with
  | .yearly => do
      let year := getUTCFullYear startMs + offset
      let ys ← utc year 0 1 0 0 0 0
      let ye ← utc (year + 1) 0 1 0 0 0 0
      some (ys, ye - 1)
  | .monthly => do
      let bm := getUTCMonth startMs + offset
      let year := getUTCFullYear startMs + bm / 12
      let ms ← utc year (bm % 12) 1 0 0 0 0
      let me ← utc year (bm % 12 + 1) 1 0 0 0 0
      some (ms, me - 1)
  | .weekly => do
      let anchor ← utc (getUTCFullYear startMs) (getUTCMonth startMs) (getUTCDate startMs) 0 0 0 0
      let dow := if getUTCDay anchor = 0 then 7 else getUTCDay anchor
      let ws ← setUTCDate anchor (getUTCDate anchor - (dow - 1) + offset * 7)
      some (ws, ws + 7 * msPerDay - 1)
  | _ => none

/-- The time of day of the start on another day. -/
def withTimeOfDay (startMs dayMs : Int) : Option Int :=
  utc (getUTCFullYear dayMs) (getUTCMonth dayMs) (getUTCDate dayMs) (getUTCHours startMs)
    (getUTCMinutes startMs) (getUTCSeconds startMs) (getUTCMilliseconds startMs)

/-- The days of a period, each against the budget: the candidates and the budget left. -/
def candidatesLoop (rule : Rule) (startMs endMs : Int) :
    Nat → Int → Nat → List Int → List Int × Nat
  | 0, _, remaining, candidates => (candidates, remaining)
  | safety + 1, dayMs, remaining, candidates =>
      if dayMs ≤ endMs ∧ 0 < remaining then
        let candidates := match withTimeOfDay startMs dayMs with
          | some c => if matchesBy rule c then candidates ++ [c] else candidates
          | none => candidates
        candidatesLoop rule startMs endMs safety (dayMs + msPerDay) (remaining - 1) candidates
      else (candidates, remaining)

/-- The positions that are integers other than 0 and at most 366 either way. -/
def bySetPosArray (raw : List (Option Int)) : Option (List Int) :=
  bySet (raw.filter (· ≠ some 0)) (-366) 366

/-- The candidates at the positions, each once and in order. -/
def pick (candidates positions : List Int) : List Int :=
  let sorted := candidates.mergeSort
  let picked := positions.filterMap fun pos =>
    let idx : Int := if 0 < pos then pos - 1 else sorted.length + pos
    if 0 ≤ idx then sorted[idx.toNat]? else none
  picked.dedup.mergeSort

/-- The picked instants of one period, in order: what is pushed, and whether the walk is over. -/
def pushPicked (b : Bounds) (rule : Rule) : List Int → List Int → List Int × Bool
  | [], out => (out, false)
  | t :: ts, out =>
      if t < b.startMs then pushPicked b rule ts out
      else if pastUntil rule t || pastTo b t then (out, true)
      else if !fromReached b t then pushPicked b rule ts out
      else if hasRoom b rule out.length then pushPicked b rule ts (out ++ [t])
      else (out, false)

/-- The fuel counts periods. -/
def periodsLoop (b : Bounds) (rule : Rule) (positions : List Int) :
    Nat → Nat → Nat → List Int → Expanded
  | 0, _, _, out => ⟨out, 0⟩
  | fuel + 1, periodIndex, remaining, out =>
      if hasRoom b rule out.length ∧ 0 < remaining then
        match (intervalOf rule).bind fun i =>
            periodForIndex rule.frequency b.startMs (periodIndex * i) with
        | none => ⟨out, remaining⟩
        | some (startMs, endMs) =>
            if pastUntil rule startMs || pastTo b startMs then ⟨out, remaining⟩
            else
              let (candidates, remaining) :=
                candidatesLoop rule b.startMs endMs 400 startMs remaining []
              let (out, ended) := pushPicked b rule (pick candidates positions) out
              if ended then ⟨out, remaining⟩
              else periodsLoop b rule positions fuel (periodIndex + 1) remaining out
      else ⟨out, remaining⟩

/-- A period takes a day of the budget, but for the year 99, which `Date.UTC` puts after the
year 100. -/
def periodsFuel (remaining : Nat) : Nat := 2 * remaining + 2

def hasPeriods : Frequency → Bool
  | .monthly | .yearly | .weekly => true
  | _ => false

def frequencyText : Frequency → JsString
  | .yearly => units "yearly"
  | .monthly => units "monthly"
  | .weekly => units "weekly"
  | .daily => units "daily"
  | .hourly => units "hourly"
  | .minutely => units "minutely"
  | .secondly => units "secondly"

def expandWithBysetpos (b : Bounds) (rule : Rule) (positions : List Int) (remaining : Nat) :
    Except Refusal Expanded :=
  if hasPeriods rule.frequency then
    .ok (periodsLoop b rule positions (periodsFuel remaining) 0 remaining [])
  else .error ⟨"calendar/bad-recurrence",
    units "b.calendar.expandRecurrence: BYSETPOS supported only with FREQ=MONTHLY / YEARLY / " ++
      units "WEEKLY (got '" ++ frequencyText rule.frequency ++ units "')"⟩

def expandSingleRule (b : Bounds) (rule : Rule) (remaining : Nat) : Except Refusal Expanded :=
  match bySetPosArray rule.bySetPos with
  | some positions => expandWithBysetpos b rule positions remaining
  | none => .ok (expandLoop b rule remaining b.startMs [])

/-! ## The rules of an event -/

/-- Each rule has the budget the rules before it left. -/
def expandRules (b : Bounds) : List Rule → Nat → Except Refusal (List Expanded)
  | [], _ => .ok []
  | rule :: rules, remaining => do
      let e ← expandSingleRule b rule remaining
      let es ← expandRules b rules e.stepBudgetRemaining
      .ok (e :: es)

def stepBudget : Nat := maxExpandInstances * 366

/-- The texts of the instances, each once, in the order of their code units. -/
def united (instances : List (List Int)) : List JsString :=
  (instances.flatten.map msToIsoZ).dedup.mergeSort fun a b =>
    a.map UInt16.toNat ≤ b.map UInt16.toNat

def maxCountOf (opts : Opts) : Nat :=
  min (if opts.max.getD 0 = 0 then maxExpandInstances else opts.max.getD 0) maxExpandInstances

def checkWindow (opts : Opts) : Except Refusal Unit :=
  match opts.fromDate, opts.toDate with
  | some ⟨fromText, some fromMs⟩, some ⟨toText, some toMs⟩ =>
      if toMs - fromMs > maxExpandSpanMs then
        .error ⟨"calendar/oversize-expansion-span",
          units "b.calendar.expandRecurrence: window [" ++ fromText ++ units ", " ++ toText ++
            units "] exceeds 10 years"⟩
      else if toMs < fromMs then
        .error ⟨"calendar/bad-expansion-window",
          units "b.calendar.expandRecurrence: opts.to must be after opts.from"⟩
      else .ok ()
  | _, _ => .ok ()

def boundsOf (startMs : Int) (opts : Opts) : Bounds :=
  ⟨startMs, opts.fromDate, opts.toDate, maxCountOf opts⟩

def expandRecurrence (event : Event) (opts : Opts) : Except Refusal (List JsString) :=
  if event.recurrenceRules = [] then
    .ok (event.start.toList.map fun d => localToUtc d.text)
  else do
    checkWindow opts
    match event.start.bind DateText.ms with
    | none => .error ⟨"calendar/bad-start",
        units "b.calendar.expandRecurrence: event.start is not a parseable date"⟩
    | some startMs =>
        let es ← expandRules (boundsOf startMs opts) event.recurrenceRules stepBudget
        .ok ((united (es.map Expanded.instances)).take (maxCountOf opts))

end Blamejs.Calendar
