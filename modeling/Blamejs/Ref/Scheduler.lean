import Blamejs.Js.LowerCase
import Blamejs.Js.ToNumber
import Blamejs.Ref.HttpCache

/-!
# Cron expressions (`parseCron` and `nextCronFire` of `lib/scheduler.js`)

`parseCron` up to the sets of the five fields, with what it throws. A set is the list of its
members in no order that matters. `parseInt` is exact here; the source rounds it past 2^53, far
outside every range.

The wall clock of a time zone is a parameter: the fields of a minute, counted from the epoch.
Instants are milliseconds.
-/

namespace Blamejs.Scheduler

open Js HttpCache

structure Range where
  name : JsString
  min : Nat
  max : Nat

/-! `CRON_FIELD_RANGES` -/

def minuteRange : Range := ⟨units "minute", 0, 59⟩

def hourRange : Range := ⟨units "hour", 0, 23⟩

def domRange : Range := ⟨units "dom", 1, 31⟩

def monthRange : Range := ⟨units "month", 1, 12⟩

def dowRange : Range := ⟨units "dow", 0, 7⟩

/-- `CRON_SHORTHANDS`. -/
def cronShorthands : List (JsString × JsString) :=
  [(units "@yearly", units "0 0 1 1 *"),
    (units "@annually", units "0 0 1 1 *"),
    (units "@monthly", units "0 0 1 * *"),
    (units "@weekly", units "0 0 * * 0"),
    (units "@daily", units "0 0 * * *"),
    (units "@midnight", units "0 0 * * *"),
    (units "@hourly", units "0 * * * *")]

def Range.size (range : Range) : Nat := range.max - range.min + 1

def inField (range : Range) : JsString := units " in cron field '" ++ range.name ++ units "'"

/-- What stands before the first `/` and, when there is one, what follows it. -/
def cutStep (part : JsString) : JsString × Option JsString :=
  (part.takeWhile (· ≠ unit '/'),
    match part.dropWhile (· ≠ unit '/') with
    | [] => none
    | _ :: stepStr => some stepStr)

def parseStep (range : Range) : Option JsString → Except JsString Nat
  | none => .ok 1
  | some stepStr =>
      match parseInt10 stepStr with
      | none => .error (units "bad step '" ++ stepStr ++ units "'" ++ inField range)
      | some step =>
          if step < 1 then .error (units "bad step '" ++ stepStr ++ units "'" ++ inField range)
          else if (range.size : Int) < step then
            .error (units "step '" ++ stepStr ++ units "' exceeds field range (" ++
              natText range.size ++ units ")" ++ inField range)
          else .ok step.toNat

/-- `lo` and `hi` as they are read. -/
def readBounds (range : Range) (stepped : Bool) (part : JsString) :
    Except JsString (Option Int × Option Int) :=
  if part = [unit '*'] then .ok (some range.min, some range.max)
  else if unit '-' ∈ part then
    match part.splitOn (unit '-') with
    | [lo, hi] => .ok (parseInt10 lo, parseInt10 hi)
    | _ => .error (units "bad range '" ++ part ++ units "'" ++ inField range)
  else .ok (parseInt10 part, if stepped then some (range.max : Int) else parseInt10 part)

/-- The check of the bounds. -/
def checkBounds (range : Range) (part : JsString) :
    Option Int × Option Int → Except JsString (Nat × Nat)
  | (some lo, some hi) =>
      if hi < lo ∨ lo < range.min ∨ (range.max : Int) < hi then .error (outOfRange range part)
      else .ok (lo.toNat, hi.toNat)
  | _ => .error (outOfRange range part)
where
  outOfRange (range : Range) (part : JsString) : JsString :=
    units "value '" ++ part ++ units "' out of range " ++ natText range.min ++ units "-" ++
      natText range.max ++ inField range

/-- One term of a field: `lo`, `hi` and `step`. -/
def parseTerm (range : Range) (text : JsString) : Except JsString (Nat × Nat × Nat) :=
  let part := trim text
  if part = [] then .error (units "empty term" ++ inField range)
  else do
    let step ← parseStep range (cutStep part).2
    let bounds ← readBounds range (cutStep part).2.isSome (cutStep part).1
    let (lo, hi) ← checkBounds range (cutStep part).1 bounds
    return (lo, hi, step)

/-- `for (v = lo; v <= hi; v += step) set.add(v)`. -/
def addTerm (set : List Nat) (term : Nat × Nat × Nat) : List Nat :=
  (List.range' term.1 ((term.2.1 - term.1) / term.2.2 + 1) term.2.2).foldl
    (fun set v => set.insert v) set

def parseCronField (range : Range) (text : JsString) : Except JsString (List Nat) := do
  let set ← (text.splitOn (unit ',')).foldlM
    (fun set part => (parseTerm range part).map (addTerm set)) []
  return if range.name = units "dow" ∧ 7 ∈ set then (set.insert 0).filter (· ≠ 7) else set

/-- `split(/\s+/)`, behind white space or not. -/
def splitWhite : Bool → JsString → List JsString
  | _, [] => [[]]
  | skip, u :: rest =>
      if isWhite u then if skip then splitWhite true rest else [] :: splitWhite true rest
      else match splitWhite false rest with
        | [] => [[u]]
        | field :: fields => (u :: field) :: fields

structure Cron where
  expr : JsString
  minute : List Nat
  hour : List Nat
  dom : List Nat
  month : List Nat
  dow : List Nat

def Cron.domRestricted (cron : Cron) : Bool := cron.dom.length < domRange.size

def Cron.dowRestricted (cron : Cron) : Bool := cron.dow.length < 7

/-- The expression with a shorthand replaced. -/
def expand (T : CaseTable) (expr : JsString) : JsString :=
  (cronShorthands.lookup (toLowerCase T (trim expr))).getD (trim expr)

def parseCron (T : CaseTable) (expr : JsString) : Except JsString Cron :=
  if expr = [] then .error (units "cron expression must be a non-empty string")
  else
    match splitWhite false (expand T expr) with
    | [minute, hour, dom, month, dow] => do
        let minute ← parseCronField minuteRange minute
        let hour ← parseCronField hourRange hour
        let dom ← parseCronField domRange dom
        let month ← parseCronField monthRange month
        let dow ← parseCronField dowRange dow
        return ⟨expand T expr, minute, hour, dom, month, dow⟩
    | fields =>
        .error (units "cron expression must have 5 fields (got " ++ natText fields.length ++
          units "): " ++ expr)

/-! ## Firing -/

structure Parts where
  month : Nat
  day : Nat
  hour : Nat
  minute : Nat
  dow : Nat

def matchesCron (cron : Cron) (parts : Parts) : Bool :=
  if parts.minute ∉ cron.minute then false
  else if parts.hour ∉ cron.hour then false
  else if parts.month ∉ cron.month then false
  else
    let domOk : Bool := parts.day ∈ cron.dom
    let dowOk : Bool := parts.dow ∈ cron.dow
    if cron.domRestricted && cron.dowRestricted then domOk || dowOk
    else if cron.domRestricted then domOk
    else if cron.dowRestricted then dowOk
    else true

/-- `MINUTE_MS`. -/
def minuteMs : Int := 60000

/-- `maxIters`: 366 days and an hour of minutes. -/
def maxIters : Nat := 366 * 24 * 60 + 60

/-- The search, from a minute on, for so many minutes. -/
def search (clock : Int → Parts) (cron : Cron) : Nat → Int → Option Int
  | 0, _ => none
  | n + 1, t =>
      if matchesCron cron (clock (t / minuteMs)) then some t
      else search clock cron n (t + minuteMs)

/-- The first minute the search looks at. -/
def firstMinute (after : Int) : Int :=
  let t := after + (minuteMs - after.tmod minuteMs).tmod minuteMs
  if t ≤ after then t + minuteMs else t

/-- `nextCronFire`; the error is the message it throws with. -/
def nextCronFire (clock : Int → Parts) (cron : Cron) (after : Int) : Except JsString Int :=
  match search clock cron maxIters (firstMinute after) with
  | some t => .ok t
  | none =>
      .error (units "cron expression '" ++ cron.expr ++
        units "' produced no fire within 1 year (impossible date constraint?)")

end Blamejs.Scheduler
