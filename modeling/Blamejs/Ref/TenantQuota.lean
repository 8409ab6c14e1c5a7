import Blamejs.Js.Arithmetic
import Mathlib.Algebra.BigOperators.Fin

/-!
# Query budgets (`lib/tenant-quota.js`)

The counter of one tenant in `budget`: a ring of twelve bins that is shifted when the clock has
moved on, and `observe`, which counts a call before it looks at the caps. The caps and the window
are Numbers, and what is computed of them is rounded as in the code. The clock gives any
non-decreasing times. Rows are read in whole numbers whose sums stay below `2 ^ 53`, where a sum
of Numbers is exact. Calls are logged with their answers.
-/

namespace Blamejs.TenantQuota

open Js

def BINS : Nat := 12

structure Opts where
  qpsCap : Double
  rowsCap : Double
  windowMs : Double
  finite : qpsCap.isFinite && rowsCap.isFinite && windowMs.isFinite
  positive : 0 < qpsCap.scaled ∧ 0 < rowsCap.scaled ∧ 0 < windowMs.scaled

def Opts.binMs (opts : Opts) : Int := max 1 (opts.windowMs.div (.ofInt BINS)).floor

def Opts.maxCalls (opts : Opts) : Int :=
  max 1 (opts.qpsCap.mul (opts.windowMs.div (.ofInt 1000))).floor

/-- The bin of a time. -/
def Opts.bin (opts : Opts) (now : Rat) : Int := ⌊now / opts.binMs⌋

structure Counter where
  calls : Fin BINS → Nat
  rows : Fin BINS → Nat
  startBin : Int

/-- The bins after the ring has moved on by some bins: the loops of `_slide`. -/
def shift {α : Type*} [Zero α] (advance : Nat) (bins : Fin BINS → α) : Fin BINS → α := fun i =>
  if h : i + advance < BINS then bins ⟨i + advance, h⟩ else 0

/-- `_slide`. -/
def slide (opts : Opts) (counter : Option Counter) (now : Rat) : Counter :=
  let nowBin := opts.bin now
  let c := counter.getD ⟨fun _ => 0, fun _ => 0, nowBin - (BINS - 1)⟩
  let advance := nowBin - (c.startBin + (BINS - 1))
  if 0 < advance then
    if (BINS : Int) ≤ advance then ⟨fun _ => 0, fun _ => 0, nowBin - (BINS - 1)⟩
    else ⟨shift advance.toNat c.calls, shift advance.toNat c.rows, nowBin - (BINS - 1)⟩
  else c

structure Totals where
  calls : Nat
  rowsRead : Nat
  deriving DecidableEq

/-- `_sum`. -/
def sum (c : Counter) : Totals := ⟨∑ i, c.calls i, ∑ i, c.rows i⟩

/-- The last bin of a ring, counted up. -/
def addLast {α : Type*} [Add α] (bins : Fin BINS → α) (amount : α) : Fin BINS → α := fun i =>
  if i.val = BINS - 1 then bins i + amount else bins i

/-- What a call reports, or is refused with: the texts of `tenant-quota/budget-exceeded` and of
the audit record are made of these. -/
structure Report where
  allowed : Bool
  totals : Totals
  maxCalls : Int
  rowsCap : Double
  windowMs : Double
  deriving DecidableEq

/-- What counts as rows read: anything but a number that is not negative is none. -/
def rowsOf (rowsRead : Option Int) : Nat :=
  ((rowsRead.filter fun r => 0 ≤ r).getD 0).toNat

/-- `observe`. -/
def observe (opts : Opts) (counter : Option Counter) (now : Rat) (rowsRead : Option Int) :
    Counter × Report :=
  let c := slide opts counter now
  let c := { c with calls := addLast c.calls 1, rows := addLast c.rows (rowsOf rowsRead) }
  let tot := sum c
  (c, ⟨decide ((tot.calls : Int) ≤ opts.maxCalls ∧ tot.rowsRead ≤ opts.rowsCap.value), tot,
    opts.maxCalls, opts.rowsCap, opts.windowMs⟩)

structure Event where
  time : Rat
  rows : Nat
  allowed : Bool
  deriving DecidableEq

structure St where
  clock : Rat
  counter : Option Counter
  log : List Event

def St.init (clock : Rat) : St := ⟨clock, none, []⟩

structure Act where
  now : Rat
  rowsRead : Option Int

def step (opts : Opts) (s : St) (a : Act) : Option St :=
  if s.clock ≤ a.now then
    let r := observe opts s.counter a.now a.rowsRead
    some ⟨a.now, some r.1, s.log ++ [⟨a.now, rowsOf a.rowsRead, r.2.allowed⟩]⟩
  else none

end Blamejs.TenantQuota
