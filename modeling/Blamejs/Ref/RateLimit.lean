import Blamejs.Lib.Run
import Mathlib.Data.Rat.Floor

/-!
# Token buckets (`lib/middleware/rate-limit.js`)

`_memoryTokenBucketBackend` without `reset`, in exact arithmetic. The clock gives any
non-decreasing times, and the sweep that deletes idle buckets runs between any two takes. Takes
and their answers are logged.
-/

namespace Blamejs.RateLimit

structure Opts where
  burst : Rat
  refillPerSecond : Rat
  burst_pos : 0 < burst
  refillPerSecond_pos : 0 < refillPerSecond

structure Bucket where
  tokens : Rat
  lastRefillAt : Rat
  deriving DecidableEq

structure Answer where
  allowed : Bool
  limit : Rat
  remaining : Int
  retryAfter : Int
  deriving DecidableEq

/-- What a bucket that existed is brought to. -/
def refill (opts : Opts) (now : Rat) (b : Bucket) : Bucket :=
  ⟨min opts.burst (b.tokens + (now - b.lastRefillAt) / 1000 * opts.refillPerSecond), now⟩

/-- The bucket of a key when a take comes. -/
def bucketAt (opts : Opts) (now : Rat) (b : Option Bucket) : Bucket :=
  match b with
  | some b => refill opts now b
  | none => ⟨opts.burst, now⟩

/-- `take`, on the bucket of its key. -/
def take (opts : Opts) (now : Rat) (existing : Option Bucket) : Bucket × Answer :=
  let b := bucketAt opts now existing
  if 1 ≤ b.tokens then
    ({ b with tokens := b.tokens - 1 }, ⟨true, opts.burst, ⌊b.tokens - 1⌋, 0⟩)
  else
    let waitMs : Int := ⌈(1 - b.tokens) / opts.refillPerSecond * 1000⌉
    (b, ⟨false, opts.burst, 0, ⌈(waitMs : Rat) / 1000⌉⟩)

/-- What the sweep leaves of a bucket: an hour without a take deletes it. -/
def sweep (now : Rat) (b : Option Bucket) : Option Bucket :=
  b.filter fun b => now - 3600000 ≤ b.lastRefillAt

structure Event (K : Type) where
  key : K
  time : Rat
  answer : Answer

structure St (K : Type) where
  clock : Rat
  buckets : K → Option Bucket
  log : List (Event K)

def St.init {K : Type} (clock : Rat) : St K := ⟨clock, fun _ => none, []⟩

inductive Act (K : Type) where
  | take (now : Rat) (key : K)
  | gc (now : Rat)

variable {K : Type} [DecidableEq K]

def step (opts : Opts) (s : St K) : Act K → Option (St K)
  | .take now key =>
      if s.clock ≤ now then
        let r := RateLimit.take opts now (s.buckets key)
        some { clock := now, buckets := Function.update s.buckets key (some r.1),
               log := s.log ++ [⟨key, now, r.2⟩] }
      else none
  | .gc now =>
      if s.clock ≤ now then
        some { s with clock := now, buckets := fun k => sweep now (s.buckets k) }
      else none

end Blamejs.RateLimit
