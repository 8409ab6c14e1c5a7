import Mathlib

/-!
# Values that are spent once

What a record of one-time values is for: a value that is spent stays so until the
time given with it, or until it is given back. Nothing else is remembered, and
when something is forgotten cannot be told.
-/

namespace Blamejs.SpentValues

variable {K T : Type*} [DecidableEq K] [LinearOrder T]

/-- Until when each value is spent. -/
abbrev Spent (K T : Type*) := K → Option T

inductive Op (K T : Type*) where
  | spend (value : K) (expireAt : T)
  | giveBack (value : K)
  deriving DecidableEq, Repr

def Spent.live (m : Spent K T) (now : T) (value : K) : Option T :=
  (m value).filter fun t => now < t

/-- Whether the value was not spent, or was; and what is spent from then on. -/
def Spent.step (m : Spent K T) (now : T) : Op K T → Bool × Spent K T
  | .spend value expireAt =>
      if (m.live now value).isSome then (false, m)
      else (true, Function.update m value (some expireAt))
  | .giveBack value => ((m.live now value).isSome, Function.update m value none)

/-- The answers to a sequence of operations, each at its time. -/
def Spent.answers (m : Spent K T) : List (T × Op K T) → List Bool
  | [] => []
  | (now, op) :: ops => (m.step now op).1 :: (m.step now op).2.answers ops

end Blamejs.SpentValues
