import Mathlib.Tactic.Common

/-!
# Single flight (`wrap` of `lib/cache.js`)

The calls of `wrap` on one key, with `singleFlight` on and `staleWhileRevalidate` off,
whose `backend.get` misses; `clear` and `invalidateTag` where they come back from the
backend and drop the computations in flight. The function settles with a value or an
error, a value is then stored, and the promise settles after that. Its two callbacks run
later, and so does every caller that waits for it.
-/

namespace Blamejs.SingleFlight

variable {V E : Type}

/-- A computation: the `promise` of `wrap`. -/
inductive Flight (V E : Type) where
  /-- The function is running; `stores` is `ttlMs !== 0`. -/
  | computing (stores : Bool)
  /-- Waits for `backend.set`, which may fail. -/
  | storing (computed : V)
  | settled (outcome : Except E V)
  /-- Its callbacks have run. -/
  | done (outcome : Except E V)

def Flight.outcome : Flight V E → Option (Except E V)
  | .computing _ => none
  | .storing _ => none
  | .settled outcome => some outcome
  | .done outcome => some outcome

/-- A call of `wrap`. -/
inductive Caller (V E : Type) where
  /-- Waits for `backend.get`. -/
  | reading (stores : Bool)
  | joined (n : Nat)
  | answered (n : Nat) (outcome : Except E V)

/-- `inflight` is the entry of the key; `cleared` is the number of computations that had
been started when the entry was last cleared. -/
structure St (V E : Type) where
  flights : List (Flight V E)
  inflight : Option Nat
  callers : List (Caller V E)
  cleared : Nat

def St.init (V E : Type) : St V E := ⟨[], none, [], 0⟩

inductive Act (V E : Type) where
  | wrap (stores : Bool)
  /-- A miss. -/
  | resume (c : Nat)
  | computed (n : Nat) (outcome : Except E V)
  | stored (n : Nat)
  | callback (n : Nat)
  | answer (c : Nat)
  /-- `clear` or `invalidateTag`. -/
  | clear

/-- `wrap` after the miss: the computation in flight, or a new one. -/
def resume (s : St V E) (c : Nat) (stores : Bool) : St V E :=
  match s.inflight with
  | some n => { s with callers := s.callers.set c (.joined n) }
  | none =>
      let n := s.flights.length
      { s with
        flights := s.flights ++ [.computing stores]
        inflight := some n
        callers := s.callers.set c (.joined n) }

/-- The computation after its function has settled. -/
def afterCompute (stores : Bool) : Except E V → Flight V E
  | .ok computed => if stores then .storing computed else .settled (.ok computed)
  | .error e => .settled (.error e)

def step (s : St V E) : Act V E → Option (St V E)
  | .wrap stores => some { s with callers := s.callers ++ [.reading stores] }
  | .resume c =>
      match s.callers[c]? with
      | some (.reading stores) => some (resume s c stores)
      | _ => none
  | .computed n outcome =>
      match s.flights[n]? with
      | some (.computing stores) =>
          some { s with flights := s.flights.set n (afterCompute stores outcome) }
      | _ => none
  | .stored n =>
      match s.flights[n]? with
      | some (.storing computed) =>
          some { s with flights := s.flights.set n (.settled (.ok computed)) }
      | _ => none
  | .callback n =>
      match s.flights[n]? with
      | some (.settled outcome) =>
          -- the entry of the key, whichever computation that is
          some { s with flights := s.flights.set n (.done outcome), inflight := none }
      | _ => none
  | .answer c =>
      match s.callers[c]? with
      | some (.joined n) =>
          (s.flights[n]?.bind Flight.outcome).map fun outcome =>
            { s with callers := s.callers.set c (.answered n outcome) }
      | _ => none
  | .clear => some { s with inflight := none, cleared := s.flights.length }

end Blamejs.SingleFlight
