import Blamejs.Lib.Run

/-!
# Bounded parallel calls (`parallel` of `lib/safe-async.js`)

A pool of workers takes indices off one cursor. A worker that has called `fn` waits for the
call's promise; the callback stores the value or the first error and goes on with the loop.
Callbacks run from the queue of reactions, in the order the promises settled, and only when
the loop that starts the workers is over. A promise may settle at any time after its call,
also inside a call of `fn` that returns settled or throws, and so may the signal fire; a
settlement and the callback for it are two steps.

What the calls reject with is of any type; `truthy` is the language's test of such a value,
which `firstError` goes through. `settlements` and `abortedAt` record what the calls and the
signal did and are read by nothing.
-/

namespace Blamejs.Parallel

variable {V E : Type}

/-- The options after the check of `concurrency`. -/
structure Opts where
  concurrency : Nat
  signal : Bool
  valid : 1 ≤ concurrency ∧ concurrency ≤ 256

/-- What `firstError` holds when it is not null. -/
inductive Reason (E : Type) where
  /-- The `SafeAsyncError` of the abort. -/
  | aborted
  | thrown (e : E)

inductive Ending (V E : Type) where
  | resolved (results : List (Option V))
  | rejected (reason : Reason E)

structure St (V E : Type) where
  results : List (Option V)
  cursor : Nat
  /-- The promise of `parallel`; `settled` is that it has an ending. -/
  ending : Option (Ending V E)
  firstError : Option (Reason E)
  activeWorkers : Nat
  /-- The workers that are still to be started. -/
  spawning : Nat
  /-- The abort listener is attached. -/
  listening : Bool
  /-- The indices `fn` was called with, in order. -/
  started : List Nat
  /-- The callbacks that are due. -/
  jobs : List (Nat × Except E V)
  /-- How the calls settled, in order. -/
  settlements : List (Nat × Except E V)
  /-- The number of settlements when the signal fired. -/
  abortedAt : Option Nat

/-- `parallel` up to the loop that starts the workers, for so many items; `aborted` is
`signal.aborted`. -/
def St.init (V : Type) {E : Type} (o : Opts) (items : Nat) (aborted : Bool) : St V E :=
  let idle : St V E := ⟨List.replicate items none, 0, none, none, 0, 0, false, [], [], [], none⟩
  if o.signal ∧ aborted then
    { idle with ending := some (.rejected .aborted), abortedAt := some 0 }
  else if items = 0 then { idle with ending := some (.resolved []) }
  else { idle with spawning := min o.concurrency items, listening := o.signal }

section

variable (truthy : E → Bool)

/-- The truth value of `firstError`. -/
def isSet : Option (Reason E) → Bool
  | none => false
  | some .aborted => true
  | some (.thrown e) => truthy e

/-- `_finish(firstError)`. -/
def finish (s : St V E) : St V E :=
  match s.ending with
  | some _ => s
  | none =>
      { s with
        listening := false
        ending := match s.firstError with
          | some reason =>
              if isSet truthy s.firstError then some (.rejected reason)
              else some (.resolved s.results)
          | none => some (.resolved s.results) }

/-- `_workerLoop`, up to the call of `fn`. -/
def workerLoop (s : St V E) : St V E :=
  if isSet truthy s.firstError ∨ s.results.length ≤ s.cursor then
    let s := { s with activeWorkers := s.activeWorkers - 1 }
    if s.activeWorkers = 0 then finish truthy s else s
  else { s with cursor := s.cursor + 1, started := s.started ++ [s.cursor] }

/-- The callback of a call. -/
def callback (s : St V E) (idx : Nat) : Except E V → St V E
  | .ok value => { s with results := s.results.set idx (some value) }
  | .error e =>
      { s with firstError := if isSet truthy s.firstError then s.firstError else some (.thrown e) }

inductive Act (V E : Type) where
  /-- The loop starts a worker. -/
  | spawn
  /-- The promise of a call settles. -/
  | settle (idx : Nat) (outcome : Except E V)
  /-- The first callback that is due runs. -/
  | react
  /-- The signal fires. -/
  | abort

def step (o : Opts) (s : St V E) : Act V E → Option (St V E)
  | .spawn =>
      if s.spawning = 0 then none
      else some (workerLoop truthy
        { s with spawning := s.spawning - 1, activeWorkers := s.activeWorkers + 1 })
  | .settle idx outcome =>
      if idx ∈ s.started ∧ idx ∉ s.settlements.map Prod.fst then
        some { s with
          settlements := s.settlements ++ [(idx, outcome)]
          jobs := s.jobs ++ [(idx, outcome)] }
      else none
  | .react =>
      match s.jobs with
      | [] => none
      | (idx, outcome) :: jobs =>
          if s.spawning = 0 then
            some (workerLoop truthy (callback truthy { s with jobs := jobs } idx outcome))
          else none
  | .abort =>
      if o.signal ∧ s.abortedAt = none then
        some { s with
          abortedAt := some s.settlements.length
          firstError := if s.listening ∧ ¬ isSet truthy s.firstError then some .aborted
            else s.firstError }
      else none

end

end Blamejs.Parallel
