import Blamejs.Lib.Run
import Mathlib.Logic.Function.Basic

/-!
# The per-key queue (`keyedSerializer` of `lib/safe-async.js`)

Calls of `run` are numbered as they come, and the promises `result` and `tail` of a call go by
its number. What a `then` registers on a promise is a job once the promise is settled; jobs run
from one queue, first in first out, with any calls and settlements in between. `fn` settles at
any time after it was called, also before the job that called it is over, and `result` follows
it at any time after that.
-/

namespace Blamejs.KeyedSerializer

variable {K E V : Type}

inductive Job where
  /-- The handlers on `prev`, which are the same for both outcomes. -/
  | start (call : Nat)
  /-- The handlers on `result`, which fulfil `tail` for both outcomes. -/
  | tail (call : Nat)
  /-- The handler on `tail`. -/
  | cleanup (call : Nat)

structure St (K E V : Type) where
  chains : K → Option Nat
  /-- The key of each call. -/
  calls : List K
  /-- The tails that are not settled and the calls whose `prev` they are. -/
  reactions : List (Nat × Nat)
  jobs : List Job
  /-- The calls whose `fn` was called, in order. -/
  started : List Nat
  /-- How the functions settled. -/
  finished : List (Nat × Except E V)
  /-- How the promises settled that `run` returned. -/
  results : List (Nat × Except E V)
  /-- The tails that are fulfilled. -/
  drained : List Nat

def St.init (K E V : Type) : St K E V := ⟨fun _ => none, [], [], [], [], [], [], []⟩

section

variable [DecidableEq K]

/-- `run`; the promise `prev` of a key without a chain is resolved. -/
def run (s : St K E V) (key : K) : St K E V :=
  let call := s.calls.length
  let s' := { s with
    calls := s.calls ++ [key]
    chains := Function.update s.chains key (some call) }
  match s.chains key with
  | none => { s' with jobs := s.jobs ++ [.start call] }
  | some prev =>
      if prev ∈ s.drained then { s' with jobs := s.jobs ++ [.start call] }
      else { s' with reactions := s.reactions ++ [(prev, call)] }

def perform (s : St K E V) : Job → St K E V
  | .start call => { s with started := s.started ++ [call] }
  | .tail call =>
      { s with
        drained := s.drained ++ [call]
        reactions := s.reactions.filter (·.1 ≠ call)
        jobs := s.jobs ++ .cleanup call ::
          (s.reactions.filter (·.1 = call)).map fun r => .start r.2 }
  | .cleanup call =>
      match s.calls[call]? with
      | some key =>
          if s.chains key = some call then
            { s with chains := Function.update s.chains key none }
          else s
      | none => s

inductive Act (K E V : Type) where
  | run (key : K)
  /-- What `fn` returned settles, or `fn` throws. -/
  | finish (call : Nat) (outcome : Except E V)
  /-- `result` takes over how `fn` settled. -/
  | adopt (call : Nat)
  /-- The first job runs. -/
  | react

def step (s : St K E V) : Act K E V → Option (St K E V)
  | .run key => some (run s key)
  | .finish call outcome =>
      if call ∈ s.started ∧ call ∉ s.finished.map Prod.fst then
        some { s with finished := s.finished ++ [(call, outcome)] }
      else none
  | .adopt call =>
      if call ∈ s.results.map Prod.fst then none
      else
        (s.finished.find? (·.1 = call)).map fun p =>
          { s with results := s.results ++ [p], jobs := s.jobs ++ [.tail call] }
  | .react =>
      match s.jobs with
      | [] => none
      | job :: jobs => some (perform { s with jobs := jobs } job)

end

end Blamejs.KeyedSerializer
