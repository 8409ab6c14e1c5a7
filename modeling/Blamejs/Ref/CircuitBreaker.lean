import Blamejs.Lib.Run

/-!
# The circuit breaker (`CircuitBreaker` of `lib/retry.js`)

`wrap` runs up to its call of `fn` in one go (`beginWrap`), and from the answer of
`fn` to its own in another (`settle`); between the two any other call may come.
State listeners only observe. `period`, `log` and the field `period` of a call
are read by no function: how often the breaker has become half-open, what has
settled, and the half-open period a call is a probe of.
-/

namespace Blamejs.CircuitBreaker

open Run

inductive State where
  | closed
  | opened
  | half
  deriving DecidableEq, Repr

/-- The options that pass `_validateBreakerOpts`. `cooldownMs` is rounded up: it is
compared with whole milliseconds. -/
structure Opts where
  failureThreshold : Nat
  cooldownMs : Nat
  successThreshold : Nat
  failure_pos : 0 < failureThreshold
  success_pos : 0 < successThreshold

structure Breaker where
  state : State
  consecutiveFailures : Nat
  consecutiveSuccesses : Nat
  openedAt : Int
  halfOpenInFlight : Int
  probeGeneration : Nat
  deriving DecidableEq, Repr

def Breaker.new : Breaker := ⟨.closed, 0, 0, 0, 0, 0⟩

/-- What `fn` came to: an error may be marked permanent, or be that of an open
circuit. -/
inductive Outcome where
  | success
  | permanent
  | circuitOpen
  | failure
  deriving DecidableEq, Repr

/-- A call whose `fn` runs, with the variables of `wrap`. -/
structure Call where
  probing : Bool
  probeGeneration : Nat
  period : Option Nat
  deriving DecidableEq, Repr

/-- The first check of `wrap`: an open breaker becomes half-open when it has cooled
down, and refuses the call before that. -/
def Breaker.enter (o : Opts) (b : Breaker) (now : Int) : Option Breaker :=
  if b.state = .opened then
    if now - b.openedAt ≥ o.cooldownMs then some { b with state := .half } else none
  else some b

/-- The breaker after `_onSuccess`. -/
def Breaker.onSuccess (o : Opts) (b : Breaker) : Breaker :=
  if b.state = .half then
    if b.consecutiveSuccesses + 1 ≥ o.successThreshold then
      { b with state := .closed, consecutiveFailures := 0, consecutiveSuccesses := 0 }
    else { b with consecutiveSuccesses := b.consecutiveSuccesses + 1 }
  else { b with consecutiveFailures := 0 }

/-- The breaker after `_onFailure` with an error that counts. -/
def Breaker.onFailure (o : Opts) (b : Breaker) (now : Int) : Breaker :=
  let b := { b with consecutiveFailures := b.consecutiveFailures + 1, consecutiveSuccesses := 0 }
  if b.state = .half then { b with state := .opened, openedAt := now }
  else if b.state = .closed ∧ b.consecutiveFailures ≥ o.failureThreshold then
    { b with state := .opened, openedAt := now }
  else b

/-- The breaker after `fn` has answered. -/
def Breaker.answered (o : Opts) (b : Breaker) (now : Int) : Outcome → Breaker
  | .success => b.onSuccess o
  | .permanent => b
  | .circuitOpen => b
  | .failure => b.onFailure o now

/-- The `finally` of `wrap`. -/
def Breaker.leave (b : Breaker) (c : Call) : Breaker :=
  if c.probing ∧ c.probeGeneration = b.probeGeneration then
    { b with halfOpenInFlight := b.halfOpenInFlight - 1 }
  else b

def Breaker.reset (b : Breaker) : Breaker := ⟨.closed, 0, 0, 0, 0, b.probeGeneration + 1⟩

/-! ## Runs -/

inductive Event where
  | settled (period : Option Nat) (outcome : Outcome)
  | reset
  deriving DecidableEq, Repr

/-- `log` has the latest event first. -/
structure St where
  clock : Int
  b : Breaker
  calls : List Call
  period : Nat
  log : List Event
  deriving DecidableEq, Repr

def St.init (start : Int) : St := ⟨start, .new, [], 0, []⟩

/-- `wrap` up to the call of `fn`; a call that is refused throws. -/
def St.beginWrap (o : Opts) (s : St) : St :=
  match s.b.enter o s.clock with
  | none => s
  | some b =>
      let period := if b.state = s.b.state then s.period else s.period + 1
      if b.state = .half then
        if b.halfOpenInFlight > 0 then { s with b := b, period := period }
        else
          { s with
            b := { b with halfOpenInFlight := b.halfOpenInFlight + 1 }
            calls := s.calls ++ [⟨true, b.probeGeneration, some period⟩]
            period := period }
      else { s with b := b, calls := s.calls ++ [⟨false, b.probeGeneration, none⟩] }

/-- `wrap` after `fn` has answered. -/
def St.settle (o : Opts) (s : St) (i : Nat) (c : Call) (outcome : Outcome) : St :=
  { s with
    b := (s.b.answered o s.clock outcome).leave c
    calls := s.calls.eraseIdx i
    log := .settled c.period outcome :: s.log }

inductive Action where
  | tick (ms : Nat)
  | wrap
  | settle (i : Nat) (outcome : Outcome)
  | reset
  deriving DecidableEq, Repr

def step (o : Opts) (s : St) : Action → Option St
  | .tick ms => some { s with clock := s.clock + ms }
  | .wrap => some (s.beginWrap o)
  | .settle i outcome => (s.calls[i]?).map fun c => s.settle o i c outcome
  | .reset => some { s with b := s.b.reset, log := .reset :: s.log }

/-- The failures since the last success or reset. -/
def failures : List Event → Nat
  | [] => 0
  | .reset :: _ => 0
  | .settled _ .success :: _ => 0
  | .settled _ .failure :: log => failures log + 1
  | .settled _ _ :: log => failures log

/-- The successes of probes of a half-open period. -/
def successes (period : Nat) (log : List Event) : Nat :=
  log.count (.settled (some period) .success)

/-- The probes in flight that started since the last reset. -/
def St.probes (s : St) : List Call :=
  s.calls.filter fun c => c.probing && c.probeGeneration == s.b.probeGeneration

/-- The call is a probe of the half-open period the breaker is in. -/
def St.current (s : St) (i : Nat) : Bool :=
  (s.calls[i]?).any fun c => c.period == some s.period

end Blamejs.CircuitBreaker
