import Blamejs.Js.Text
import Mathlib.Algebra.Order.Ring.Unbundled.Rat

/-!
# Account lockout (`lib/auth/lockout.js`)

The calls on one key of a lockout over an atomic cache that keeps an entry just for its
lifetime, so that the state is the cache entry of that key. A call reads the clock and
updates the entry in one step. Times are in milliseconds; a time of zero counts as none
where the code tests a time for being there.

What the calls do is logged: failures that are recorded or come during a lock, locks,
successes and unlocks.
-/

namespace Blamejs.Lockout

open Blamejs.Js

/-- `lockoutDurations`: an array, or a function that may give no number. -/
inductive Durations where
  | array (durations : List Rat) (nonempty : durations ≠ []) (nonneg : ∀ d ∈ durations, 0 ≤ d)
  | fn (durations : Nat → Option Rat)

structure Opts where
  maxAttempts : Nat
  windowMs : Nat
  lockoutDurations : Durations
  maxAttempts_pos : 0 < maxAttempts
  windowMs_pos : 0 < windowMs

def defaultAdminLockMs : Rat := 86400000

inductive Err where
  | badLockoutDuration
  | badOpt
  deriving DecidableEq, Repr

/-- `_resolveDuration` -/
def resolveDuration (durations : Durations) (lockNumber : Nat) : Except Err Rat :=
  match durations with
  | .fn durations =>
      match durations lockNumber with
      | some v => if v < 0 then .error .badLockoutDuration else .ok v
      | none => .error .badLockoutDuration
  | .array durations _ _ =>
      let idx := min (lockNumber - 1) (durations.length - 1)
      .ok (durations.getD idx 0)

/-- The value in the cache. -/
structure State where
  attempts : Nat
  lockNumber : Nat
  firstFailureAt : Option Nat
  lastFailureAt : Option Nat
  lockedUntil : Option Rat
  forced : Bool
  deriving DecidableEq, Repr

structure Entry where
  value : State
  expiresAt : Rat
  deriving DecidableEq, Repr

inductive Event where
  /-- A failure that counts. -/
  | recorded (now : Nat)
  | duringLock (now : Nat)
  /-- A lock; `forced` by `lock`, and else by the failures. -/
  | engaged (now lockNumber : Nat) (lockedUntil : Rat) (forced : Bool)
  | success
  | unlock
  | rejected (e : Err)
  deriving DecidableEq, Repr

structure St where
  now : Nat
  entry : Option Entry
  log : List Event

def St.init (now : Nat) : St := ⟨now, none, []⟩

/-- What the cache gives for the key. -/
def St.state (s : St) : Option State :=
  (s.entry.filter fun entry => (s.now : Rat) < entry.expiresAt).map Entry.value

/-- A time that is there. -/
def truthy (t : Option Rat) : Option Rat := t.filter (· ≠ 0)

/-- `state.lockedUntil && state.lockedUntil > now` -/
def State.lockedAfter (state : State) (now : Nat) : Option Rat :=
  (truthy state.lockedUntil).filter fun lockedUntil => lockedUntil > (now : Rat)

def isActiveForcedLock (state : State) (now : Nat) : Bool :=
  state.forced && state.lockedUntil.any fun lockedUntil => lockedUntil > (now : Rat)

structure Verdict where
  locked : Bool
  attempts : Nat
  lockedUntil : Option Rat
  deriving DecidableEq, Repr

/-- `_verdictFromState` -/
def verdictFromState (state : Option State) (now : Nat) : Verdict :=
  match state with
  | none => ⟨false, 0, none⟩
  | some state =>
      match state.lockedAfter now with
      | some lockedUntil => ⟨true, state.attempts, some lockedUntil⟩
      | none => ⟨false, state.attempts, none⟩

def check (s : St) : Verdict := verdictFromState s.state s.now

section model

variable (o : Opts)

/-- The record that a failure counts on: what is older than the window is forgotten, but
for the number of locks. -/
def decayed (now : Nat) (state : State) : State :=
  match state.lastFailureAt.filter (· ≠ 0) with
  | some lastFailureAt =>
      if (now : Int) - lastFailureAt > o.windowMs then
        ⟨0, state.lockNumber, none, none, none, false⟩
      else state
  | none => state

def put (s : St) (value : State) (ttlMs : Rat) (events : List Event) : St :=
  { s with entry := some ⟨value, s.now + ttlMs⟩, log := s.log ++ events }

def recordFailure (s : St) : St :=
  let now := s.now
  match s.state.bind fun state => state.lockedAfter now with
  | some _ => { s with log := s.log ++ [.duringLock now] }
  | none =>
      let state := s.state.map (decayed o now)
      let attempts := (state.map State.attempts).getD 0 + 1
      let lockNumber := (state.map State.lockNumber).getD 0
      let firstFailureAt := ((state.bind State.firstFailureAt).filter (· ≠ 0)).getD now
      if attempts ≥ o.maxAttempts then
        let lockNumber := lockNumber + 1
        match resolveDuration o.lockoutDurations lockNumber with
        | .error e => { s with log := s.log ++ [.rejected e] }
        | .ok duration =>
            let lockedUntil := now + duration
            -- the lifetime of a lock that ends at zero is the window as well
            put s ⟨0, lockNumber, some firstFailureAt, some now, some lockedUntil, false⟩
              (if lockedUntil ≠ 0 then lockedUntil - now + o.windowMs else o.windowMs)
              [.recorded now, .engaged now lockNumber lockedUntil false]
      else
        put s ⟨attempts, lockNumber, some firstFailureAt, some now, none, false⟩ o.windowMs
          [.recorded now]

/-- `_atomicClear` -/
def atomicClear (s : St) (preserveIf : State → Bool) (event : Event) : St :=
  match s.state with
  | none => { s with log := s.log ++ [event] }
  | some state =>
      if preserveIf state then { s with log := s.log ++ [event] }
      else { s with entry := none, log := s.log ++ [event] }

def recordSuccess (s : St) : St :=
  atomicClear s (fun state => isActiveForcedLock state s.now) .success

def unlock (s : St) : St := atomicClear s (fun _ => false) .unlock

/-- `untilMs` or `durationMs` of the caller. -/
structure LockOpts where
  untilMs : Option Rat
  durationMs : Option Rat
  deriving DecidableEq, Repr

def lockedUntilOf (now : Nat) (callOpts : LockOpts) : Rat :=
  match callOpts.untilMs, callOpts.durationMs.filter (· > 0) with
  | some untilMs, _ => untilMs
  | none, some durationMs => now + durationMs
  | none, none => now + defaultAdminLockMs

def lock (s : St) (callOpts : LockOpts) : St :=
  let now := s.now
  let lockedUntil := lockedUntilOf now callOpts
  if lockedUntil ≤ now then { s with log := s.log ++ [.rejected .badOpt] }
  else
    let lockNumber := (s.state.map State.lockNumber).getD 0 + 1
    let firstFailureAt := ((s.state.bind State.firstFailureAt).filter (· ≠ 0)).getD now
    put s ⟨0, lockNumber, some firstFailureAt, some now, some lockedUntil, true⟩
      (lockedUntil - now + o.windowMs) [.engaged now lockNumber lockedUntil true]

inductive Act where
  | tick (ms : Nat)
  | recordFailure
  | recordSuccess
  | check
  | unlock
  | lock (callOpts : LockOpts)
  deriving DecidableEq, Repr

def step (s : St) : Act → Option St
  | .tick ms => some { s with now := s.now + ms }
  | .recordFailure => some (recordFailure o s)
  | .recordSuccess => some (recordSuccess s)
  | .check => some s
  | .unlock => some (unlock s)
  | .lock callOpts => some (lock o s callOpts)

end model

end Blamejs.Lockout
