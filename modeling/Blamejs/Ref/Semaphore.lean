import Blamejs.Lib.Run

/-!
# The counting locks (`Semaphore` and `Mutex` of `lib/safe-async.js`)

The two classes differ in what they count with, which is `Kind`; `acquire` and `release` are
the same otherwise. A waiter whose call brought a signal has a listener on it. A signal that
fires sets its flag and then runs its listeners one at a time; listeners of others on the same
signal may call `acquire` and `release` in between, so each listener is a step of its own.

Calls of `acquire` are numbered as they come. `granted`, `rejected` and `held` record what
became of them, `hit` the waiters there were when their signal fired, and `overtaken` those of
them that got a slot from a `release` inside that dispatch, before their own listener ran;
nothing reads these.
-/

namespace Blamejs.Semaphore

variable {σ S : Type}

/-- What a class counts its slots with. -/
structure Kind (S : Type) where
  name : String
  free : S → Bool
  taken : S → S
  idle : S → Bool
  putBack : S → S
  idleText : String

/-- `class Semaphore`, on `_inFlight`. -/
def semaphore (limit : Nat) : Kind Nat where
  name := "Semaphore"
  free inFlight := inFlight < limit
  taken inFlight := inFlight + 1
  idle inFlight := inFlight = 0
  putBack inFlight := inFlight - 1
  idleText := "release on idle Semaphore"

/-- `class Mutex`, on `_held`. -/
def mutex : Kind Bool where
  name := "Mutex"
  free held := !held
  taken _ := true
  idle held := !held
  putBack _ := false
  idleText := "release on unheld Mutex"

/-- An entry of `_waiters`. -/
structure Waiter (σ : Type) where
  call : Nat
  signal : Option σ

structure St (σ S : Type) where
  slots : S
  waiters : List (Waiter σ)
  /-- The signals that have fired. -/
  aborted : List σ
  /-- The calls whose listeners a signal that fired has still to run. -/
  due : List Nat
  calls : Nat
  granted : List Nat
  /-- The calls that were rejected, and the message of each. -/
  rejected : List (Nat × String)
  /-- The grants that are outstanding. -/
  held : List Nat
  hit : List Nat
  overtaken : List Nat

def St.init (σ : Type) {S : Type} (slots : S) : St σ S :=
  ⟨slots, [], [], [], 0, [], [], [], [], []⟩

section

variable [DecidableEq σ] (k : Kind S)

def acquire (s : St σ S) (signal : Option σ) : St σ S :=
  let call := s.calls
  let s := { s with calls := s.calls + 1 }
  if k.free s.slots then
    { s with
      slots := k.taken s.slots
      granted := s.granted ++ [call]
      held := call :: s.held }
  else if ∃ sig ∈ signal, sig ∈ s.aborted then
    { s with rejected := s.rejected ++ [(call, k.name ++ ".acquire aborted")] }
  else { s with waiters := s.waiters ++ [⟨call, signal⟩] }

/-- `release`; the error is the message it throws with. -/
def release (s : St σ S) : Except String (St σ S) :=
  if k.idle s.slots then .error k.idleText
  else match s.waiters with
    | next :: rest =>
        .ok { s with
          waiters := rest
          due := if next.signal.isSome then s.due.filter (· ≠ next.call) else s.due
          granted := s.granted ++ [next.call]
          held := next.call :: s.held
          overtaken := if next.call ∈ s.due then next.call :: s.overtaken else s.overtaken }
    | [] => .ok { s with slots := k.putBack s.slots }

/-- The `onAbort` of a call. -/
def onAbort (s : St σ S) (call : Nat) : St σ S :=
  if call ∈ s.waiters.map Waiter.call then
    { s with
      waiters := s.waiters.filter (·.call ≠ call)
      rejected := s.rejected ++ [(call, k.name ++ ".acquire aborted while waiting")] }
  else s

inductive Act (σ : Type) where
  | acquire (signal : Option σ)
  /-- The holder of a grant calls `release`. -/
  | release (holder : Nat)
  /-- A signal fires. -/
  | abort (sig : σ)
  /-- The signal that fired runs the listener of a call. -/
  | notify (call : Nat)

def step (s : St σ S) : Act σ → Option (St σ S)
  | .acquire signal => some (acquire k s signal)
  | .release holder =>
      if holder ∈ s.held then
        match release k s with
        | .ok s' => some { s' with held := s'.held.erase holder }
        | .error _ => none
      else none
  | .abort sig =>
      if sig ∈ s.aborted then none
      else
        let calls := (s.waiters.filter (·.signal = some sig)).map Waiter.call
        some { s with
          aborted := sig :: s.aborted
          due := s.due ++ calls
          hit := s.hit ++ calls }
  | .notify call =>
      if call ∈ s.due then some (onAbort k { s with due := s.due.filter (· ≠ call) } call)
      else none

end

end Blamejs.Semaphore
