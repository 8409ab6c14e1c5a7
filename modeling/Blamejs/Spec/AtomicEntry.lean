import Blamejs.Lib.Run
import Blamejs.Ref.MemoryCache
import Mathlib.Logic.Function.Basic

/-!
# A cache entry that is updated atomically

What `update` is for, both backends alike: the mutator is shown the live value
at the moment its decision takes effect. `Updates` is one such moment, and a
`Cell` is one key under many calls. What comes from outside is an `Input`: the
calls, the readings of their clocks and the other writes. `Cell.step` lets every
call take effect at some point between its beginning and its answer, by the last
reading of its clock, and give up only when others have written at least
`maxRetries` times in between.

An entry that has expired is none to a mutator, whether or not it is still
there; a mutator that deletes nothing may leave it.
-/

namespace Blamejs.AtomicEntry

open MemoryCache Run

variable {V D : Type}

/-- How a row keeps an expiry: `Infinity` as `Number.MAX_SAFE_INTEGER`. -/
def storedExpires (expiresAt : Millis) : Int := expiresAt.getD 9007199254740991

structure Entry (V : Type) where
  value : V
  expiresAt : Int

/-- The live value: null when absent or expired. -/
def live (now : Int) (entry : Option (Entry V)) : Option V :=
  (entry.filter fun e => now < e.expiresAt).map Entry.value

/-- The mutator applied to the live value, its decision carried out, and whether
anything was written. -/
inductive Updates (mutatorFn : Option V → Option (Decision V D)) (now : Int) (expiresAt : Millis)
    (entry : Option (Entry V)) : Updated V D → Bool → Option (Entry V) → Prop
  | threw (h : mutatorFn (live now entry) = none) :
      Updates mutatorFn now expiresAt entry .threw false entry
  | aborted {data : D} (h : mutatorFn (live now entry) = some (.abort data)) :
      Updates mutatorFn now expiresAt entry (.aborted data) false entry
  | deleted (h : mutatorFn (live now entry) = some .delete) :
      Updates mutatorFn now expiresAt entry .deleted true none
  | gone (h : mutatorFn (live now entry) = some .delete) (hnone : live now entry = none) :
      Updates mutatorFn now expiresAt entry .deleted false entry
  | updated {value : V} {ttlMs at_ : Option Millis}
      (h : mutatorFn (live now entry) = some (.commit value ttlMs at_)) :
      Updates mutatorFn now expiresAt entry (.updated value) true
        (some ⟨value, storedExpires (effExpires now ttlMs at_ expiresAt)⟩)

/-- The arguments of `update`. -/
structure Call (V D : Type) where
  mutatorFn : Option V → Option (Decision V D)
  expiresAt : Millis

inductive Answer (V D : Type) where
  | settled (u : Updated V D)
  | updateContention

def maxRetries : Nat := 5

/-- The other operations, as they change the entry. -/
inductive Write (V : Type) where
  | set (value : V) (expiresAt : Millis)
  | del
  | sweep (now : Int)
  | slide (now defaultTtlMs : Int)

def Write.run (entry : Option (Entry V)) : Write V → Option (Entry V)
  | .set value expiresAt => some ⟨value, storedExpires expiresAt⟩
  | .del => none
  | .sweep now => entry.filter fun e => now < e.expiresAt
  | .slide now defaultTtlMs =>
      entry.map fun e => if now < e.expiresAt then { e with expiresAt := now + defaultTtlMs } else e

/-- Whether there is anything for it to write. -/
def Write.hits (entry : Option (Entry V)) : Write V → Bool
  | .set _ _ => true
  | .del => entry.isSome
  | .sweep now => entry.any fun e => e.expiresAt ≤ now
  | .slide now _ => entry.any fun e => now < e.expiresAt

inductive Input (V D : Type) where
  | begin (w : Nat) (call : Call V D)
  | read (w : Nat) (now : Int)
  | other (write : Write V)

/-- A call that has begun, what its clock last read, and the number of writes since it
began. -/
structure Begun (V D : Type) where
  call : Call V D
  now : Option Int
  writes : Nat

/-- The entry of one key, the calls that have begun, and what they answered. -/
structure Cell (V D : Type) where
  entry : Option (Entry V)
  calls : Nat → Option (Begun V D)
  answers : List (Nat × Answer V D)

def Cell.init : Cell V D := ⟨none, fun _ => none, []⟩

/-- A write while a call is open. -/
def bump (b : Option (Begun V D)) : Option (Begun V D) :=
  b.map fun b => { b with writes := b.writes + 1 }

/-- The calls after something that wrote or did not. -/
def Cell.after (t : Cell V D) (wrote : Bool) : Nat → Option (Begun V D) :=
  if wrote then fun w => bump (t.calls w) else t.calls

inductive Move (V D : Type) where
  | input (i : Input V D)
  | update (w : Nat) (u : Updated V D) (wrote : Bool) (entry : Option (Entry V))
  | giveUp (w : Nat)

def Move.fromOutside : Move V D → Option (Input V D)
  | .input i => some i
  | _ => none

open Classical in
noncomputable def Cell.step (t : Cell V D) : Move V D → Option (Cell V D)
  | .input (.begin w call) =>
      if t.calls w = none then
        some { t with calls := Function.update t.calls w (some ⟨call, none, 0⟩) }
      else none
  | .input (.read w now) =>
      (t.calls w).map fun b =>
        { t with calls := Function.update t.calls w (some { b with now := some now }) }
  | .input (.other write) =>
      some { t with entry := write.run t.entry, calls := t.after (write.hits t.entry) }
  | .update w u wrote entry =>
      if ∃ b ∈ t.calls w, ∃ now ∈ b.now,
          Updates b.call.mutatorFn now b.call.expiresAt t.entry u wrote entry then
        some {
          entry := entry
          calls := Function.update (t.after wrote) w none
          answers := t.answers ++ [(w, .settled u)] }
      else none
  | .giveUp w =>
      if ∃ b ∈ t.calls w, maxRetries ≤ b.writes then
        some { t with
          calls := Function.update t.calls w none
          answers := t.answers ++ [(w, .updateContention)] }
      else none

end Blamejs.AtomicEntry
