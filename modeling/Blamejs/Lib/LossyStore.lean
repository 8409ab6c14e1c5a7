import Mathlib.Logic.Function.Basic
import Mathlib.Tactic.Common

/-!
# Stores that may forget

A store of values under keys which may lose entries in any of its operations, may
leave an operation undone, and may throw. What it never does is answer with a value
that was not put under that key. So what holds of every value when it is put in
holds of every value that comes out.
-/

namespace LossyStore

variable {K V : Type*}

/-- What becomes of one operation. -/
structure Fate (K : Type*) where
  throws : Bool
  /-- A write or a removal is carried out. -/
  applies : Bool
  evicts : K → Bool

/-- An operation that does what it is asked for, and nothing else. -/
def Fate.plain : Fate K := ⟨false, true, fun _ => false⟩

abbrev Store (K V : Type*) := K → Option V

def empty : Store K V := fun _ => none

/-- What is left when the entries of the fate are evicted. -/
def kept (f : Fate K) (s : Store K V) : Store K V := fun k => if f.evicts k then none else s k

/-- The value found, none also where the store throws, and the store after. -/
def get (f : Fate K) (s : Store K V) (k : K) : Option V × Store K V :=
  (if f.throws then none else kept f s k, kept f s)

section writes

variable [DecidableEq K]

def set (f : Fate K) (s : Store K V) (k : K) (v : V) : Store K V :=
  kept f (if f.applies then Function.update s k (some v) else s)

def delete (f : Fate K) (s : Store K V) (k : K) : Store K V :=
  kept f (if f.applies then Function.update s k none else s)

end writes

def clear (f : Fate K) (s : Store K V) : Store K V := kept f (if f.applies then empty else s)

/-- Every entry has the property. -/
def Holds (P : K → V → Prop) (s : Store K V) : Prop := ∀ k v, s k = some v → P k v

variable {P Q : K → V → Prop} {f : Fate K} {s : Store K V} {k : K} {v : V}

theorem holds_empty : Holds P empty := fun _ _ h => nomatch h

theorem Holds.mono (h : Holds P s) (himp : ∀ k v, P k v → Q k v) : Holds Q s :=
  fun k v hv => himp k v (h k v hv)

theorem Holds.kept (h : Holds P s) : Holds P (kept f s) := by
  intro k v hv
  unfold LossyStore.kept at hv
  split at hv
  · cases hv
  · exact h k v hv

/-- What a read finds, and what it leaves. -/
theorem Holds.get {o : Option V} {s' : Store K V} (h : Holds P s) (hget : get f s k = (o, s')) :
    Holds P s' ∧ ∀ v, o = some v → P k v := by
  obtain ⟨rfl, rfl⟩ := Prod.mk.inj hget
  refine ⟨h.kept, fun v hv => ?_⟩
  split at hv
  · cases hv
  · exact h.kept k v hv

variable [DecidableEq K]

theorem Holds.update {o : Option V} (h : Holds P s) (ho : ∀ v, o = some v → P k v) :
    Holds P (Function.update s k o) := by
  intro k' v hv
  rcases eq_or_ne k' k with rfl | hne
  · rw [Function.update_self] at hv
    exact ho v hv
  · rw [Function.update_of_ne hne] at hv
    exact h k' v hv

theorem Holds.set (h : Holds P s) (hv : P k v) : Holds P (set f s k v) := by
  refine Holds.kept ?_
  split
  · exact h.update fun w hw => Option.some.inj hw ▸ hv
  · exact h

theorem Holds.delete (h : Holds P s) : Holds P (delete f s k) := by
  refine Holds.kept ?_
  split
  · exact h.update fun w hw => nomatch hw
  · exact h

omit [DecidableEq K] in
theorem Holds.clear (h : Holds P s) : Holds P (clear f s) := by
  refine Holds.kept ?_
  split
  · exact holds_empty
  · exact h

end LossyStore
