import Mathlib

/-!
# Entries that expire

A finite map from keys to the time each entry expires at: the time itself is
past. `live` is what a reader who compares the time sees, `purge` deletes what it
does not. A purge is invisible to such a reader, then and later; to one who looks
the key up it is not.
-/

namespace Expiry

variable {K T : Type*}

section lookup

variable [DecidableEq K] {k k' : K} {t : T} {m : AList fun _ : K => T}

theorem lookup_insert : (m.insert k' t).lookup k = if k = k' then some t else m.lookup k := by
  split
  · next h =>
      subst h
      exact AList.lookup_insert m
  · next h => exact AList.lookup_insert_ne h

theorem lookup_erase : (m.erase k').lookup k = if k = k' then none else m.lookup k := by
  split
  · next h =>
      subst h
      exact AList.lookup_erase k m
  · next h => exact AList.lookup_erase_ne h

end lookup

variable [LinearOrder T]

/-- The entries that have not expired. -/
def purge (now : T) (m : AList fun _ : K => T) : AList fun _ : K => T :=
  ⟨m.entries.filter fun e => now < e.2, m.nodupKeys.sublist List.filter_sublist⟩

variable [DecidableEq K] {now now' t : T} {k : K} {m : AList fun _ : K => T}

/-- The expiry of a key that has not expired. -/
def live (now : T) (m : AList fun _ : K => T) (k : K) : Option T :=
  (m.lookup k).filter fun t => now < t

theorem live_eq_some : live now m k = some t ↔ m.lookup k = some t ∧ now < t := by
  simp [live, Option.filter_eq_some_iff]

theorem live_eq_none : live now m k = none ↔ ∀ t, m.lookup k = some t → t ≤ now := by
  simp [live, Option.filter_eq_none_iff]

theorem lookup_purge : (purge now m).lookup k = live now m k := by
  refine Option.ext fun t => ?_
  rw [live_eq_some, ← Option.mem_def, ← Option.mem_def, AList.mem_lookup_iff,
    AList.mem_lookup_iff]
  simp [purge]

end Expiry
