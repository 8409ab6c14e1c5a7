import Mathlib.Data.List.Nodup
import Mathlib.Tactic.Common

/-!
# The latest write

A log of writes under keys, and rows that stand for it. A row lies under a joined key,
which is made of its own key; the rows follow the log when there is one for each key that
was last written a value, and it goes with that value. A write replaces what lies under
its joined key, so the rows keep following as long as nothing of another key lies there.
-/

namespace LatestWrite

variable {K J V W : Type*}

/-- A value or nothing is put under a key, or the keys of a class are dropped. -/
inductive Event (K V : Type*) where
  | put (k : K) (v : Option V)
  | drop (p : K → Bool)

section latest

variable [DecidableEq K]

/-- What was last put under a key, in a log that begins with the newest event. -/
def latest (k : K) : List (Event K V) → Option V
  | [] => none
  | .put k' v :: es => if k' = k then v else latest k es
  | .drop p :: es => if p k then none else latest k es

variable {k : K} {v : V} {es : List (Event K V)}

theorem put_of_latest (h : latest k es = some v) : .put k (some v) ∈ es := by
  induction es with
  | nil => cases h
  | cons e es ih =>
      cases e with
      | put k' v' =>
          rw [latest] at h
          split at h
          · next hk =>
              rw [hk, h]
              exact List.mem_cons_self
          · exact List.mem_cons_of_mem _ (ih h)
      | drop p =>
          rw [latest] at h
          split at h
          · cases h
          · exact List.mem_cons_of_mem _ (ih h)

end latest

/-- The rows, each under the joined key of its own key, go with what was last put under
the keys. -/
structure Follows [DecidableEq K] (join : K → J) (key : W → K) (goes : W → V → Prop)
    (rows : List (J × W)) (log : List (Event K V)) : Prop where
  nodup : (rows.map Prod.fst).Nodup
  joined : ∀ r ∈ rows, r.1 = join (key r.2)
  sound : ∀ r ∈ rows, ∃ v, latest (key r.2) log = some v ∧ goes r.2 v
  complete : ∀ k v, latest k log = some v → ∃ w, (join k, w) ∈ rows ∧ key w = k ∧ goes w v

variable [DecidableEq K] {join : K → J} {key : W → K} {goes : W → V → Prop}
variable {rows rows' : List (J × W)} {log : List (Event K V)} {k : K} {v : V} {w : W}

theorem follows_nil : Follows join key goes [] ([] : List (Event K V)) where
  nodup := List.nodup_nil
  joined r hr := absurd hr List.not_mem_nil
  sound r hr := absurd hr List.not_mem_nil
  complete k v h := nomatch h

/-- A value is put under a key, and nothing of another key lay under the joined one. -/
theorem Follows.put (h : Follows join key goes rows log) (hkey : key w = k) (hgoes : goes w v)
    (hapart : ∀ r ∈ rows, r.1 = join k → key r.2 = k) (hnodup : (rows'.map Prod.fst).Nodup)
    (hmem : ∀ r, r ∈ rows' ↔ r = (join k, w) ∨ (r ∈ rows ∧ r.1 ≠ join k)) :
    Follows join key goes rows' (.put k (some v) :: log) where
  nodup := hnodup
  joined r hr := by
    rcases (hmem r).mp hr with rfl | ⟨hr, -⟩
    · exact congrArg join hkey.symm
    · exact h.joined r hr
  sound r hr := by
    rcases (hmem r).mp hr with rfl | ⟨hr, hne⟩
    · exact ⟨v, by rw [latest, if_pos hkey.symm], hgoes⟩
    · obtain ⟨v', hlatest, hgoes'⟩ := h.sound r hr
      have hother : k ≠ key r.2 := fun hk => hne (by rw [h.joined r hr, hk])
      exact ⟨v', by rw [latest, if_neg hother, hlatest], hgoes'⟩
  complete k' v' hlatest := by
    rw [latest] at hlatest
    split at hlatest
    · next hk =>
        cases hlatest
        exact ⟨w, (hmem _).mpr (Or.inl (by rw [hk])), hkey.trans hk, hgoes⟩
    · next hk =>
        obtain ⟨w', hw', hkey', hgoes'⟩ := h.complete k' v' hlatest
        refine ⟨w', (hmem _).mpr (Or.inr ⟨hw', fun hjoin => hk ?_⟩), hkey', hgoes'⟩
        rw [← hapart _ hw' hjoin, hkey']

/-- What lies under a joined key goes, and it was of that key. -/
theorem Follows.erase (h : Follows join key goes rows log)
    (hapart : ∀ r ∈ rows, r.1 = join k → key r.2 = k) (hnodup : (rows'.map Prod.fst).Nodup)
    (hmem : ∀ r, r ∈ rows' ↔ r ∈ rows ∧ r.1 ≠ join k) :
    Follows join key goes rows' (.put k none :: log) where
  nodup := hnodup
  joined r hr := h.joined r ((hmem r).mp hr).1
  sound r hr := by
    obtain ⟨hr, hne⟩ := (hmem r).mp hr
    obtain ⟨v', hlatest, hgoes'⟩ := h.sound r hr
    have hother : k ≠ key r.2 := fun hk => hne (by rw [h.joined r hr, hk])
    exact ⟨v', by rw [latest, if_neg hother, hlatest], hgoes'⟩
  complete k' v' hlatest := by
    rw [latest] at hlatest
    split at hlatest
    · cases hlatest
    · next hk =>
        obtain ⟨w', hw', hkey', hgoes'⟩ := h.complete k' v' hlatest
        refine ⟨w', (hmem _).mpr ⟨hw', fun hjoin => hk ?_⟩, hkey', hgoes'⟩
        rw [← hapart _ hw' hjoin, hkey']

/-- The rows of a class of keys go. -/
theorem Follows.drop {p : K → Bool} (h : Follows join key goes rows log)
    (hnodup : (rows'.map Prod.fst).Nodup)
    (hmem : ∀ r, r ∈ rows' ↔ r ∈ rows ∧ p (key r.2) = false) :
    Follows join key goes rows' (.drop p :: log) where
  nodup := hnodup
  joined r hr := h.joined r ((hmem r).mp hr).1
  sound r hr := by
    obtain ⟨hr, hp⟩ := (hmem r).mp hr
    obtain ⟨v', hlatest, hgoes'⟩ := h.sound r hr
    exact ⟨v', by rw [latest, hp, if_neg Bool.false_ne_true, hlatest], hgoes'⟩
  complete k' v' hlatest := by
    rw [latest] at hlatest
    split at hlatest
    · cases hlatest
    · next hp =>
        obtain ⟨w', hw', hkey', hgoes'⟩ := h.complete k' v' hlatest
        exact ⟨w', (hmem _).mpr ⟨hw', by rw [hkey']; simpa using hp⟩, hkey', hgoes'⟩

end LatestWrite
