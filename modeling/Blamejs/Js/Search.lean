import Blamejs.Js.Text

/-!
# `indexOf`

Where a text first stands in another, and how the text splits there.
-/

namespace Blamejs.Js

/-- Where `pat` first stands in a text. -/
def search (pat : JsString) : JsString → Option Nat
  | [] => none
  | c :: rest => if pat.isPrefixOf (c :: rest) then some 0 else (search pat rest).map (· + 1)

theorem search_some {pat t : JsString} {n : Nat} (h : search pat t = some n) :
    ∃ before rest, t = before ++ (pat ++ rest) ∧ before.length = n ∧
      ∀ k < n, ¬ pat <+: t.drop k := by
  induction t generalizing n with
  | nil => cases h
  | cons c t ih =>
      rw [search] at h
      split at h
      · next hp =>
          obtain rfl := Option.some_inj.mp h
          obtain ⟨rest, hrest⟩ := List.isPrefixOf_iff_prefix.mp hp
          exact ⟨[], rest, hrest.symm, rfl, fun k hk => absurd hk (Nat.not_lt_zero k)⟩
      · next hp =>
          obtain ⟨m, hm, rfl⟩ := Option.map_eq_some_iff.mp h
          obtain ⟨before, rest, ht, hlen, hfirst⟩ := ih hm
          refine ⟨c :: before, rest, by rw [ht]; rfl, by rw [List.length_cons, hlen], ?_⟩
          intro k hk
          cases k with
          | zero => exact fun h => hp (List.isPrefixOf_iff_prefix.mpr h)
          | succ k => exact hfirst k (by omega)

theorem search_none {pat t : JsString} (hne : pat ≠ []) (h : search pat t = none) (k : Nat) :
    ¬ pat <+: t.drop k := by
  induction t generalizing k with
  | nil =>
      rw [List.drop_nil]
      exact fun h => hne (List.prefix_nil.mp h)
  | cons c t ih =>
      rw [search] at h
      split at h
      · cases h
      · next hp =>
          cases k with
          | zero => exact fun h => hp (List.isPrefixOf_iff_prefix.mpr h)
          | succ k => exact ih (Option.map_eq_none_iff.mp h) k

theorem search_unit_none {u : UInt16} {t : JsString} (h : search [u] t = none) : u ∉ t := by
  intro hu
  obtain ⟨a, b, rfl⟩ := List.append_of_mem hu
  refine search_none (List.cons_ne_nil _ _) h a.length ?_
  rw [List.drop_left]
  exact ⟨b, rfl⟩

/-- The text up to a unit that it does not hold is found by its length. -/
theorem search_unit {u : UInt16} {w rest : JsString} (hw : u ∉ w) :
    search [u] (w ++ u :: rest) = some w.length := by
  induction w with
  | nil => exact if_pos (by simp)
  | cons c w ih =>
      have hc : ¬ ([u].isPrefixOf (c :: (w ++ u :: rest))) = true := by
        simp only [List.isPrefixOf, Bool.and_true, beq_iff_eq]
        rintro rfl
        exact hw List.mem_cons_self
      rw [List.cons_append, search, if_neg hc, ih fun h => hw (List.mem_cons_of_mem _ h)]
      rfl

theorem search_unit_some {u : UInt16} {t : JsString} {n : Nat} (h : search [u] t = some n) :
    ∃ w rest, t = w ++ u :: rest ∧ u ∉ w ∧ w.length = n := by
  obtain ⟨w, rest, rfl, hlen, hfirst⟩ := search_some h
  refine ⟨w, rest, rfl, fun hu => ?_, hlen⟩
  obtain ⟨a, b, rfl⟩ := List.append_of_mem hu
  rw [List.length_append, List.length_cons] at hlen
  refine hfirst a.length (by omega) ?_
  rw [List.append_assoc, List.drop_left]
  exact ⟨b ++ ([u] ++ rest), rfl⟩

/-- A unit splits a text in one way only, when what stands before it does not hold it. -/
theorem split_unique {u : UInt16} {a b c d : JsString} (h : a ++ u :: b = c ++ u :: d)
    (ha : u ∉ a) (hc : u ∉ c) : a = c ∧ b = d := by
  have hlen : a.length = c.length := by
    have hsearch := @search_unit u a b ha
    rw [h, search_unit hc] at hsearch
    exact (Option.some_inj.mp hsearch).symm
  obtain ⟨rfl, htail⟩ := List.append_inj h hlen
  exact ⟨rfl, (List.cons_eq_cons.mp htail).2⟩

end Blamejs.Js
