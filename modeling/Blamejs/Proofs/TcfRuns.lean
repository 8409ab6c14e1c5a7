import Blamejs.Spec.TcfSignal
import Mathlib.Algebra.Order.BigOperators.Group.List
import Mathlib.Data.List.Pairwise

/-!
# Runs of ids

The runs of a sorted list are its maximal intervals, so the entries that are written
for them are the cheapest that cover the ids: every run begins where some entry
begins, and a run of more than one id has a range entry there or another entry right
behind. That is why a vendor section never grows when it is parsed and written again.
-/

namespace Blamejs.IabTcf

open Blamejs.Js BitStream

/-! ## Sorted ids -/

theorem nodup_eraseDups (ids : List Nat) : ids.eraseDups.Nodup := by
  induction hlen : ids.length using Nat.strongRecOn generalizing ids with
  | _ n ih =>
      cases ids with
      | nil => simp
      | cons id ids =>
          rw [List.eraseDups_cons, List.nodup_cons]
          refine ⟨fun hmem => ?_, ih _ ?_ _ rfl⟩
          · rw [List.mem_eraseDups] at hmem
            have := (List.mem_filter.mp hmem).2
            simp at this
          · have := List.length_filter_le (fun b => !b == id) ids
            rw [List.length_cons] at hlen
            omega

theorem mem_sorted {ids : List Nat} {id : Nat} : id ∈ sorted ids ↔ id ∈ ids := by
  rw [sorted, List.mem_insertionSort, List.mem_eraseDups]

theorem sorted_lt (ids : List Nat) : (sorted ids).Pairwise (· < ·) := by
  have hle : (sorted ids).Pairwise (· ≤ ·) := List.pairwise_insertionSort (· ≤ ·) _
  have hnodup : (sorted ids).Nodup :=
    (List.perm_insertionSort (· ≤ ·) _).nodup_iff.mpr (nodup_eraseDups ids)
  exact hle.imp₂ (fun _ _ h hne => Nat.lt_of_le_of_ne h hne) hnodup

/-! ## Runs -/

def runIds (r : Nat × Nat) : List Nat := List.range' r.1 (r.2 + 1 - r.1)

theorem mem_runIds {r : Nat × Nat} {id : Nat} : id ∈ runIds r ↔ r.1 ≤ id ∧ id ≤ r.2 := by
  rw [runIds, List.mem_range'_1]
  omega

theorem flatMap_idRunsFrom {start stop : Nat} (h : start ≤ stop) (ids : List Nat) :
    (idRunsFrom start stop ids).flatMap runIds = runIds (start, stop) ++ ids := by
  induction ids generalizing start stop with
  | nil => simp [idRunsFrom]
  | cons id ids ih =>
      rw [idRunsFrom]
      split
      · next hnext =>
          have hsplit : runIds (start, id) = runIds (start, stop) ++ [id] := by
            rw [runIds, runIds, hnext]
            dsimp only
            rw [show stop + 1 + 1 - start = (stop + 1 - start) + 1 by omega, List.range'_concat]
            congr 2
            omega
          rw [ih (by omega), hsplit, List.append_assoc, List.singleton_append]
      · rw [List.flatMap_cons, ih (Nat.le_refl _)]
        simp [runIds]

theorem flatMap_idRuns (ids : List Nat) : (idRuns ids).flatMap runIds = ids := by
  cases ids with
  | nil => rfl
  | cons id ids =>
      rw [idRuns, flatMap_idRunsFrom (Nat.le_refl _)]
      simp [runIds]

/-- What is known of the runs of a list that continues a run. -/
theorem idRunsFrom_runs {start stop : Nat} (h : start ≤ stop) {ids : List Nat}
    (hids : (stop :: ids).Pairwise (· < ·)) :
    (∀ r ∈ idRunsFrom start stop ids, start ≤ r.1 ∧ r.1 ≤ r.2) ∧
    (idRunsFrom start stop ids).Pairwise (fun r r' => r.2 + 1 < r'.1) := by
  induction ids generalizing start stop with
  | nil => simp [idRunsFrom, h]
  | cons id ids ih =>
      obtain ⟨hlt, hids'⟩ := List.pairwise_cons.mp hids
      have hid := hlt id List.mem_cons_self
      rw [idRunsFrom]
      split
      · exact ih (by omega) hids'
      · next hgap =>
          obtain ⟨hruns, hpair⟩ := ih (Nat.le_refl id) hids'
          refine ⟨fun r hr => ?_, List.pairwise_cons.mpr ⟨fun r hr => ?_, hpair⟩⟩
          · rcases List.mem_cons.mp hr with rfl | hr
            · exact ⟨Nat.le_refl _, h⟩
            · have := hruns r hr
              omega
          · have := (hruns r hr).1
            dsimp only
            omega

theorem idRuns_runs {ids : List Nat} (hids : ids.Pairwise (· < ·)) :
    (∀ r ∈ idRuns ids, r.1 ≤ r.2) ∧ (idRuns ids).Pairwise (fun r r' => r.2 + 1 < r'.1) := by
  cases ids with
  | nil => simp [idRuns]
  | cons id ids =>
      obtain ⟨hruns, hpair⟩ := idRunsFrom_runs (Nat.le_refl id) hids
      exact ⟨fun r hr => (hruns r hr).2, hpair⟩

theorem mem_of_run {ids : List Nat} {r : Nat × Nat} (hr : r ∈ idRuns ids) {id : Nat}
    (hid : id ∈ runIds r) : id ∈ ids := by
  rw [← flatMap_idRuns ids]
  exact List.mem_flatMap.mpr ⟨r, hr, hid⟩

/-- Two runs are one, or there is a gap between them. -/
theorem runs_apart {ids : List Nat} (hids : ids.Pairwise (· < ·)) {r r' : Nat × Nat}
    (hr : r ∈ idRuns ids) (hr' : r' ∈ idRuns ids) (hne : r ≠ r') :
    r.2 + 1 < r'.1 ∨ r'.2 + 1 < r.1 := by
  let Apart (r r' : Nat × Nat) : Prop := r.2 + 1 < r'.1 ∨ r'.2 + 1 < r.1
  have : Std.Symm Apart := ⟨fun _ _ h => h.symm⟩
  have hpair : (idRuns ids).Pairwise Apart := (idRuns_runs hids).2.imp fun h => Or.inl h
  exact hpair.forall hr hr' hne

/-- The id before a run is not in the list. -/
theorem not_mem_before {ids : List Nat} (hids : ids.Pairwise (· < ·)) {r : Nat × Nat}
    (hr : r ∈ idRuns ids) {id : Nat} (hid : id + 1 = r.1) : id ∉ ids := by
  intro hmem
  rw [← flatMap_idRuns ids] at hmem
  obtain ⟨r', hr', hid'⟩ := List.mem_flatMap.mp hmem
  have hin := mem_runIds.mp hid'
  by_cases heq : r = r'
  · subst heq
    omega
  · have hle := (idRuns_runs hids).1 r hr
    have := runs_apart hids hr hr' heq
    omega

/-! ## What entries cost -/

def Entry.start : Entry → Nat
  | .single id => id
  | .range start _ => start

def Entry.width : Entry → Nat
  | .single _ => 17
  | .range _ _ => 33

theorem Entry.mem_ids {e : Entry} {id : Nat} :
    id ∈ e.ids ↔ e.start ≤ id ∧ match e with
      | .single id' => id ≤ id'
      | .range _ stop => id ≤ stop := by
  cases e with
  | single id' =>
      rw [Entry.ids, List.mem_singleton]
      dsimp only [Entry.start]
      omega
  | range start stop =>
      rw [Entry.ids, List.mem_range'_1]
      dsimp only [Entry.start]
      omega

/-- An entry has all ids between two of its own. -/
theorem Entry.mem_between {e : Entry} {id id' : Nat} (h : id ∈ e.ids) (hle : id' ≤ id)
    (hstart : e.start ≤ id') : id' ∈ e.ids := by
  have := Entry.mem_ids.mp h
  refine Entry.mem_ids.mpr ⟨hstart, ?_⟩
  cases e with
  | single _ => exact Nat.le_trans hle this.2
  | range _ _ => exact Nat.le_trans hle this.2

theorem width_le_sum {e : Entry} {entries : List Entry} (h : e ∈ entries) :
    e.width ≤ (entries.map Entry.width).sum :=
  List.le_sum_of_mem (List.mem_map.mpr ⟨e, h, rfl⟩)

theorem two_le_sum {e e' : Entry} {entries : List Entry} (h : e ∈ entries) (h' : e' ∈ entries)
    (hne : e ≠ e') : e.width + e'.width ≤ (entries.map Entry.width).sum := by
  induction entries with
  | nil => cases h
  | cons d entries ih =>
      rw [List.map_cons, List.sum_cons]
      rcases List.mem_cons.mp h with heq | hmem
      · rcases List.mem_cons.mp h' with heq' | hmem'
        · exact absurd (heq.trans heq'.symm) hne
        · rw [heq]
          exact Nat.add_le_add_left (width_le_sum hmem') _
      · rcases List.mem_cons.mp h' with heq' | hmem'
        · have := width_le_sum hmem
          rw [heq']
          omega
        · have := ih hmem hmem'
          omega

/-- The entries that begin in a run. -/
def inRun (r : Nat × Nat) (e : Entry) : Bool := r.1 ≤ e.start && e.start ≤ r.2

theorem runBits_le {entries : List Entry} {ids : List Nat} (hids : ids.Pairwise (· < ·))
    (hmem : ∀ id, id ∈ ids ↔ ∃ e ∈ entries, id ∈ e.ids) {r : Nat × Nat} (hr : r ∈ idRuns ids) :
    runBits r ≤ ((entries.filter (inRun r)).map Entry.width).sum := by
  have hle := (idRuns_runs hids).1 r hr
  -- an entry that has an id of the run begins in the run
  have hbegin : ∀ {e id}, e ∈ entries → id ∈ e.ids → r.1 ≤ id → r.1 ≤ e.start := by
    intro e id he hid hge
    by_contra hlt
    have hbefore : r.1 - 1 ∈ e.ids := Entry.mem_between hid (by omega) (by omega)
    exact @not_mem_before _ hids _ hr (r.1 - 1) (by omega) ((hmem _).mpr ⟨e, he, hbefore⟩)
  have hfilter : ∀ {e id}, e ∈ entries → id ∈ e.ids → r.1 ≤ id → id ≤ r.2 →
      e ∈ entries.filter (inRun r) := by
    intro e id he hid hge hle'
    have hstart := (Entry.mem_ids.mp hid).1
    refine List.mem_filter.mpr ⟨he, ?_⟩
    simp only [inRun, Bool.and_eq_true, decide_eq_true_eq]
    exact ⟨hbegin he hid hge, Nat.le_trans hstart hle'⟩
  have hfirst : r.1 ∈ ids := mem_of_run hr (mem_runIds.mpr ⟨Nat.le_refl _, hle⟩)
  obtain ⟨e, he, hide⟩ := (hmem _).mp hfirst
  have hmem_e := hfilter he hide (Nat.le_refl _) hle
  have hsum := width_le_sum hmem_e
  by_cases hone : r.1 = r.2
  · have hwidth : 17 ≤ e.width := by
      cases e <;> simp [Entry.width]
    rw [runBits, if_pos hone]
    omega
  rw [runBits, if_neg hone]
  cases e with
  | range start stop =>
      rw [Entry.width] at hsum
      omega
  | single id =>
      -- the next id of the run is another entry's
      obtain rfl : r.1 = id := List.mem_singleton.mp hide
      have hsecond : r.1 + 1 ∈ ids := mem_of_run hr (mem_runIds.mpr ⟨by omega, by omega⟩)
      obtain ⟨e', he', hide'⟩ := (hmem _).mp hsecond
      have hmem_e' := hfilter he' hide' (by omega) (by omega)
      have hne : Entry.single r.1 ≠ e' := by
        rintro rfl
        have := List.mem_singleton.mp hide'
        omega
      have htwo := two_le_sum hmem_e hmem_e' hne
      have hwidth : 17 ≤ e'.width := by
        cases e' <;> simp [Entry.width]
      rw [show (Entry.single r.1).width = 17 from rfl] at htwo
      omega

theorem sum_filter_split (weight : Entry → Nat) (p : Entry → Bool) (entries : List Entry) :
    (entries.map weight).sum = ((entries.filter p).map weight).sum +
      ((entries.filter fun e => !p e).map weight).sum := by
  induction entries with
  | nil => rfl
  | cons e entries ih =>
      cases hp : p e with
      | true => simp [hp, ih, Nat.add_assoc]
      | false =>
          simp [hp, ih]
          omega

/-- Intervals that do not meet cost no more than all entries, where each costs no more
than those that begin in it. -/
theorem sum_runs_le {weight : Entry → Nat} {cost : Nat × Nat → Nat} {runs : List (Nat × Nat)}
    {entries : List Entry} (hpair : runs.Pairwise fun r r' => r.2 + 1 < r'.1)
    (hcover : ∀ r ∈ runs, cost r ≤ ((entries.filter (inRun r)).map weight).sum) :
    (runs.map cost).sum ≤ (entries.map weight).sum := by
  induction runs generalizing entries with
  | nil => exact Nat.zero_le _
  | cons r runs ih =>
      obtain ⟨hgap, hpair⟩ := List.pairwise_cons.mp hpair
      have hfirst := hcover r List.mem_cons_self
      have hrest := @ih (entries.filter fun e => !inRun r e) hpair fun r' hr' => by
        have hkeep : (entries.filter fun e => !inRun r e).filter (inRun r') =
            entries.filter (inRun r') := by
          rw [List.filter_filter]
          refine List.filter_congr fun e _ => ?_
          have := hgap r' hr'
          by_cases hin : inRun r' e = true
          · have hout : inRun r e = false := by
              simp only [inRun, Bool.and_eq_true, decide_eq_true_eq] at hin
              simp only [inRun, Bool.and_eq_false_iff, decide_eq_false_iff_not]
              omega
            simp [hin, hout]
          · simp [hin]
        rw [hkeep]
        exact hcover r' (List.mem_cons_of_mem _ hr')
      rw [sum_filter_split weight (inRun r), List.map_cons, List.sum_cons]
      omega

section cover

variable {entries : List Entry} {ids : List Nat}
  (hmem : ∀ id, id ∈ ids ↔ ∃ e ∈ entries, id ∈ e.ids)

include hmem

/-- The entries that are written for what some entries cover are no wider. -/
theorem runsWidth_le : runsWidth ids ≤ (entries.map Entry.width).sum :=
  sum_runs_le (idRuns_runs (sorted_lt _)).2 fun _ hr =>
    runBits_le (sorted_lt _) (fun id => mem_sorted.trans (hmem id)) hr

/-- And they are no more. -/
theorem length_idRuns_le : (idRuns (sorted ids)).length ≤ entries.length := by
  have hone := @sum_runs_le (fun _ => 1) (fun _ => 1) _ entries
    (idRuns_runs (sorted_lt ids)).2 fun r hr => by
      have hbits := runBits_le (sorted_lt ids) (fun id => mem_sorted.trans (hmem id)) hr
      cases hfilter : entries.filter (inRun r) with
      | nil =>
          rw [hfilter, runBits] at hbits
          simp at hbits
      | cons e es => simp
  simpa using hone

end cover

end Blamejs.IabTcf
