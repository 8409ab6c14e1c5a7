import Mathlib.Data.List.Nodup

/-!
# Rows and statements

A table is the list of its rows and a statement is one function on it. `update`
is `UPDATE … SET f WHERE p`, `rowCount` how many rows it matches. Rows carry a
key no statement assigns, and with distinct keys two rows of one key are the
same row.
-/

namespace Table

variable {R K : Type*}

/-- `UPDATE t SET f WHERE p`. -/
def update (p : R → Bool) (f : R → R) (t : List R) : List R :=
  t.map fun r => if p r then f r else r

/-- The number of rows a statement with the condition `p` touches. -/
def rowCount (p : R → Bool) (t : List R) : Nat := t.countP p

variable {p : R → Bool} {f : R → R} {t : List R}

theorem mem_update {r' : R} : r' ∈ update p f t ↔ ∃ r ∈ t, r' = if p r then f r else r := by
  rw [update, List.mem_map]
  exact exists_congr fun r => and_congr_right fun _ => eq_comm

/-- What holds of every row after an update: of the touched ones by what was
assigned, of the others because it held. -/
theorem forall_update {P : R → Prop} (htouched : ∀ r ∈ t, p r = true → P (f r))
    (hother : ∀ r ∈ t, p r = false → P r) : ∀ r ∈ update p f t, P r := by
  intro r' hr'
  obtain ⟨r, hr, rfl⟩ := mem_update.mp hr'
  cases hp : p r with
  | true => exact htouched r hr hp
  | false => exact hother r hr hp

/-- Every row is still there, touched or as it was. -/
theorem mem_update_of_mem {r : R} (h : r ∈ t) : (if p r then f r else r) ∈ update p f t :=
  mem_update.mpr ⟨r, h, rfl⟩

theorem mem_update_touched {r : R} (h : r ∈ t) (hp : p r = true) : f r ∈ update p f t := by
  have := mem_update_of_mem (f := f) h (p := p)
  rwa [if_pos hp] at this

theorem mem_update_other {r : R} (h : r ∈ t) (hp : p r = false) : r ∈ update p f t :=
  mem_update.mpr ⟨r, h, by rw [hp]; rfl⟩

/-- A column no statement assigns keeps its values. -/
theorem map_update {key : R → K} (h : ∀ r, key (f r) = key r) :
    (update p f t).map key = t.map key := by
  rw [update, List.map_map]
  refine List.map_congr_left fun r _ => ?_
  show key (if p r then f r else r) = key r
  split
  · exact h r
  · rfl

theorem nodup_update {key : R → K} (hkeys : (t.map key).Nodup) (h : ∀ r, key (f r) = key r) :
    ((update p f t).map key).Nodup := by
  rw [map_update h]
  exact hkeys

theorem update_eq_self (h : ∀ r ∈ t, p r = false) : update p f t = t := by
  refine (List.map_congr_left fun r hr => ?_).trans (List.map_id t)
  rw [h r hr]
  rfl

theorem rowCount_eq_zero : rowCount p t = 0 ↔ ∀ r ∈ t, p r = false := by
  rw [rowCount, List.countP_eq_zero]
  exact forall_congr' fun r => imp_congr_right fun _ => by rw [Bool.not_eq_true]

theorem rowCount_pos : 0 < rowCount p t ↔ ∃ r ∈ t, p r = true := List.countP_pos_iff

/-- Two rows of one key are one row. -/
theorem row_unique {key : R → K} (hkeys : (t.map key).Nodup) {r r' : R} (hr : r ∈ t)
    (hr' : r' ∈ t) (h : key r = key r') : r = r' :=
  List.inj_on_of_nodup_map hkeys hr hr' h

end Table
