import Mathlib

/-!
# Windows of time

Times are cut into windows by the starts of these, one after the other, and each time knows the
number of its window. So the windows partition time, and a time is in the window of a number just
when this is its own.
-/

/-- The starts of windows, and the number of the window of a time. -/
structure TimeGrid where
  start : Int → Int
  start_lt : ∀ i, start i < start (i + 1)
  index : Int → Int
  start_le : ∀ t, start (index t) ≤ t
  lt_start : ∀ t, t < start (index t + 1)

namespace TimeGrid

variable (G : TimeGrid) {i j t u : Int}

theorem strictMono : StrictMono G.start := strictMono_int_of_lt_succ G.start_lt

/-- The window of a time is the only one that it is in. -/
theorem index_eq (h : G.start i ≤ t) (h' : t < G.start (i + 1)) : G.index t = i := by
  have hlow : i < G.index t + 1 := G.strictMono.lt_iff_lt.mp (h.trans_lt (G.lt_start t))
  have hhigh : G.index t < i + 1 := G.strictMono.lt_iff_lt.mp ((G.start_le t).trans_lt h')
  omega

theorem index_start (i : Int) : G.index (G.start i) = i :=
  G.index_eq (le_refl _) (G.start_lt i)

/-- Windows of one length, the first of them at some time. -/
def every (length first : Int) (h : 0 < length) : TimeGrid where
  start i := first + length * i
  start_lt i := by rw [Int.mul_add]; omega
  index t := (t - first) / length
  start_le t := by
    have := Int.mul_ediv_self_le (x := t - first) (Int.ne_of_gt h)
    omega
  lt_start t := by
    have := Int.lt_mul_ediv_self_add (x := t - first) h
    rw [Int.mul_add]
    omega

end TimeGrid
