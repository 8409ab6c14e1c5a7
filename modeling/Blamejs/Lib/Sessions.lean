import Mathlib.Tactic.Common

/-!
# Sessions in a log

Some events of a log open a session and some close it. `Apart` says that a session is
only opened when none is open; then a close stands between any two openings. Both it and
`isOpen` are read off the log from the front, so that a step that appends events has only
these to look at.
-/

namespace Sessions

variable {E : Type*} (opens closes : E → Bool)

/-- After an event. -/
def next (o : Bool) (e : E) : Bool := opens e || (o && !closes e)

/-- A session is open at the end. -/
def isOpen (o : Bool) : List E → Bool
  | [] => o
  | e :: es => isOpen (next opens closes o e) es

/-- No session is opened while another is. -/
def Apart (o : Bool) : List E → Prop
  | [] => True
  | e :: es => (opens e = true → o = false) ∧ Apart (next opens closes o e) es

variable {opens closes} {o : Bool} {es es' : List E}

theorem isOpen_append :
    isOpen opens closes o (es ++ es') = isOpen opens closes (isOpen opens closes o es) es' := by
  induction es generalizing o with
  | nil => rfl
  | cons e es ih => exact ih

theorem apart_append : Apart opens closes o (es ++ es') ↔
    Apart opens closes o es ∧ Apart opens closes (isOpen opens closes o es) es' := by
  induction es generalizing o with
  | nil => simp [Apart, isOpen]
  | cons e es ih => rw [List.cons_append, Apart, ih, Apart, isOpen, and_assoc]

theorem exists_close (h : isOpen opens closes true es = false) : ∃ e ∈ es, closes e = true := by
  induction es with
  | nil => cases h
  | cons e es ih =>
      cases hclose : closes e with
      | true => exact ⟨e, List.mem_cons_self, hclose⟩
      | false =>
          have hnext : next opens closes true e = true := by simp [next, hclose]
          rw [isOpen, hnext] at h
          obtain ⟨e', he', hclose'⟩ := ih h
          exact ⟨e', List.mem_cons_of_mem _ he', hclose'⟩

/-- Between two openings a session was closed. -/
theorem Apart.between {pre mid post : List E} {a b : E}
    (h : Apart opens closes o (pre ++ a :: mid ++ b :: post)) (ha : opens a = true)
    (hb : opens b = true) : ∃ e ∈ mid, closes e = true := by
  have hopen := (apart_append.mp h).2.1 hb
  rw [isOpen_append, isOpen, next, ha, Bool.true_or] at hopen
  exact exists_close hopen

/-- Events that open nothing keep sessions apart. -/
theorem apart_of_closed (h : ∀ e ∈ es, opens e = false) : Apart opens closes o es := by
  induction es generalizing o with
  | nil => exact trivial
  | cons e es ih =>
      refine ⟨fun ho => ?_, ih fun e' he' => h e' (List.mem_cons_of_mem _ he')⟩
      rw [h e List.mem_cons_self] at ho
      cases ho

/-- A session that is open after such events was open before, and none of them closed
it. -/
theorem open_of_closed (h : ∀ e ∈ es, opens e = false) (ho : isOpen opens closes o es = true) :
    o = true ∧ ∀ e ∈ es, closes e = false := by
  induction es generalizing o with
  | nil => exact ⟨ho, fun e he => nomatch he⟩
  | cons e es ih =>
      obtain ⟨hnext, hes⟩ := ih (fun e' he' => h e' (List.mem_cons_of_mem _ he')) ho
      rw [next, h e List.mem_cons_self, Bool.false_or, Bool.and_eq_true] at hnext
      exact ⟨hnext.1, List.forall_mem_cons.mpr ⟨by simpa using hnext.2, hes⟩⟩

end Sessions
