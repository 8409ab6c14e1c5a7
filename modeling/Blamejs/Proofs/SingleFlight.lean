import Blamejs.Ref.SingleFlight
import Blamejs.Lib.Run
import Mathlib.Data.List.Basic

/-!
# One computation in flight

A computation is in the entry of the key from its start to its callbacks, so that nobody
starts another one beside it. The callbacks delete by key, though: those of a computation
that was started before a clear take the entry of one that was started after it. `Timely`
is the condition that no callbacks come that late, and under it the computations that are
not through since the last clear are just the one in the entry.

What a caller gets is the outcome of the computation it joined, in every run: an outcome
never changes once it is there.
-/

namespace Blamejs.SingleFlight

open Run

variable {V E : Type} {s s' : St V E}

/-- Not settled. -/
def Flight.Running (f : Flight V E) : Prop := f.outcome = none

/-- Callbacks still to come. -/
def Flight.Pending : Flight V E → Prop
  | .done _ => False
  | _ => True

theorem Flight.Running.pending {f : Flight V E} (h : f.Running) : f.Pending := by
  cases f with
  | done outcome => cases h
  | _ => trivial

/-- The callbacks of a computation do not find another one in the entry. -/
def Timely (s : St V E) : Act V E → Prop
  | .callback n => ∀ m ∈ s.inflight, m = n
  | _ => True

/-- Of the computations started since the last clear, at most one is running. -/
def OneRuns (s : St V E) : Prop :=
  ∀ m n f g, s.cleared ≤ m → s.cleared ≤ n → s.flights[m]? = some f → s.flights[n]? = some g →
    f.Running → g.Running → m = n

/-- A caller has the outcome of the computation it joined. -/
def Delivered (s : St V E) : Prop :=
  ∀ n outcome, Caller.answered n outcome ∈ s.callers →
    s.flights[n]?.bind Flight.outcome = some outcome

/-! ## Flights -/

/-- What is pending since the last clear is in the entry. -/
def InEntry (s : St V E) : Prop :=
  ∀ n f, s.cleared ≤ n → s.flights[n]? = some f → f.Pending → s.inflight = some n

theorem InEntry.oneRuns (h : InEntry s) : OneRuns s := by
  intro m n f g hm hn hf hg hrunf hrung
  have hentry := h m f hm hf hrunf.pending
  rw [h n g hn hg hrung.pending, Option.some.injEq] at hentry
  exact hentry.symm

/-- A change of a pending computation. -/
theorem InEntry.set (h : InEntry s) {n : Nat} {f g : Flight V E} (hf : s.flights[n]? = some f)
    (hpending : f.Pending) : InEntry { s with flights := s.flights.set n g } := by
  intro m f' hm hf' hpending'
  dsimp only at hf'
  rw [List.getElem?_set] at hf'
  split at hf'
  · next heq =>
      subst heq
      exact h n f hm hf hpending
  · exact h m f' hm hf' hpending'

theorem InEntry.start (h : InEntry s) (hnone : s.inflight = none) (c : Nat) (stores : Bool) :
    InEntry (resume s c stores) := by
  rw [resume, hnone]
  intro n f hn hf hpending
  dsimp only at hn hf ⊢
  rw [List.getElem?_append] at hf
  split at hf
  · have hentry := h n f hn hf hpending
    rw [hnone] at hentry
    cases hentry
  · next hle =>
      have hlt := (List.getElem?_eq_some_iff.mp hf).1
      rw [List.length_singleton] at hlt
      congr 1
      omega

theorem InEntry.callback (h : InEntry s) {n : Nat} {outcome : Except E V}
    (htimely : ∀ m ∈ s.inflight, m = n) :
    InEntry { s with flights := s.flights.set n (.done outcome), inflight := none } := by
  intro m f hm hf' hpending
  dsimp only at hm hf'
  rw [List.getElem?_set] at hf'
  split at hf'
  · next heq =>
      split at hf'
      · cases hf'
        exact hpending.elim
      · cases hf'
  · next hne =>
      have hentry := h m f hm hf' hpending
      exact absurd (htimely m hentry).symm hne

theorem step_inEntry {a : Act V E} (h : InEntry s) (htimely : Timely s a)
    (hs : step s a = some s') : InEntry s' := by
  cases a with
  | wrap stores =>
      cases hs
      exact h
  | resume c =>
      rw [step] at hs
      split at hs
      · cases hs
        cases hentry : s.inflight with
        | none => exact h.start hentry c _
        | some n =>
            have hjoin : ∀ stores, resume s c stores =
                { s with callers := s.callers.set c (.joined n) } := fun _ => by
              simp only [resume, hentry]
            rw [hjoin]
            exact h
      · cases hs
  | computed n outcome =>
      rw [step] at hs
      split at hs
      · next hf =>
          cases hs
          exact h.set hf trivial
      · cases hs
  | stored n =>
      rw [step] at hs
      split at hs
      · next hf =>
          cases hs
          exact h.set hf trivial
      · cases hs
  | callback n =>
      rw [step] at hs
      split at hs
      · cases hs
        exact h.callback htimely
      · cases hs
  | answer c =>
      rw [step] at hs
      split at hs
      · obtain ⟨outcome, -, rfl⟩ := Option.map_eq_some_iff.mp hs
        exact h
      · cases hs
  | clear =>
      cases hs
      intro n f hn hf hpending
      have hlt := (List.getElem?_eq_some_iff.mp hf).1
      exact absurd hlt (Nat.not_lt.mpr hn)

/-! ## Callers -/

/-- An outcome that is there stays. -/
def Keeps (flights flights' : List (Flight V E)) : Prop :=
  ∀ (n : Nat) (outcome : Except E V), flights[n]?.bind Flight.outcome = some outcome →
    flights'[n]?.bind Flight.outcome = some outcome

theorem keeps_append (flights more : List (Flight V E)) : Keeps flights (flights ++ more) := by
  intro n outcome h
  obtain ⟨f, hf, houtcome⟩ := Option.bind_eq_some_iff.mp h
  have hlt := (List.getElem?_eq_some_iff.mp hf).1
  rw [List.getElem?_append_left hlt, hf]
  exact houtcome

theorem keeps_set {flights : List (Flight V E)} {n : Nat} {f g : Flight V E}
    (hf : flights[n]? = some f) (h : ∀ outcome, f.outcome = some outcome →
      g.outcome = some outcome) : Keeps flights (flights.set n g) := by
  intro m outcome hm
  rw [List.getElem?_set]
  split
  · next heq =>
      subst heq
      have hlt := (List.getElem?_eq_some_iff.mp hf).1
      rw [if_pos hlt]
      rw [hf] at hm
      exact h outcome hm
  · exact hm

theorem Delivered.keeps (h : Delivered s) (hflights : Keeps s.flights s'.flights)
    (hcallers : ∀ n outcome, Caller.answered n outcome ∈ s'.callers →
      Caller.answered n outcome ∈ s.callers) : Delivered s' :=
  fun n outcome hmem => hflights n outcome (h n outcome (hcallers n outcome hmem))

/-- A caller that only joins leaves the answers as they are. -/
theorem answered_of_set {callers : List (Caller V E)} {c m n : Nat} {outcome : Except E V}
    (h : Caller.answered n outcome ∈ callers.set c (.joined m)) :
    Caller.answered n outcome ∈ callers := by
  rcases List.mem_or_eq_of_mem_set h with h | h
  · exact h
  · cases h

theorem step_delivered {a : Act V E} (h : Delivered s) (hs : step s a = some s') :
    Delivered s' := by
  cases a with
  | wrap stores =>
      cases hs
      refine h.keeps (fun _ _ ho => ho) fun n outcome hmem => ?_
      rcases List.mem_append.mp hmem with hmem | hmem
      · exact hmem
      · cases List.mem_singleton.mp hmem
  | resume c =>
      rw [step] at hs
      split at hs
      · cases hs
        rw [resume]
        split
        · exact h.keeps (fun _ _ ho => ho) fun _ _ => answered_of_set
        · exact h.keeps (keeps_append _ _) fun _ _ => answered_of_set
      · cases hs
  | computed n outcome =>
      rw [step] at hs
      split at hs
      · next hf =>
          cases hs
          exact h.keeps (keeps_set hf fun _ ho => by cases ho) fun _ _ hmem => hmem
      · cases hs
  | stored n =>
      rw [step] at hs
      split at hs
      · next hf =>
          cases hs
          exact h.keeps (keeps_set hf fun _ ho => by cases ho) fun _ _ hmem => hmem
      · cases hs
  | callback n =>
      rw [step] at hs
      split at hs
      · next hf =>
          cases hs
          exact h.keeps (keeps_set hf fun _ ho => ho) fun _ _ hmem => hmem
      · cases hs
  | answer c =>
      rw [step] at hs
      split at hs
      · obtain ⟨outcome, houtcome, rfl⟩ := Option.map_eq_some_iff.mp hs
        intro n outcome' hmem
        rcases List.mem_or_eq_of_mem_set hmem with hmem | hmem
        · exact h n outcome' hmem
        · cases hmem
          exact houtcome
      · cases hs
  | clear =>
      cases hs
      exact h.keeps (fun _ _ ho => ho) fun _ _ hmem => hmem

/-! ## Runs -/

/-- In a run whose callbacks are timely, at most one of the computations started since the
last clear is running; in every run a caller that joined a computation gets its outcome
and nothing else, as soon as it is there. -/
theorem single_flight (s : St V E) :
    (Reach step Timely (St.init V E) s → OneRuns s) ∧
    (Reach step Always (St.init V E) s → Delivered s ∧
      ∀ c n f outcome, s.callers[c]? = some (.joined n) → s.flights[n]? = some f →
        f.outcome = some outcome →
        step s (.answer c) = some { s with callers := s.callers.set c (.answered n outcome) }) := by
  refine ⟨fun h => ?_, fun h => ⟨?_, fun c n f outcome hc hf houtcome => ?_⟩⟩
  · have hinit : InEntry (St.init V E) := fun n f _ hf => nomatch hf
    exact (h.invariant hinit fun _ _ _ => step_inEntry).oneRuns
  · have hinit : Delivered (St.init V E) := fun n outcome hmem => nomatch hmem
    exact h.invariant hinit fun _ _ _ hdelivered _ => step_delivered hdelivered
  · simp [step, hc, hf, houtcome]

/-- A clear while nothing is in flight, and a second computation behind the first. -/
theorem single_flight_twice : ∃ s : St Nat Unit, Reach step Timely (St.init Nat Unit) s ∧
    s.flights.length = 2 ∧ OneRuns s ∧ Delivered s := by
  have hrun : ∃ s : St Nat Unit, exec step (St.init Nat Unit)
      [.wrap true, .resume 0, .computed 0 (.ok 7), .stored 0, .callback 0, .answer 0, .clear,
        .wrap true, .resume 1] = some s ∧ s.flights.length = 2 := ⟨_, rfl, rfl⟩
  obtain ⟨s, hexec, hlength⟩ := hrun
  have hreach : Reach step Timely (St.init Nat Unit) s :=
    reach_of_meets [.wrap true, .resume 0, .computed 0 (.ok 7), .stored 0, .callback 0, .answer 0,
      .clear, .wrap true, .resume 1]
      ⟨trivial, trivial, trivial, trivial, fun m hm => (Option.some.inj hm).symm, trivial,
        trivial, trivial, trivial, trivial⟩ hexec
  exact ⟨s, hreach, hlength, (single_flight s).1 hreach, ((single_flight s).2 hreach.always).1⟩

/-- The computation from before a clear ends and takes the entry of the one after it, so
that a third one starts beside that. -/
theorem two_run : ∃ s : St Nat Unit, Reach step Always (St.init Nat Unit) s ∧ ¬ OneRuns s := by
  have hrun : ∃ s : St Nat Unit, exec step (St.init Nat Unit)
      [.wrap true, .wrap true, .wrap true, .resume 0, .clear, .resume 1, .computed 0 (.ok 7),
        .stored 0, .callback 0, .resume 2] = some s ∧
      s = ⟨[.done (.ok 7), .computing true, .computing true], some 2,
        [.joined 0, .joined 1, .joined 2], 1⟩ := ⟨_, rfl, rfl⟩
  obtain ⟨s, hexec, rfl⟩ := hrun
  refine ⟨_, reach_of_exec _ hexec, fun h => ?_⟩
  have heq := h 1 2 _ _ (Nat.le_refl 1) (by decide) rfl rfl rfl rfl
  cases heq

end Blamejs.SingleFlight
