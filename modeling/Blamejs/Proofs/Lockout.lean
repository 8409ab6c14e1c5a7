import Blamejs.Ref.Lockout
import Blamejs.Lib.Run
import Mathlib.Data.List.Chain
import Mathlib.Data.Rat.Cast.Order
import Mathlib.Tactic.Linarith
import Mathlib.Tactic.Ring

/-!
# What ends in a lock, and for how long

`recordFailure_cases` says once what a failure does. A forced lock outlives everything but
`unlock` and another `lock`, since its entry lives for the window longer than it. The
attempts of an unlocked record are at least the failures that were recorded since, as long
as each comes before the entry of the one before it expires; `lock` starts them again, and
so does a gap of just the window, at the end of which the entry is gone.
-/

namespace Blamejs.Lockout

open Run

variable {o : Opts} {s s' : St}

/-! ## The record -/

theorem state_of_alive {e : Entry} (he : s.entry = some e) (h : (s.now : Rat) < e.expiresAt) :
    s.state = some e.value := by
  simp [St.state, he, Option.filter, h]

theorem entry_of_state {state : State} (h : s.state = some state) :
    ∃ e, s.entry = some e ∧ e.value = state := by
  obtain ⟨e, he, rfl⟩ := Option.map_eq_some_iff.mp h
  exact ⟨e, (Option.filter_eq_some_iff.mp he).1, rfl⟩

/-- The number of the last lock on the record. -/
def St.lockNumber (s : St) : Nat := (s.state.map State.lockNumber).getD 0

/-- Failures that were recorded. -/
def failures (events : List Event) : List Nat :=
  events.filterMap fun
    | .recorded now => some now
    | _ => none

/-- How many locks there were. -/
def locks (events : List Event) : Nat :=
  events.countP fun
    | .engaged _ _ _ _ => true
    | _ => false

theorem failures_append (es es' : List Event) :
    failures (es ++ es') = failures es ++ failures es' := List.filterMap_append

theorem locks_append (es es' : List Event) : locks (es ++ es') = locks es + locks es' :=
  List.countP_append

/-! ## One step -/

/-- The attempts that a failure finds on the record. -/
def attemptsBefore (o : Opts) (s : St) : Nat :=
  ((s.state.map (decayed o s.now)).map State.attempts).getD 0

theorem decayed_lockNumber (now : Nat) (state : State) :
    (decayed o now state).lockNumber = state.lockNumber := by
  unfold decayed
  split
  · split <;> rfl
  · rfl

theorem resolveDuration_nonneg {durations : Durations} {n : Nat} {d : Rat}
    (h : resolveDuration durations n = .ok d) : 0 ≤ d := by
  cases durations with
  | fn durations =>
      rw [resolveDuration] at h
      split at h
      · split at h
        · cases h
        · next hneg =>
            cases h
            exact not_lt.mp hneg
      · cases h
  | array durations nonempty nonneg =>
      cases h
      rw [List.getD_eq_getElem?_getD]
      cases hd : durations[min (n - 1) (durations.length - 1)]? with
      | none => exact le_refl 0
      | some d => exact nonneg d (List.mem_of_getElem? hd)

/-- The entry of a lock lives for the window longer than it. -/
theorem lockTtl {now window : Nat} {d : Rat} (hd : 0 ≤ d) :
    (now : Rat) + (if (now : Rat) + d ≠ 0 then now + d - now + window else window) =
      now + d + window := by
  split
  · ring
  · next hzero =>
      have hnow : (0 : Rat) ≤ now := Nat.cast_nonneg now
      have hd0 : d = 0 := by linarith [not_not.mp hzero]
      rw [hd0, add_zero]

/-- What a failure can do. -/
inductive Recorded (o : Opts) (s : St) : St → Prop
  | duringLock {state : State} {lockedUntil : Rat} (hstate : s.state = some state)
      (hlocked : state.lockedAfter s.now = some lockedUntil) :
      Recorded o s { s with log := s.log ++ [.duringLock s.now] }
  | rejected (e : Err) : Recorded o s { s with log := s.log ++ [.rejected e] }
  | engaged {duration : Rat} {value : State}
      (hduration : resolveDuration o.lockoutDurations (s.lockNumber + 1) = .ok duration)
      (hnumber : value.lockNumber = s.lockNumber + 1)
      (hlocked : value.lockedUntil = some (s.now + duration)) (hforced : value.forced = false) :
      Recorded o s { s with
        entry := some ⟨value, s.now + duration + o.windowMs⟩
        log := s.log ++ [.recorded s.now,
          .engaged s.now (s.lockNumber + 1) (s.now + duration) false] }
  | recorded {value : State} (hattempts : value.attempts = attemptsBefore o s + 1)
      (hbelow : value.attempts < o.maxAttempts) (hnumber : value.lockNumber = s.lockNumber)
      (hlast : value.lastFailureAt = some s.now) (hopen : value.lockedUntil = none) :
      Recorded o s { s with
        entry := some ⟨value, s.now + o.windowMs⟩
        log := s.log ++ [.recorded s.now] }

theorem recordFailure_cases (o : Opts) (s : St) : Recorded o s (recordFailure o s) := by
  have hnumber : ((s.state.map (decayed o s.now)).map State.lockNumber).getD 0 = s.lockNumber := by
    rw [St.lockNumber]
    cases s.state with
    | none => rfl
    | some state => exact decayed_lockNumber s.now state
  unfold recordFailure
  dsimp only
  split
  · next u hbind =>
      obtain ⟨state, hstate, hlocked⟩ := Option.bind_eq_some_iff.mp hbind
      exact .duringLock hstate hlocked
  · split
    · split
      · exact .rejected _
      · next duration hduration =>
          rw [hnumber] at hduration ⊢
          rw [put, lockTtl (resolveDuration_nonneg hduration)]
          exact .engaged hduration rfl rfl rfl
    · next hbelow =>
        exact .recorded rfl (not_le.mp hbelow) hnumber rfl rfl

/-- A failure that comes during a lock leaves the record alone. -/
theorem recordFailure_duringLock {state : State} {u : Rat} (hstate : s.state = some state)
    (hlocked : state.lockedAfter s.now = some u) :
    recordFailure o s = { s with log := s.log ++ [.duringLock s.now] } := by
  have hbind : (s.state.bind fun state => state.lockedAfter s.now) = some u := by
    rw [hstate]
    exact hlocked
  unfold recordFailure
  dsimp only
  rw [hbind]

/-- What `lock` can do. -/
theorem lock_cases (o : Opts) (s : St) (callOpts : LockOpts) :
    lock o s callOpts = { s with log := s.log ++ [.rejected .badOpt] } ∨
      ∃ u value, lock o s callOpts = { s with
          entry := some ⟨value, u + o.windowMs⟩
          log := s.log ++ [.engaged s.now (s.lockNumber + 1) u true] } ∧
        value.lockNumber = s.lockNumber + 1 ∧ value.lockedUntil = some u ∧
        value.forced = true := by
  unfold lock
  dsimp only
  split
  · exact .inl rfl
  · let value : State := ⟨0, s.lockNumber + 1,
      some (((s.state.bind State.firstFailureAt).filter (· ≠ 0)).getD s.now), some s.now,
      some (lockedUntilOf s.now callOpts), true⟩
    refine .inr ⟨lockedUntilOf s.now callOpts, value, ?_, rfl, rfl, rfl⟩
    rw [put, ← add_assoc, add_sub_cancel]
    rfl

theorem recordFailure_now (o : Opts) (s : St) : (recordFailure o s).now = s.now := by
  have hcases := recordFailure_cases o s
  generalize recordFailure o s = r at hcases ⊢
  cases hcases <;> rfl

theorem atomicClear_now (s : St) (preserveIf : State → Bool) (event : Event) :
    (atomicClear s preserveIf event).now = s.now := by
  unfold atomicClear
  split
  · rfl
  · split <;> rfl

theorem atomicClear_log (s : St) (preserveIf : State → Bool) (event : Event) :
    (atomicClear s preserveIf event).log = s.log ++ [event] ∧
      ((atomicClear s preserveIf event).entry = s.entry ∨
        (atomicClear s preserveIf event).entry = none) := by
  unfold atomicClear
  split
  · exact ⟨rfl, .inl rfl⟩
  · split
    · exact ⟨rfl, .inl rfl⟩
    · exact ⟨rfl, .inr rfl⟩

/-! ## While a lock is in force -/

/-- What leaves a lock in force. -/
def Leaves (forced : Bool) (_ : St) : Act → Prop
  | .unlock => False
  | .lock _ => False
  | .recordSuccess => forced = true
  | _ => True

structure InForce (o : Opts) (u : Rat) (forced : Bool) (s : St) (e : Entry) : Prop where
  entry : s.entry = some e
  lockedUntil : e.value.lockedUntil = some u
  forced : e.value.forced = forced
  alive : e.expiresAt = u + o.windowMs

theorem InForce.state {u : Rat} {forced : Bool} {e : Entry} (h : InForce o u forced s e)
    (hu : (s.now : Rat) < u) :
    s.state = some e.value ∧ e.value.lockedAfter s.now = some u := by
  have hwindow : (0 : Rat) ≤ o.windowMs := Nat.cast_nonneg _
  have hnow : (0 : Rat) ≤ s.now := Nat.cast_nonneg _
  refine ⟨state_of_alive h.entry (by rw [h.alive]; linarith), ?_⟩
  have hne : u ≠ 0 := by linarith [lt_of_le_of_lt hnow hu]
  rw [State.lockedAfter, truthy, h.lockedUntil]
  simp [Option.filter, hne, hu]

theorem step_inForce {u : Rat} {forced : Bool} {e : Entry} {a : Act} (h : InForce o u forced s e)
    (hleaves : Leaves forced s a) (hs : step o s a = some s') (hu : (s'.now : Rat) < u) :
    InForce o u forced s' e := by
  cases a with
  | tick ms =>
      cases hs
      exact ⟨h.entry, h.lockedUntil, h.forced, h.alive⟩
  | check =>
      cases hs
      exact h
  | unlock => exact hleaves.elim
  | lock callOpts => exact hleaves.elim
  | recordFailure =>
      cases hs
      rw [recordFailure_now] at hu
      obtain ⟨hstate, hlocked⟩ := h.state hu
      rw [recordFailure_duringLock hstate hlocked]
      exact ⟨h.entry, h.lockedUntil, h.forced, h.alive⟩
  | recordSuccess =>
      cases hs
      rw [recordSuccess, atomicClear_now] at hu
      obtain ⟨hstate, -⟩ := h.state hu
      have hactive : isActiveForcedLock e.value s.now = true := by
        rw [isActiveForcedLock, h.forced, show forced = true from hleaves, h.lockedUntil]
        simpa using hu
      rw [recordSuccess, atomicClear, hstate]
      dsimp only
      rw [if_pos hactive]
      exact ⟨h.entry, h.lockedUntil, h.forced, h.alive⟩

theorem now_le {a : Act} (hs : step o s a = some s') : s.now ≤ s'.now := by
  cases a with
  | tick ms =>
      cases hs
      exact Nat.le_add_right _ _
  | check =>
      cases hs
      exact Nat.le_refl _
  | unlock =>
      cases hs
      exact (atomicClear_now _ _ _).ge
  | recordSuccess =>
      cases hs
      exact (atomicClear_now _ _ _).ge
  | lock callOpts =>
      cases hs
      rcases lock_cases o s callOpts with heq | ⟨_, _, heq, -⟩ <;> rw [heq]
  | recordFailure =>
      cases hs
      exact (recordFailure_now o s).ge

theorem reach_inForce {u : Rat} {forced : Bool} {e : Entry} (h : InForce o u forced s e)
    (hreach : Reach (step o) (Leaves forced) s s') (hu : (s'.now : Rat) < u) :
    InForce o u forced s' e := by
  induction hreach with
  | start => exact h
  | next _ hok hs ih =>
      have hle : ((_ : Nat) : Rat) ≤ _ := Nat.cast_le.mpr (now_le hs)
      exact step_inForce (ih (lt_of_le_of_lt hle hu)) hok hs hu

theorem InForce.check {u : Rat} {forced : Bool} {e : Entry} (h : InForce o u forced s e)
    (hu : (s.now : Rat) < u) :
    Lockout.check s = ⟨true, e.value.attempts, some u⟩ := by
  obtain ⟨hstate, hlocked⟩ := h.state hu
  rw [Lockout.check, hstate, verdictFromState, hlocked]

/-- What a step logs a lock of. -/
theorem step_engaged {a : Act} {more : List Event} {now n : Nat} {u : Rat} {forced : Bool}
    (hs : step o s a = some s') (hlog : s'.log = s.log ++ more)
    (hmem : .engaged now n u forced ∈ more) :
    n = s.lockNumber + 1 ∧ (∃ e, InForce o u forced s' e ∧ e.value.lockNumber = n) ∧
      (forced = false → resolveDuration o.lockoutDurations n = .ok (u - now)) := by
  have hmore : ∀ {es : List Event}, s'.log = s.log ++ es → .engaged now n u forced ∈ es :=
    fun heq => List.append_cancel_left (hlog.symm.trans heq) ▸ hmem
  cases a with
  | tick ms =>
      cases hs
      cases hmore (List.append_nil _).symm
  | check =>
      cases hs
      cases hmore (List.append_nil _).symm
  | unlock =>
      cases hs
      obtain ⟨hevent, -⟩ := atomicClear_log s (fun _ => false) .unlock
      cases List.mem_singleton.mp (hmore hevent)
  | recordSuccess =>
      cases hs
      obtain ⟨hevent, -⟩ := atomicClear_log s (fun state => isActiveForcedLock state s.now) .success
      cases List.mem_singleton.mp (hmore hevent)
  | lock callOpts =>
      cases hs
      rcases lock_cases o s callOpts with heq | ⟨u', value, heq, hnumber, hlocked, hforced⟩
      · have hlast := hmore (congrArg St.log heq)
        cases List.mem_singleton.mp hlast
      · have hlast := hmore (congrArg St.log heq)
        cases List.mem_singleton.mp hlast
        refine ⟨rfl, ⟨_, ⟨congrArg St.entry heq, hlocked, hforced, rfl⟩, hnumber⟩, fun h => ?_⟩
        cases h
  | recordFailure =>
      cases hs
      have hcases := recordFailure_cases o s
      generalize recordFailure o s = r at hcases hmore ⊢
      cases hcases with
      | duringLock hstate hlocked => cases List.mem_singleton.mp (hmore rfl)
      | rejected e => cases List.mem_singleton.mp (hmore rfl)
      | recorded hattempts hbelow hnumber hlast hopen =>
          cases List.mem_singleton.mp (hmore rfl)
      | engaged hduration hnumber hlocked hforced =>
          rcases List.mem_cons.mp (hmore rfl) with heq | hmem
          · cases heq
          · cases List.mem_singleton.mp hmem
            refine ⟨rfl, ⟨_, ⟨rfl, hlocked, hforced, rfl⟩, hnumber⟩, fun _ => ?_⟩
            rw [add_sub_cancel_left]
            exact hduration

/-! ## Failures in a row -/

/-- A failure, or nothing. -/
def Event.Plain : Event → Prop
  | .recorded _ => True
  | .duringLock _ => True
  | .rejected _ => True
  | _ => False

/-- Failures that each come within the window of the one before, at its end excluded. -/
def Close (o : Opts) (times : List Nat) : Prop := times.IsChain fun a b => b < a + o.windowMs

/-- What the record holds of the failures of a stretch. -/
structure Counts (o : Opts) (times : List Nat) (t : Nat) (e : Entry) : Prop where
  below : times.length < o.maxAttempts
  attempts : times.length ≤ e.value.attempts
  lastFailureAt : e.value.lastFailureAt = some t
  unlocked : e.value.lockedUntil = none
  expiresAt : e.expiresAt = t + o.windowMs

/-- A stretch of failures without a lock is on the record. -/
def Counted (o : Opts) (s : St) (more : List Event) : Prop :=
  (∀ e ∈ more, e.Plain) → Close o (failures more) → ∀ t, (failures more).getLast? = some t →
    ∃ e, s.entry = some e ∧ Counts o (failures more) t e

theorem attemptsBefore_eq {times : List Nat} {t : Nat} {e : Entry} (he : s.entry = some e)
    (h : Counts o times t e) (hnow : s.now < t + o.windowMs) :
    attemptsBefore o s = e.value.attempts := by
  have halive : (s.now : Rat) < e.expiresAt := by
    rw [h.expiresAt]
    exact_mod_cast hnow
  have hdecayed : decayed o s.now e.value = e.value := by
    rw [decayed, h.lastFailureAt]
    split
    · next t' ht' =>
        obtain ⟨ht, -⟩ := Option.filter_eq_some_iff.mp ht'
        cases ht
        exact if_neg (by omega)
    · rfl
  rw [attemptsBefore, state_of_alive he halive, Option.map_some, hdecayed]
  rfl

theorem Counted.same {more es : List Event} (h : Counted o s more) (hentry : s'.entry = s.entry)
    (hes : failures es = []) : Counted o s' (more ++ es) := by
  intro hplain hclose t ht
  rw [failures_append, hes, List.append_nil] at hclose ht ⊢
  rw [hentry]
  exact h (fun e he => hplain e (List.mem_append_left _ he)) hclose t ht

theorem counted_of_not {more : List Event} {e : Event} (hmem : e ∈ more) (h : ¬ e.Plain) :
    Counted o s more := fun hplain => absurd (hplain e hmem) h

theorem Counted.recorded {more : List Event} {value : State} (h : Counted o s more)
    (hattempts : value.attempts = attemptsBefore o s + 1) (hbelow : value.attempts < o.maxAttempts)
    (hlast : value.lastFailureAt = some s.now) (hopen : value.lockedUntil = none)
    (hentry : s'.entry = some ⟨value, s.now + o.windowMs⟩) :
    Counted o s' (more ++ [.recorded s.now]) := by
  intro hplain hclose t ht
  have happend : failures (more ++ [.recorded s.now]) = failures more ++ [s.now] :=
    failures_append more [.recorded s.now]
  rw [happend] at hclose ht ⊢
  rw [List.getLast?_concat] at ht
  cases ht
  obtain ⟨hbefore, -, hgap⟩ := List.isChain_append.mp hclose
  have hcount : (failures more).length ≤ attemptsBefore o s := by
    cases hlast' : (failures more).getLast? with
    | none =>
        rw [List.getLast?_eq_none_iff.mp hlast']
        exact Nat.zero_le _
    | some t =>
        obtain ⟨e, he, hcounts⟩ :=
          h (fun e he => hplain e (List.mem_append_left _ he)) hbefore t hlast'
        rw [attemptsBefore_eq he hcounts (hgap t hlast' s.now rfl)]
        exact hcounts.attempts
  have hlength : (failures more ++ [s.now]).length ≤ value.attempts := by
    rw [List.length_append, List.length_singleton]
    omega
  exact ⟨_, hentry, ⟨lt_of_le_of_lt hlength hbelow, hlength, hlast, hopen, rfl⟩⟩

theorem step_counted {a : Act} {more : List Event} (h : Counted o s more)
    (hs : step o s a = some s') : ∃ es, s'.log = s.log ++ es ∧ Counted o s' (more ++ es) := by
  cases a with
  | tick ms =>
      cases hs
      exact ⟨[], (List.append_nil _).symm, h.same rfl rfl⟩
  | check =>
      cases hs
      exact ⟨[], (List.append_nil _).symm, h.same rfl rfl⟩
  | unlock =>
      cases hs
      refine ⟨_, (atomicClear_log s _ .unlock).1, counted_of_not (e := .unlock) ?_ id⟩
      simp
  | recordSuccess =>
      cases hs
      refine ⟨_, (atomicClear_log s _ .success).1, counted_of_not (e := .success) ?_ id⟩
      simp
  | lock callOpts =>
      cases hs
      rcases lock_cases o s callOpts with heq | ⟨u, value, heq, -⟩
      · exact ⟨_, congrArg St.log heq, h.same (by rw [heq]) rfl⟩
      · exact ⟨_, congrArg St.log heq, counted_of_not
          (List.mem_append_right _ List.mem_cons_self) id⟩
  | recordFailure =>
      cases hs
      have hcases := recordFailure_cases o s
      generalize recordFailure o s = r at hcases ⊢
      cases hcases with
      | duringLock hstate hlocked => exact ⟨_, rfl, h.same rfl rfl⟩
      | rejected e => exact ⟨_, rfl, h.same rfl rfl⟩
      | recorded hattempts hbelow hnumber hlast hopen =>
          exact ⟨_, rfl, h.recorded hattempts hbelow hlast hopen rfl⟩
      | engaged hduration hnumber hlocked hforced =>
          exact ⟨_, rfl, counted_of_not
            (List.mem_append_right _ (List.mem_cons_of_mem _ List.mem_cons_self)) id⟩

theorem reach_counted (h : Reach (step o) Always s s') :
    ∃ more, s'.log = s.log ++ more ∧ Counted o s' more := by
  induction h with
  | start => exact ⟨[], (List.append_nil _).symm, fun _ _ _ ht => nomatch ht⟩
  | next _ _ hs ih =>
      obtain ⟨more, hlog, hcounted⟩ := ih
      obtain ⟨es, hes, hcounted'⟩ := step_counted hcounted hs
      exact ⟨more ++ es, by rw [hes, hlog, List.append_assoc], hcounted'⟩

/-! ## The number of locks -/

/-- The number of locks in the cache. -/
def St.entryNumber (s : St) : Nat := (s.entry.map fun e => e.value.lockNumber).getD 0

/-- What leaves the record: no success or unlock, and no call after it has expired. -/
def Stays (s : St) (a : Act) : Prop := a ≠ .unlock ∧ a ≠ .recordSuccess ∧ s.state.isSome = true

theorem lockNumber_eq (h : s.state.isSome = true) : s.lockNumber = s.entryNumber := by
  obtain ⟨state, hstate⟩ := Option.isSome_iff_exists.mp h
  obtain ⟨e, he, hvalue⟩ := entry_of_state hstate
  rw [St.lockNumber, St.entryNumber, hstate, he, ← hvalue]
  rfl

theorem step_entryNumber {a : Act} (hstays : Stays s a) (hs : step o s a = some s') :
    s'.entryNumber + locks s.log = s.entryNumber + locks s'.log := by
  have hnumber := lockNumber_eq hstays.2.2
  have hsame : ∀ {r : St} {event : Event}, r.entry = s.entry → r.log = s.log ++ [event] →
      locks [event] = 0 → r.entryNumber + locks s.log = s.entryNumber + locks r.log := by
    intro r event hentry hlog hlocks
    rw [hlog, locks_append, hlocks, St.entryNumber, hentry]
    rfl
  cases a with
  | tick ms =>
      cases hs
      rfl
  | check =>
      cases hs
      rfl
  | unlock => exact absurd rfl hstays.1
  | recordSuccess => exact absurd rfl hstays.2.1
  | lock callOpts =>
      cases hs
      rcases lock_cases o s callOpts with heq | ⟨u, value, heq, hvalue, -⟩
      · rw [heq]
        exact hsame rfl rfl rfl
      · rw [heq, locks_append, ← hnumber]
        show value.lockNumber + _ = _
        rw [hvalue]
        show _ = s.lockNumber + (locks s.log + 1)
        omega
  | recordFailure =>
      cases hs
      have hcases := recordFailure_cases o s
      generalize recordFailure o s = r at hcases ⊢
      cases hcases with
      | duringLock hstate hlocked => exact hsame rfl rfl rfl
      | rejected e => exact hsame rfl rfl rfl
      | recorded hattempts hbelow hvalue hlast hopen =>
          rw [locks_append, ← hnumber, ← hvalue]
          rfl
      | engaged hduration hvalue hlocked hforced =>
          rw [locks_append, ← hnumber]
          show _ = s.lockNumber + (locks s.log + 1)
          show (_ : State).lockNumber + _ = _
          rw [hvalue]
          omega

theorem reach_entryNumber (h : Reach (step o) Stays s s') :
    s'.entryNumber + locks s.log = s.entryNumber + locks s'.log := by
  induction h with
  | start => rfl
  | next _ hok hs ih =>
      have hstep := step_entryNumber hok hs
      omega

/-! ## The lockout -/

/-- No success, unlock or forced lock. -/
def Event.Quiet : Event → Prop
  | .success => False
  | .unlock => False
  | .engaged _ _ _ forced => forced = false
  | _ => True

/-- The locks that failures engage last as long as is scheduled. -/
theorem reach_scheduled (h : Reach (step o) Always s s') :
    ∃ more, s'.log = s.log ++ more ∧ ∀ (now n : Nat) (u : Rat),
      .engaged now n u false ∈ more → resolveDuration o.lockoutDurations n = .ok (u - now) := by
  induction h with
  | start => exact ⟨[], (List.append_nil _).symm, fun _ _ _ hmem => nomatch hmem⟩
  | @next m m' a _ _ hs ih =>
      obtain ⟨more, hlog, hscheduled⟩ := ih
      have hnothing : Counted o m [] := fun _ _ _ ht => nomatch ht
      obtain ⟨es, hes, -⟩ := step_counted hnothing hs
      refine ⟨more ++ es, by rw [hes, hlog, List.append_assoc], fun now n u hmem => ?_⟩
      rcases List.mem_append.mp hmem with hmem | hmem
      · exact hscheduled now n u hmem
      · exact (step_engaged hs hes hmem).2.2 rfl

/-- As many failures in a row as there are attempts end in a lock. -/
theorem locked_out {more : List Event} (h : Reach (step o) Always s s')
    (hlog : s'.log = s.log ++ more) (hquiet : ∀ e ∈ more, e.Quiet)
    (hclose : Close o (failures more)) (hmax : (failures more).length = o.maxAttempts) :
    ∃ (now n : Nat) (u : Rat), .engaged now n u false ∈ more ∧
      resolveDuration o.lockoutDurations n = .ok (u - now) := by
  obtain ⟨more', hlog', hcounted⟩ := reach_counted h
  obtain rfl := List.append_cancel_left (hlog.symm.trans hlog')
  obtain ⟨more', hlog', hscheduled⟩ := reach_scheduled h
  obtain rfl := List.append_cancel_left (hlog.symm.trans hlog')
  suffices hengaged : ∃ now n u, .engaged now n u false ∈ more by
    obtain ⟨now, n, u, hmem⟩ := hengaged
    exact ⟨now, n, u, hmem, hscheduled now n u hmem⟩
  by_contra hnone
  have hplain : ∀ e ∈ more, e.Plain := by
    intro e he
    have hq := hquiet e he
    cases e with
    | engaged now n u forced =>
        obtain rfl : forced = false := hq
        exact hnone ⟨now, n, u, he⟩
    | success => exact hq
    | unlock => exact hq
    | _ => trivial
  cases hlast : (failures more).getLast? with
  | none =>
      rw [List.getLast?_eq_none_iff.mp hlast] at hmax
      exact absurd hmax.symm (Nat.pos_iff_ne_zero.mp o.maxAttempts_pos)
  | some t =>
      obtain ⟨e, -, hcounts⟩ := hcounted hplain hclose t hlast
      exact absurd hmax (Nat.ne_of_lt hcounts.below)

/-- A lock is in force until its end, whatever comes but an unlock or another lock (and a
success, where failures engaged it); failures in a row end in a lock of the scheduled
duration; failures during a lock change nothing but the log; and locks are numbered one
after the other. -/
theorem lockout_runs (o : Opts) (s : St) :
    (∀ a s₁ more (now n : Nat) (u : Rat) forced, step o s a = some s₁ →
      s₁.log = s.log ++ more → .engaged now n u forced ∈ more →
      ∀ s₂, Reach (step o) (Leaves forced) s₁ s₂ →
        (s₂.now : Rat) < u → ∃ attempts, check s₂ = ⟨true, attempts, some u⟩) ∧
    (∀ s₁ more, Reach (step o) Always s s₁ → s₁.log = s.log ++ more → (∀ e ∈ more, e.Quiet) →
      Close o (failures more) → (failures more).length = o.maxAttempts →
        ∃ (now n : Nat) (u : Rat), .engaged now n u false ∈ more ∧
          resolveDuration o.lockoutDurations n = .ok (u - now)) ∧
    (∀ a s₁ more (now n : Nat) (u : Rat) forced, step o s a = some s₁ →
      s₁.log = s.log ++ more → .engaged now n u forced ∈ more →
        n = s.lockNumber + 1 ∧ s₁.entryNumber = n ∧
        (forced = false → resolveDuration o.lockoutDurations n = .ok (u - now))) ∧
    (∀ state u, s.state = some state → state.lockedAfter s.now = some u →
      (recordFailure o s).entry = s.entry) ∧
    ∀ s₁, Reach (step o) Stays s s₁ →
      s₁.entryNumber + locks s.log = s.entryNumber + locks s₁.log := by
  refine ⟨fun a s₁ more now n u forced hs hlog hmem s₂ hreach hu => ?_,
    fun s₁ more hreach hlog hquiet hclose hmax => locked_out hreach hlog hquiet hclose hmax,
    fun a s₁ more now n u forced hs hlog hmem => ?_, fun state u hstate hlocked => ?_,
    fun s₁ hreach => reach_entryNumber hreach⟩
  · obtain ⟨-, ⟨e, hforce, -⟩, -⟩ := step_engaged hs hlog hmem
    exact ⟨_, (reach_inForce hforce hreach hu).check hu⟩
  · obtain ⟨hnumber, ⟨e, hforce, hvalue⟩, hduration⟩ := step_engaged hs hlog hmem
    refine ⟨hnumber, ?_, hduration⟩
    rw [St.entryNumber, hforce.entry]
    exact hvalue
  · rw [recordFailure_duringLock hstate hlocked]

/-- Two attempts in a window of ten milliseconds. -/
def twice : Opts where
  maxAttempts := 2
  windowMs := 10
  lockoutDurations := .array [60000] (by decide) (by decide +kernel)
  maxAttempts_pos := by decide
  windowMs_pos := by decide

/-- Two failures engage a lock of a minute, which a third one finds in force. -/
theorem lockout_runs_twice : ∃ s₁ s₂ u, exec (step twice) (St.init 0)
      [.recordFailure, .tick 1, .recordFailure] = some s₁ ∧
    resolveDuration twice.lockoutDurations 1 = .ok (u - (1 : Nat)) ∧ s₁.entryNumber = 1 ∧
    exec (step twice) s₁ [.tick 50000, .recordFailure] = some s₂ ∧
    ∃ attempts, check s₂ = ⟨true, attempts, some u⟩ := by
  have hfirst : (exec (step twice) (St.init 0) [.recordFailure, .tick 1]).map St.log =
      some [.recorded 0] := by decide +kernel
  have hsecond : (exec (step twice) (St.init 0) [.recordFailure, .tick 1, .recordFailure]).map
      (fun s => (s.log, s.now)) =
        some ([.recorded 0] ++ [.recorded 1, .engaged 1 1 60001 false], 1) := by
    decide +kernel
  obtain ⟨s, hexec, hlog⟩ := Option.map_eq_some_iff.mp hfirst
  obtain ⟨s₁, hexec₁, h₁⟩ := Option.map_eq_some_iff.mp hsecond
  obtain ⟨hlog₁, hnow₁⟩ := Prod.mk.inj h₁
  have hstep : step twice s .recordFailure = some s₁ := by
    have happend := @exec_append _ _ (step twice) (St.init 0) [.recordFailure, .tick 1]
      [.recordFailure]
    rw [hexec] at happend
    exact happend.symm.trans hexec₁
  obtain ⟨s₂, hexec₂, hnow₂⟩ : ∃ s₂, exec (step twice) s₁ [.tick 50000, .recordFailure] = some s₂ ∧
      s₂.now = s₁.now + 50000 := ⟨_, rfl, recordFailure_now _ _⟩
  obtain ⟨-, hengages, -⟩ := lockout_runs twice (St.init 0)
  obtain ⟨now, n, u, hmem, hduration⟩ := hengages s₁ s₁.log (reach_of_exec _ hexec₁) rfl
    (by rw [hlog₁]; simp [Event.Quiet]) (by rw [hlog₁]; exact List.isChain_pair.mpr (by decide))
    (by rw [hlog₁]; rfl)
  have hlock : now = 1 ∧ n = 1 ∧ u = 60001 := by simpa [hlog₁] using hmem
  obtain ⟨rfl, rfl, rfl⟩ := hlock
  rw [← hlog] at hlog₁
  obtain ⟨hforce, -, hnumbers, -⟩ := lockout_runs twice s
  obtain ⟨-, hnumber, -⟩ := hnumbers .recordFailure s₁ _ 1 1 60001 false hstep hlog₁ (by simp)
  have hreach : Reach (step twice) (Leaves false) s₁ s₂ :=
    reach_of_meets [.tick 50000, .recordFailure] ⟨trivial, trivial, trivial⟩ hexec₂
  refine ⟨s₁, s₂, 60001, hexec₁, hduration, hnumber, hexec₂, ?_⟩
  refine hforce .recordFailure s₁ _ 1 1 60001 false hstep hlog₁ (by simp) s₂ hreach ?_
  rw [hnow₂, hnow₁]
  norm_num

/-- A short lock between two failures starts the attempts again. -/
theorem lock_starts_again : ∃ s, exec (step twice) (St.init 0)
      [.recordFailure, .lock ⟨none, some 1⟩, .tick 3, .recordFailure, .check] = some s ∧
    failures s.log = [0, 3] ∧ Close twice (failures s.log) ∧
    (∀ e ∈ s.log, e ≠ .success ∧ e ≠ .unlock) ∧
    (∀ now n u, .engaged now n u false ∉ s.log) ∧ check s = ⟨false, 1, none⟩ := by
  have hlog : (exec (step twice) (St.init 0)
      [.recordFailure, .lock ⟨none, some 1⟩, .tick 3, .recordFailure, .check]).map
        (fun s => (s.log, check s)) =
      some ([.recorded 0, .engaged 0 1 1 true, .recorded 3], ⟨false, 1, none⟩) := by
    decide +kernel
  obtain ⟨s, hexec, hs⟩ := Option.map_eq_some_iff.mp hlog
  obtain ⟨hs, hcheck⟩ := Prod.mk.inj hs
  refine ⟨s, hexec, ?_, ?_, ?_, ?_, hcheck⟩ <;> rw [hs]
  · rfl
  · exact List.isChain_pair.mpr (by decide)
  · simp
  · simp

end Blamejs.Lockout
