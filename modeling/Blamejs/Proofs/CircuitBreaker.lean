import Blamejs.Ref.CircuitBreaker
import Mathlib.Data.List.Perm.Basic

/-!
# Half-open periods

The outcomes of all calls go into the same two counters, whatever the state was
when the call was let through. While the breaker is closed that is what they are
for: `consecutiveFailures` is the number of failures since the last success or
reset, and no run changes that. Nor can a second probe start beside a first,
since `halfOpenInFlight` counts the probes in flight of the generation.

A half-open period is another matter. A call from before it that settles in it
adds to `consecutiveSuccesses`, or opens the breaker again, as if it were the
probe. `Timely` says that this does not happen, and under it the successes
counted are those of the period's own probes.
-/

namespace Blamejs.CircuitBreaker

open Run

variable {o : Opts} {s s' : St}

/-- What settles in a half-open period, with an outcome that counts, is a probe of
that period. -/
def Timely (s : St) (a : Action) : Prop :=
  ∀ i outcome, a = .settle i outcome → s.b.state = .half →
    outcome = .success ∨ outcome = .failure → s.current i = true

/-- How a half-open period ends. -/
structure Decided (o : Opts) (s : St) (a : Action) (s' : St) : Prop where
  closes : s'.b.state = .closed → a ≠ .reset → o.successThreshold ≤ successes s.period s'.log
  reopens : s'.b.state = .opened → ∃ i, a = .settle i .failure ∧ s.current i = true
  byProbe : ∀ i outcome, a = .settle i outcome → s'.b.state ≠ .half → s.current i = true

/-! ## Calls in flight -/

theorem probes_length (s : St) : s.probes.length =
    s.calls.countP fun c => c.probing && c.probeGeneration == s.b.probeGeneration :=
  List.countP_eq_length_filter.symm

theorem countP_settled {p : Call → Bool} {calls : List Call} {i : Nat} {c : Call}
    (hi : calls[i]? = some c) :
    calls.countP p = (calls.eraseIdx i).countP p + if p c then 1 else 0 := by
  obtain ⟨hlt, rfl⟩ := List.getElem?_eq_some_iff.mp hi
  rw [← (List.getElem_cons_eraseIdx_perm hlt).countP_eq p, List.countP_cons]

/-! ## One step -/

theorem onSuccess_flight (b : Breaker) : (b.onSuccess o).probeGeneration = b.probeGeneration ∧
    (b.onSuccess o).halfOpenInFlight = b.halfOpenInFlight := by
  unfold Breaker.onSuccess
  repeat' split
  all_goals exact ⟨rfl, rfl⟩

theorem onFailure_flight (b : Breaker) (now : Int) :
    (b.onFailure o now).probeGeneration = b.probeGeneration ∧
      (b.onFailure o now).halfOpenInFlight = b.halfOpenInFlight := by
  unfold Breaker.onFailure
  dsimp only
  repeat' split
  all_goals exact ⟨rfl, rfl⟩

/-- No outcome moves what `wrap` keeps of its probes. -/
theorem answered_flight (b : Breaker) (now : Int) (outcome : Outcome) :
    (b.answered o now outcome).probeGeneration = b.probeGeneration ∧
      (b.answered o now outcome).halfOpenInFlight = b.halfOpenInFlight := by
  cases outcome with
  | success => exact onSuccess_flight b
  | failure => exact onFailure_flight b now
  | permanent => exact ⟨rfl, rfl⟩
  | circuitOpen => exact ⟨rfl, rfl⟩

@[simp] theorem leave_state (b : Breaker) (c : Call) : (b.leave c).state = b.state := by
  unfold Breaker.leave
  split <;> rfl

@[simp] theorem leave_consecutiveFailures (b : Breaker) (c : Call) :
    (b.leave c).consecutiveFailures = b.consecutiveFailures := by
  unfold Breaker.leave
  split <;> rfl

@[simp] theorem leave_consecutiveSuccesses (b : Breaker) (c : Call) :
    (b.leave c).consecutiveSuccesses = b.consecutiveSuccesses := by
  unfold Breaker.leave
  split <;> rfl

@[simp] theorem leave_probeGeneration (b : Breaker) (c : Call) :
    (b.leave c).probeGeneration = b.probeGeneration := by
  unfold Breaker.leave
  split <;> rfl

/-- What `wrap` does before it calls `fn`. -/
inductive Admits (o : Opts) (s : St) : St → Prop
  | refused (hopen : s.b.state ≠ .closed) : Admits o s s
  | passed (hclosed : s.b.state = .closed) :
      Admits o s { s with calls := s.calls ++ [⟨false, s.b.probeGeneration, none⟩] }
  | halfOpened (hopen : s.b.state = .opened) :
      Admits o s { s with b := { s.b with state := .half }, period := s.period + 1 }
  | probed (period : Nat) (hfree : ¬ s.b.halfOpenInFlight > 0)
      (hperiod : (s.b.state = .half ∧ period = s.period) ∨
        (s.b.state = .opened ∧ period = s.period + 1)) :
      Admits o s { s with
        b := { s.b with state := .half, halfOpenInFlight := s.b.halfOpenInFlight + 1 }
        calls := s.calls ++ [⟨true, s.b.probeGeneration, some period⟩]
        period := period }

theorem beginWrap_admits (o : Opts) (s : St) : Admits o s (s.beginWrap o) := by
  obtain ⟨clock, ⟨state, fails, succs, openedAt, inFlight, generation⟩, calls, period, log⟩ := s
  cases state with
  | closed => exact .passed rfl
  | opened =>
      by_cases hcool : clock - openedAt ≥ o.cooldownMs
      · by_cases hfree : inFlight > 0
        · simpa [St.beginWrap, Breaker.enter, hcool, hfree] using Admits.halfOpened rfl
        · simpa [St.beginWrap, Breaker.enter, hcool, hfree] using
            Admits.probed (period + 1) hfree (.inr ⟨rfl, rfl⟩)
      · simpa [St.beginWrap, Breaker.enter, hcool] using Admits.refused (by simp)
  | half =>
      by_cases hfree : inFlight > 0
      · simpa [St.beginWrap, Breaker.enter, hfree] using Admits.refused (by simp)
      · simpa [St.beginWrap, Breaker.enter, hfree] using
          Admits.probed period hfree (.inl ⟨rfl, rfl⟩)

/-- The step function by its steps. -/
theorem step_cases {a : Action} (hs : step o s a = some s') :
    (∃ ms, a = .tick ms ∧ s' = { s with clock := s.clock + ms }) ∨
    (a = .wrap ∧ Admits o s s') ∨
    (∃ i outcome c, a = .settle i outcome ∧ s.calls[i]? = some c ∧
      s' = s.settle o i c outcome) ∨
    (a = .reset ∧ s' = { s with b := s.b.reset, log := .reset :: s.log }) := by
  cases a with
  | tick ms => exact .inl ⟨ms, rfl, (Option.some.inj hs).symm⟩
  | wrap => exact .inr (.inl ⟨rfl, Option.some.inj hs ▸ beginWrap_admits o s⟩)
  | settle i outcome =>
      obtain ⟨c, hc, rfl⟩ := Option.map_eq_some_iff.mp hs
      exact .inr (.inr (.inl ⟨i, outcome, c, rfl, hc, rfl⟩))
  | reset => exact .inr (.inr (.inr ⟨rfl, (Option.some.inj hs).symm⟩))

/-! ## The counters -/

/-- A success closes a half-open breaker at the threshold, and starts the failures
over where it leaves a closed one. -/
theorem onSuccess_cases (b : Breaker) :
    (b.state = .half ∧ o.successThreshold ≤ b.consecutiveSuccesses + 1 ∧
      b.onSuccess o =
        { b with state := .closed, consecutiveFailures := 0, consecutiveSuccesses := 0 }) ∨
    (b.state = .half ∧
      b.onSuccess o = { b with consecutiveSuccesses := b.consecutiveSuccesses + 1 }) ∨
    (b.state ≠ .half ∧ b.onSuccess o = { b with consecutiveFailures := 0 }) := by
  unfold Breaker.onSuccess
  split
  · next hhalf =>
      split
      · next henough => exact .inl ⟨hhalf, henough, rfl⟩
      · exact .inr (.inl ⟨hhalf, rfl⟩)
  · next hother => exact .inr (.inr ⟨hother, rfl⟩)

/-- A failure that counts opens a half-open breaker, and a closed one at the
threshold. -/
theorem onFailure_state (b : Breaker) (now : Int) :
    (b.onFailure o now).consecutiveFailures = b.consecutiveFailures + 1 ∧
    (b.onFailure o now).consecutiveSuccesses = 0 ∧
    ((b.onFailure o now).state = .closed ↔
      b.state = .closed ∧ b.consecutiveFailures + 1 < o.failureThreshold) ∧
    (b.onFailure o now).state ≠ .half := by
  unfold Breaker.onFailure
  cases hstate : b.state <;> simp only
  · by_cases henough : b.consecutiveFailures + 1 ≥ o.failureThreshold
    · simp [henough]
    · simp [henough]
      omega
  · simp
  · simp

/-- What holds in every run. -/
structure Sound (o : Opts) (s : St) : Prop where
  inFlight : s.b.halfOpenInFlight = s.probes.length
  single : s.probes.length ≤ 1
  generations : ∀ c ∈ s.calls, c.probeGeneration ≤ s.b.probeGeneration
  closed : s.b.state = .closed →
    s.b.consecutiveFailures = failures s.log ∧ failures s.log < o.failureThreshold

theorem Admits.sound (ha : Admits o s s') (h : Sound o s) : Sound o s' := by
  have hinFlight := h.inFlight
  have hsingle := h.single
  rw [probes_length] at hinFlight hsingle
  cases ha with
  | refused hopen => exact h
  | passed hclosed =>
      refine ⟨?_, ?_, ?_, h.closed⟩
      · simpa [probes_length] using hinFlight
      · simpa [probes_length] using hsingle
      · simpa [or_imp, forall_and] using h.generations
  | halfOpened hopen => exact ⟨h.inFlight, h.single, h.generations, fun hc => by simp at hc⟩
  | probed period hfree hperiod =>
      have hnone : s.calls.countP
          (fun c => c.probing && c.probeGeneration == s.b.probeGeneration) = 0 := by omega
      refine ⟨?_, ?_, ?_, fun hc => by simp at hc⟩
      · simp [probes_length, hnone, hinFlight]
      · simp [probes_length, hnone]
      · simpa [or_imp, forall_and] using h.generations

theorem Sound.answered {outcome : Outcome} {period : Option Nat} (h : Sound o s)
    (hstate : (s.b.answered o s.clock outcome).state = .closed) :
    (s.b.answered o s.clock outcome).consecutiveFailures =
        failures (.settled period outcome :: s.log) ∧
      failures (.settled period outcome :: s.log) < o.failureThreshold := by
  cases outcome with
  | permanent => exact h.closed hstate
  | circuitOpen => exact h.closed hstate
  | success =>
      refine ⟨?_, o.failure_pos⟩
      show (s.b.onSuccess o).consecutiveFailures = 0
      change (s.b.onSuccess o).state = .closed at hstate
      rcases onSuccess_cases (o := o) s.b with ⟨-, -, heq⟩ | ⟨hhalf, heq⟩ | ⟨-, heq⟩
      · rw [heq]
      · rw [heq] at hstate
        exact absurd (hhalf.symm.trans hstate) (by decide)
      · rw [heq]
  | failure =>
      obtain ⟨hfails, -, hclosed, -⟩ := onFailure_state (o := o) s.b s.clock
      obtain ⟨hwas, hlt⟩ := hclosed.mp hstate
      obtain ⟨hcount, -⟩ := h.closed hwas
      rw [hcount] at hlt
      exact ⟨hfails.trans (congrArg Nat.succ hcount), hlt⟩

theorem Sound.settle {i : Nat} {c : Call} {outcome : Outcome} (h : Sound o s)
    (hc : s.calls[i]? = some c) : Sound o (s.settle o i c outcome) := by
  obtain ⟨hgeneration, hflight⟩ := answered_flight (o := o) s.b s.clock outcome
  have hinFlight := h.inFlight
  have hsingle := h.single
  rw [probes_length, countP_settled hc] at hinFlight hsingle
  refine ⟨?_, ?_, fun d hd => ?_, fun hstate => ?_⟩
  · rw [probes_length]
    simp only [St.settle, leave_probeGeneration, hgeneration]
    unfold Breaker.leave
    rw [hgeneration]
    split
    · next hown =>
        rw [if_pos (by simpa using hown)] at hinFlight
        show (s.b.answered o s.clock outcome).halfOpenInFlight - 1 = _
        omega
    · next hother =>
        rw [if_neg (by simpa using hother)] at hinFlight
        omega
  · rw [probes_length]
    simp only [St.settle, leave_probeGeneration, hgeneration]
    omega
  · simp only [St.settle, leave_probeGeneration, hgeneration]
    exact h.generations d (List.mem_of_mem_eraseIdx hd)
  · simp only [St.settle, leave_state, leave_consecutiveFailures] at hstate ⊢
    exact h.answered hstate

theorem Sound.reset (h : Sound o s) :
    Sound o { s with b := s.b.reset, log := .reset :: s.log } := by
  -- every call in flight is of an earlier generation
  have hnone : s.calls.countP
      (fun c => c.probing && c.probeGeneration == s.b.probeGeneration + 1) = 0 := by
    refine List.countP_eq_zero.mpr fun c hc => ?_
    have hle := h.generations c hc
    simp
    omega
  refine ⟨?_, ?_, fun c hc => ?_, fun _ => ⟨rfl, o.failure_pos⟩⟩
  · rw [probes_length]
    exact congrArg Int.ofNat hnone.symm
  · rw [probes_length]
    exact hnone ▸ Nat.zero_le 1
  · exact Nat.le_succ_of_le (h.generations c hc)

theorem step_sound {a : Action} (hs : step o s a = some s') (h : Sound o s) : Sound o s' := by
  obtain ⟨ms, -, rfl⟩ | ⟨-, hadmits⟩ | ⟨i, outcome, c, -, hc, rfl⟩ | ⟨-, rfl⟩ := step_cases hs
  · exact ⟨h.inFlight, h.single, h.generations, h.closed⟩
  · exact hadmits.sound h
  · exact h.settle hc
  · exact h.reset

theorem init_sound (start : Int) : Sound o (St.init start) :=
  ⟨rfl, Nat.zero_le 1, fun _ hc => absurd hc List.not_mem_nil, fun _ => ⟨rfl, o.failure_pos⟩⟩

/-! ## Half-open periods -/

/-- The successes counted are those of the probes of the period. -/
structure Counted (s : St) : Prop where
  idle : s.b.state ≠ .half → s.b.consecutiveSuccesses = 0
  probes : s.b.consecutiveSuccesses ≤ successes s.period s.log

theorem current_eq {i : Nat} {c : Call} (hc : s.calls[i]? = some c) (h : s.current i = true) :
    c.period = some s.period := by
  unfold St.current at h
  simpa [hc] using h

theorem successes_probe (period : Nat) (log : List Event) :
    successes period (.settled (some period) .success :: log) = successes period log + 1 :=
  List.count_cons_self

theorem successes_le (period : Nat) (e : Event) (log : List Event) :
    successes period log ≤ successes period (e :: log) := List.count_le_count_cons

theorem Admits.counted (ha : Admits o s s') (h : Counted s) : Counted s' := by
  cases ha with
  | refused hopen => exact h
  | passed hclosed => exact ⟨h.idle, h.probes⟩
  | halfOpened hopen =>
      have hzero : s.b.consecutiveSuccesses = 0 := h.idle (by simp [hopen])
      exact ⟨fun _ => hzero, hzero ▸ Nat.zero_le _⟩
  | probed period hfree hperiod =>
      rcases hperiod with ⟨hhalf, rfl⟩ | ⟨hopen, rfl⟩
      · exact ⟨fun hne => absurd rfl hne, h.probes⟩
      · have hzero : s.b.consecutiveSuccesses = 0 := h.idle (by simp [hopen])
        exact ⟨fun _ => hzero, hzero ▸ Nat.zero_le _⟩

theorem Counted.settle {i : Nat} {c : Call} {outcome : Outcome} (h : Counted s)
    (hok : Timely s (.settle i outcome)) (hc : s.calls[i]? = some c) :
    Counted (s.settle o i c outcome) := by
  have hmono : ∀ {k}, k ≤ successes s.period s.log →
      k ≤ successes s.period (.settled c.period outcome :: s.log) :=
    fun hk => Nat.le_trans hk (successes_le _ _ _)
  suffices hanswered :
      ((s.b.answered o s.clock outcome).state ≠ .half →
        (s.b.answered o s.clock outcome).consecutiveSuccesses = 0) ∧
      (s.b.answered o s.clock outcome).consecutiveSuccesses ≤
        successes s.period (.settled c.period outcome :: s.log) by
    obtain ⟨hidle, hprobes⟩ := hanswered
    exact ⟨by simpa [St.settle] using hidle, by simpa [St.settle] using hprobes⟩
  cases outcome with
  | permanent => exact ⟨h.idle, hmono h.probes⟩
  | circuitOpen => exact ⟨h.idle, hmono h.probes⟩
  | failure =>
      have hzero := (onFailure_state (o := o) s.b s.clock).2.1
      exact ⟨fun _ => hzero, hzero ▸ Nat.zero_le _⟩
  | success =>
      show ((s.b.onSuccess o).state ≠ .half → (s.b.onSuccess o).consecutiveSuccesses = 0) ∧
        (s.b.onSuccess o).consecutiveSuccesses ≤ _
      rcases onSuccess_cases (o := o) s.b with ⟨-, -, heq⟩ | ⟨hhalf, heq⟩ | ⟨hother, heq⟩
      · rw [heq]
        exact ⟨fun _ => rfl, Nat.zero_le _⟩
      · rw [heq, current_eq hc (hok i .success rfl hhalf (.inl rfl)), successes_probe]
        exact ⟨fun hne => absurd hhalf hne, Nat.succ_le_succ h.probes⟩
      · rw [heq]
        exact ⟨fun _ => h.idle hother, hmono h.probes⟩

theorem step_counted {a : Action} (hs : step o s a = some s') (hok : Timely s a)
    (h : Counted s) : Counted s' := by
  obtain ⟨ms, -, rfl⟩ | ⟨-, hadmits⟩ | ⟨i, outcome, c, rfl, hc, rfl⟩ | ⟨-, rfl⟩ := step_cases hs
  · exact ⟨h.idle, h.probes⟩
  · exact hadmits.counted h
  · exact h.settle hok hc
  · exact ⟨fun _ => rfl, Nat.zero_le _⟩

theorem Counted.decided {i : Nat} {c : Call} {outcome : Outcome} (h : Counted s)
    (hhalf : s.b.state = .half) (hok : Timely s (.settle i outcome))
    (hc : s.calls[i]? = some c) :
    Decided o s (.settle i outcome) (s.settle o i c outcome) := by
  have hstate : (s.settle o i c outcome).b.state = (s.b.answered o s.clock outcome).state :=
    leave_state _ _
  cases outcome with
  | permanent =>
      have hsame : (s.settle o i c .permanent).b.state = .half := hstate.trans hhalf
      exact ⟨by simp [hsame], by simp [hsame], by simp [hsame]⟩
  | circuitOpen =>
      have hsame : (s.settle o i c .circuitOpen).b.state = .half := hstate.trans hhalf
      exact ⟨by simp [hsame], by simp [hsame], by simp [hsame]⟩
  | failure =>
      have hprobe := hok i .failure rfl hhalf (.inr rfl)
      have hnot : (s.settle o i c .failure).b.state ≠ .closed := by
        rw [hstate]
        intro hclosed
        have hwas := ((onFailure_state (o := o) s.b s.clock).2.2.1.mp hclosed).1
        exact absurd (hhalf.symm.trans hwas) (by decide)
      refine ⟨fun hclosed => absurd hclosed hnot, fun _ => ⟨i, rfl, hprobe⟩, ?_⟩
      rintro j outcome heq -
      injection heq with hij
      exact hij ▸ hprobe
  | success =>
      have hprobe := hok i .success rfl hhalf (.inl rfl)
      change _ = (s.b.onSuccess o).state at hstate
      have hby : ∀ j outcome, Action.settle i .success = .settle j outcome →
          (s.settle o i c .success).b.state ≠ .half → s.current j = true := by
        rintro j outcome heq -
        injection heq with hij
        exact hij ▸ hprobe
      rcases onSuccess_cases (o := o) s.b with ⟨-, henough, heq⟩ | ⟨-, heq⟩ | ⟨hother, -⟩
      · refine ⟨fun _ _ => ?_, fun hopen => ?_, hby⟩
        · show o.successThreshold ≤ successes s.period (.settled c.period .success :: s.log)
          rw [current_eq hc hprobe, successes_probe]
          exact Nat.le_trans henough (Nat.succ_le_succ h.probes)
        · rw [hstate, heq] at hopen
          cases hopen
      · have hsame : (s.settle o i c .success).b.state = .half := by rw [hstate, heq, hhalf]
        exact ⟨by simp [hsame], by simp [hsame], hby⟩
      · exact absurd hhalf hother

theorem step_decided {a : Action} (hs : step o s a = some s') (hok : Timely s a)
    (h : Counted s) (hhalf : s.b.state = .half) : Decided o s a s' := by
  obtain ⟨ms, rfl, rfl⟩ | ⟨rfl, hadmits⟩ | ⟨i, outcome, c, rfl, hc, rfl⟩ | ⟨rfl, rfl⟩ :=
    step_cases hs
  · exact ⟨by simp [hhalf], by simp [hhalf], by simp⟩
  · have hsame : s'.b.state = .half := by
      cases hadmits with
      | refused hopen => exact hhalf
      | passed hclosed => exact absurd (hclosed.symm.trans hhalf) (by decide)
      | halfOpened hopen => rfl
      | probed period hfree hperiod => rfl
    exact ⟨by simp [hsame], by simp [hsame], by simp⟩
  · exact h.decided hhalf hok hc
  · exact ⟨fun _ hne => absurd rfl hne, by simp [Breaker.reset], by simp⟩

/-! ## Whole runs -/

/-- From closed to open exactly when the failures reach the threshold. -/
theorem step_opens {a : Action} (hs : step o s a = some s') (h : Sound o s)
    (hclosed : s.b.state = .closed) :
    s'.b.state = .opened ↔ failures s'.log = o.failureThreshold := by
  obtain ⟨hcount, hlt⟩ := h.closed hclosed
  have hstill : ∀ {t : St}, t.b.state = .closed → failures t.log = failures s.log →
      (t.b.state = .opened ↔ failures t.log = o.failureThreshold) := by
    intro t ht hlog
    rw [ht, hlog]
    simp
    omega
  obtain ⟨ms, -, rfl⟩ | ⟨-, hadmits⟩ | ⟨i, outcome, c, -, hc, rfl⟩ | ⟨-, rfl⟩ := step_cases hs
  · exact hstill hclosed rfl
  · cases hadmits with
    | refused hopen => exact absurd hclosed hopen
    | passed _ => exact hstill hclosed rfl
    | halfOpened hopen => exact absurd (hclosed.symm.trans hopen) (by decide)
    | probed period hfree hperiod =>
        rcases hperiod with ⟨hhalf, -⟩ | ⟨hopen, -⟩
        · exact absurd (hclosed.symm.trans hhalf) (by decide)
        · exact absurd (hclosed.symm.trans hopen) (by decide)
  · cases outcome with
    | permanent => exact hstill ((leave_state _ _).trans hclosed) rfl
    | circuitOpen => exact hstill ((leave_state _ _).trans hclosed) rfl
    | success =>
        have hne : (0 : Nat) ≠ o.failureThreshold := Nat.ne_of_lt o.failure_pos
        have hstate : (s.settle o i c .success).b.state = .closed := by
          rcases onSuccess_cases (o := o) s.b with ⟨hhalf, -⟩ | ⟨hhalf, -⟩ | ⟨-, heq⟩
          · exact absurd (hclosed.symm.trans hhalf) (by decide)
          · exact absurd (hclosed.symm.trans hhalf) (by decide)
          · exact (leave_state _ _).trans ((congrArg Breaker.state heq).trans hclosed)
        rw [hstate]
        simpa [St.settle, failures] using hne
    | failure =>
        obtain ⟨-, -, hstays, hnothalf⟩ := onFailure_state (o := o) s.b s.clock
        have hstate : (s.settle o i c .failure).b.state = (s.b.onFailure o s.clock).state :=
          leave_state _ _
        show _ ↔ failures s.log + 1 = o.failureThreshold
        rw [hstate]
        rw [hcount] at hstays
        cases hnew : (s.b.onFailure o s.clock).state with
        | half => exact absurd hnew hnothalf
        | closed =>
            have := (hstays.mp hnew).2
            simp
            omega
        | opened =>
            have : ¬ failures s.log + 1 < o.failureThreshold := fun hlt' => by
              simp [hstays.mpr ⟨hclosed, hlt'⟩] at hnew
            simp
            omega
  · have hne : (0 : Nat) ≠ o.failureThreshold := Nat.ne_of_lt o.failure_pos
    simpa [Breaker.reset, failures] using hne

/-- In every run one probe at most is in flight, and a closed breaker opens exactly
at the threshold. In every run in which only probes of the half-open period settle
in it, with an outcome that counts, its end is decided by them. -/
theorem breaker_phases {ok : St → Action → Prop} {start : Int} {a : Action}
    (h : Reach (step o) ok (St.init start) s) (hok : ok s a) (hs : step o s a = some s') :
    s'.probes.length ≤ 1 ∧
    (s.b.state = .closed → (s'.b.state = .opened ↔ failures s'.log = o.failureThreshold)) ∧
    ((∀ s a, ok s a → Timely s a) → s.b.state = .half → Decided o s a s') := by
  have hsound : Sound o s := h.invariant (init_sound start) fun _ _ _ hI _ hs => step_sound hs hI
  refine ⟨(step_sound hs hsound).single, step_opens hs hsound, fun htimely => ?_⟩
  have hcounted : Counted s := by
    refine h.invariant (I := Counted) ⟨fun _ => rfl, Nat.zero_le _⟩ fun s a s' hI hok hs => ?_
    exact step_counted hs (htimely s a hok) hI
  exact step_decided hs (htimely s a hok) hcounted

theorem timely_of_not_half {a : Action} (h : s.b.state ≠ .half) : Timely s a :=
  fun _ _ _ hhalf => absurd hhalf h

def trial : Opts := ⟨1, 1000, 1, Nat.one_pos, Nat.one_pos⟩

/-- A failure opens the breaker, and the call after the cooldown is the probe. -/
def probeRun : List Action := [.wrap, .settle 0 .failure, .tick 1000, .wrap]

theorem breaker_phases_probe : ∃ s s', exec (step trial) (St.init 0) probeRun = some s ∧
    step trial s (.settle 0 .success) = some s' ∧ s.b.state = .half ∧ s'.b.state = .closed ∧
    Decided trial s (.settle 0 .success) s' := by
  have hmeets : Meets (step trial) Timely (St.init 0) probeRun :=
    ⟨timely_of_not_half (by decide), timely_of_not_half (by decide),
      timely_of_not_half (by decide), timely_of_not_half (by decide), trivial⟩
  obtain ⟨s, s', hrun, hs, hhalf, hclosed, hcurrent⟩ : ∃ s s',
      exec (step trial) (St.init 0) probeRun = some s ∧
      step trial s (.settle 0 .success) = some s' ∧ s.b.state = .half ∧ s'.b.state = .closed ∧
      s.current 0 = true := ⟨_, _, rfl, rfl, rfl, rfl, rfl⟩
  have hok : Timely s (.settle 0 .success) := by
    rintro i outcome heq - -
    injection heq with hi
    exact hi ▸ hcurrent
  exact ⟨s, s', hrun, hs, hhalf, hclosed,
    (breaker_phases (reach_of_meets probeRun hmeets hrun) hok hs).2.2 (fun _ _ => id) hhalf⟩

/-- Two calls are let through while the breaker is closed; the first opens it, and
the second settles beside the probe. -/
def lateRun : List Action := [.wrap, .wrap, .settle 0 .failure, .tick 1000, .wrap]

theorem late_call_decides : ∃ s, exec (step trial) (St.init 0) lateRun = some s ∧
    s.b.state = .half ∧ s.current 0 = false ∧
    (∃ s', step trial s (.settle 0 .success) = some s' ∧ s'.b.state = .closed ∧
      successes s.period s'.log = 0) ∧
    ∃ s', step trial s (.settle 0 .failure) = some s' ∧ s'.b.state = .opened :=
  ⟨_, rfl, rfl, rfl, ⟨_, rfl, rfl, rfl⟩, _, rfl, rfl⟩

end Blamejs.CircuitBreaker
