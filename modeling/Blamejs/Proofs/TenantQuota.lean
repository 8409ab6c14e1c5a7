import Blamejs.Ref.TenantQuota
import Blamejs.Lib.Run
import Mathlib.Tactic.Linarith
import Mathlib.Tactic.Positivity
import Mathlib.Algebra.Order.BigOperators.Group.List

/-!
# What a query budget bounds

The ring holds, bin by bin, the calls that were observed, so a report is about the bins that are
kept. An accepted call comes when these are within the caps, and the bound follows for every set
of times whose accepted calls are all kept when another is accepted: twelve bins in a row, and a
whole window when nothing of it was dropped too early. Twelve bins of a twelfth of the window are
less than a window as soon as the last of them has only begun.
-/

namespace Blamejs.TenantQuota

open Run

variable {opts : Opts} {s s' : St} {a : Act} {clock now : Rat}
variable {α : Type} {p q : Event → Prop} [DecidablePred p] [DecidablePred q]

/-- What the calls of some kind come to. -/
def total [AddMonoid α] (w : Event → α) (p : Event → Prop) [DecidablePred p]
    (log : List Event) : α :=
  ((log.filter (p ·)).map w).sum

/-- The call is in a bin that is kept. -/
def Kept (opts : Opts) (now : Rat) (e : Event) : Prop :=
  opts.bin now - BINS < opts.bin e.time

/-- The call was accepted, in an interval of a length. -/
def AcceptedIn (t₀ length : Rat) (e : Event) : Prop :=
  e.allowed = true ∧ t₀ ≤ e.time ∧ e.time < t₀ + length

instance : DecidablePred (Kept opts now) := fun _ => inferInstanceAs (Decidable (_ < _))

instance {t₀ length : Rat} : DecidablePred (AcceptedIn t₀ length) := fun _ =>
  inferInstanceAs (Decidable (_ ∧ _ ∧ _))

/-- No call that was accepted less than a window ago is in a bin that is dropped by now. -/
def KeepsWindow (opts : Opts) (s : St) (a : Act) : Prop :=
  ∀ e ∈ s.log, e.allowed = true → a.now < e.time + opts.windowMs.value → Kept opts a.now e

instance : Decidable (KeepsWindow opts s a) := inferInstanceAs (Decidable (∀ _ ∈ _, _ → _ → _))

/-! ## Totals -/

theorem total_append [AddMonoid α] (w : Event → α) (log log' : List Event) :
    total w p (log ++ log') = total w p log + total w p log' := by
  rw [total, List.filter_append, List.map_append, List.sum_append]
  rfl

theorem total_singleton [AddMonoid α] (w : Event → α) (e : Event) :
    total w p [e] = if p e then w e else 0 := by
  by_cases he : p e
  · simp [total, he]
  · simp [total, he]

theorem total_eq_zero [AddMonoid α] {w : Event → α} {log : List Event}
    (h : ∀ e ∈ log, ¬ p e) : total w p log = 0 := by
  have hnil : log.filter (p ·) = [] := List.filter_eq_nil_iff.mpr (by simpa using h)
  rw [total, hnil, List.map_nil, List.sum_nil]

/-- More kinds of calls come to more. -/
theorem total_mono {w : Event → Nat} {log : List Event}
    (h : ∀ e ∈ log, p e → q e) : total w p log ≤ total w q log := by
  induction log with
  | nil => exact le_refl _
  | cons e log ih =>
      have htail := ih fun e' he' => h e' (.tail _ he')
      rw [← List.singleton_append, total_append, total_append, total_singleton, total_singleton]
      refine add_le_add ?_ htail
      split
      · next hp => rw [if_pos (h e (.head _) hp)]
      · exact Nat.zero_le _

/-- The bins of a stretch come to what the calls of the whole stretch come to. -/
theorem sum_bins [AddCommMonoid α] (w : Event → α) (start : Int) (log : List Event) :
    ∑ i : Fin BINS, total w (fun e => opts.bin e.time = start + i) log =
      total w (fun e => start ≤ opts.bin e.time ∧ opts.bin e.time < start + BINS) log := by
  induction log with
  | nil => exact Finset.sum_const_zero
  | cons e log ih =>
      rw [← List.singleton_append]
      simp only [total_append, total_singleton, Finset.sum_add_distrib, ih]
      congr 1
      by_cases he : start ≤ opts.bin e.time ∧ opts.bin e.time < start + BINS
      · obtain ⟨k, hk⟩ := Int.eq_ofNat_of_zero_le (Int.sub_nonneg.mpr he.1)
        have hlt : k < BINS := by omega
        rw [if_pos he, Finset.sum_eq_single ⟨k, hlt⟩]
        · rw [if_pos (by dsimp only; omega)]
        · intro i _ hne
          refine if_neg fun h => hne (Fin.ext ?_)
          dsimp only
          omega
        · exact fun h => absurd (Finset.mem_univ _) h
      · rw [if_neg he]
        refine Finset.sum_eq_zero fun i _ => if_neg fun h => he ?_
        have := i.isLt
        omega

/-! ## The ring -/

/-- The bins hold the totals of some calls, from a bin on. -/
def Holds [AddMonoid α] (opts : Opts) (w : Event → α) (log : List Event) (start : Int)
    (bins : Fin BINS → α) : Prop :=
  ∀ i, bins i = total w (fun e => opts.bin e.time = start + i) log

theorem holds_zero [AddMonoid α] {w : Event → α} {log : List Event} {start : Int}
    (h : ∀ e ∈ log, opts.bin e.time < start) : Holds opts w log start fun _ => 0 := by
  refine fun i => (total_eq_zero fun e he heq => ?_).symm
  have := h e he
  omega

theorem Holds.shift [AddMonoid α] {w : Event → α} {log : List Event} {start : Int}
    {bins : Fin BINS → α} (hbins : Holds opts w log start bins)
    (hpast : ∀ e ∈ log, opts.bin e.time < start + BINS) (advance : Nat) :
    Holds opts w log (start + advance) (shift advance bins) := by
  intro i
  rw [TenantQuota.shift]
  split
  · next hlt =>
      rw [hbins]
      have hbin : start + (i.val + advance : Nat) = start + advance + i.val := by push_cast; ring
      simp only [hbin]
  · next hge =>
      refine (total_eq_zero fun e he heq => ?_).symm
      have := hpast e he
      omega

theorem Holds.addLast [AddMonoid α] {w : Event → α} {log : List Event} {start : Int}
    {bins : Fin BINS → α} (hbins : Holds opts w log start bins) {e : Event}
    (he : opts.bin e.time = start + (BINS - 1)) :
    Holds opts w (log ++ [e]) start (addLast bins (w e)) := by
  intro i
  rw [total_append, total_singleton, ← hbins i, TenantQuota.addLast]
  have hone : 1 ≤ BINS := by decide
  by_cases hi : i.val = BINS - 1
  · rw [if_pos hi, if_pos (by omega)]
  · rw [if_neg hi, if_neg (by omega), add_zero]

theorem Holds.sum [AddCommMonoid α] {w : Event → α} {log : List Event} {start : Int}
    {bins : Fin BINS → α} (hbins : Holds opts w log start bins) :
    ∑ i, bins i =
      total w (fun e => start ≤ opts.bin e.time ∧ opts.bin e.time < start + BINS) log := by
  rw [← sum_bins]
  exact Finset.sum_congr rfl fun i _ => hbins i

/-- The ring counts the calls of a log, up to a time. -/
structure Counts (opts : Opts) (log : List Event) (now : Rat) (c : Counter) : Prop where
  last : c.startBin + (BINS - 1) = opts.bin now
  calls : Holds opts (fun _ => 1) log c.startBin c.calls
  rows : Holds opts Event.rows log c.startBin c.rows

/-! ## One step -/

theorem binMs_pos (opts : Opts) : (0 : Rat) < opts.binMs := by
  have hone : (1 : Int) ≤ opts.binMs := le_max_left _ _
  exact_mod_cast hone

theorem rowsCap_nonneg (opts : Opts) : 0 ≤ opts.rowsCap.value :=
  div_nonneg (Int.cast_nonneg (le_of_lt opts.positive.2.1)) (Nat.cast_nonneg _)

theorem bin_mono {t₁ t₂ : Rat} (h : t₁ ≤ t₂) : opts.bin t₁ ≤ opts.bin t₂ :=
  Int.floor_le_floor (div_le_div_of_nonneg_right h (le_of_lt (binMs_pos opts)))

/-- What holds of every state. -/
structure Good (opts : Opts) (s : St) : Prop where
  past : ∀ e ∈ s.log, e.time ≤ s.clock
  fresh : s.counter = none → s.log = []
  ring : ∀ c, s.counter = some c → Counts opts s.log s.clock c

/-- A ring that is brought to a time counts the same calls. -/
theorem slide_counts (hgood : Good opts s) (hle : s.clock ≤ now) :
    Counts opts s.log now (slide opts s.counter now) := by
  have hbin : opts.bin s.clock ≤ opts.bin now := bin_mono hle
  have hempty (hlog : ∀ e ∈ s.log, opts.bin e.time < opts.bin now - (BINS - 1)) :
      Counts opts s.log now ⟨fun _ => 0, fun _ => 0, opts.bin now - (BINS - 1)⟩ :=
    ⟨by dsimp only; omega, holds_zero hlog, holds_zero hlog⟩
  cases hc : s.counter with
  | none =>
      have hnil := hgood.fresh hc
      rw [slide, Option.getD_none, if_neg (by dsimp only; omega)]
      exact hempty (by simp [hnil])
  | some c =>
      have hcounts := hgood.ring c hc
      have hlast := hcounts.last
      have hpast (e) (he : e ∈ s.log) : opts.bin e.time < c.startBin + BINS := by
        have := @bin_mono opts _ _ (hgood.past e he)
        omega
      rw [slide, Option.getD_some]
      split
      · split
        · next hfar => exact hempty fun e he => by have := hpast e he; omega
        · next hpos hnear =>
            obtain ⟨n, hn⟩ := Int.eq_ofNat_of_zero_le (le_of_lt hpos)
            have hstart : opts.bin now - (BINS - 1) = c.startBin + n := by omega
            rw [hn, Int.toNat_natCast, hstart]
            exact ⟨by dsimp only; omega, hcounts.calls.shift hpast n, hcounts.rows.shift hpast n⟩
      · next hsame =>
          have hnow : opts.bin now = opts.bin s.clock := by omega
          exact ⟨hnow ▸ hlast, hcounts.calls, hcounts.rows⟩

theorem step_cases (h : step opts s a = some s') : s.clock ≤ a.now ∧
    s' = ⟨a.now, some (observe opts s.counter a.now a.rowsRead).1, s.log ++
      [⟨a.now, rowsOf a.rowsRead, (observe opts s.counter a.now a.rowsRead).2.allowed⟩]⟩ := by
  rw [step] at h
  split at h
  · next hle => exact ⟨hle, (Option.some.inj h).symm⟩
  · cases h

theorem Counts.addLast {log : List Event} {c : Counter} {e : Event}
    (h : Counts opts log e.time c) :
    Counts opts (log ++ [e]) e.time
      { c with calls := addLast c.calls 1, rows := addLast c.rows e.rows } where
  last := h.last
  calls := h.calls.addLast h.last.symm
  rows := h.rows.addLast h.last.symm

/-- The ring after a call counts the call too. -/
theorem observe_counts (hgood : Good opts s) (h : step opts s a = some s') :
    Counts opts s'.log a.now (observe opts s.counter a.now a.rowsRead).1 := by
  obtain ⟨hle, rfl⟩ := step_cases h
  have hslide := slide_counts hgood hle
  exact hslide.addLast
    (e := ⟨a.now, rowsOf a.rowsRead, (observe opts s.counter a.now a.rowsRead).2.allowed⟩)

theorem good_init (opts : Opts) (clock : Rat) : Good opts (St.init clock) :=
  ⟨by simp [St.init], fun _ => rfl, by simp [St.init]⟩

theorem good_step (hgood : Good opts s) (h : step opts s a = some s') : Good opts s' := by
  have hcounts := observe_counts hgood h
  obtain ⟨hle, rfl⟩ := step_cases h
  refine ⟨fun e he => ?_, fun hnone => ?_, fun c hc => ?_⟩
  · rcases List.mem_append.mp he with hold | hnew
    · exact (hgood.past e hold).trans hle
    · rw [List.mem_singleton.mp hnew]
  · cases hnone
  · cases hc
    exact hcounts

/-- A report is about the calls of the bins that are kept. -/
theorem report_kept (hgood : Good opts s) (h : step opts s a = some s') :
    (observe opts s.counter a.now a.rowsRead).2.totals =
      ⟨total (fun _ => 1) (Kept opts a.now) s'.log, total Event.rows (Kept opts a.now) s'.log⟩ := by
  have hcounts := observe_counts hgood h
  have hgood' := good_step hgood h
  have hclock : s'.clock = a.now := by rw [(step_cases h).2]
  have hlast := hcounts.last
  have hkept {α : Type} [AddCommMonoid α] (w : Event → α) :
      total w (fun e => (observe opts s.counter a.now a.rowsRead).1.startBin ≤ opts.bin e.time ∧
        opts.bin e.time < (observe opts s.counter a.now a.rowsRead).1.startBin + BINS) s'.log =
      total w (Kept opts a.now) s'.log := by
    rw [total, total]
    congr 2
    refine List.filter_congr fun e he => decide_eq_decide.mpr ?_
    have hpast := @bin_mono opts _ _ (hclock ▸ hgood'.past e he)
    rw [Kept]
    omega
  have hsum : (observe opts s.counter a.now a.rowsRead).2.totals =
      TenantQuota.sum (observe opts s.counter a.now a.rowsRead).1 := rfl
  rw [hsum, TenantQuota.sum, hcounts.calls.sum, hcounts.rows.sum, hkept, hkept]

/-! ## A whole run -/

/-- The accepted calls of some times are within the caps. -/
structure Within (opts : Opts) (p : Rat → Prop) [DecidablePred p] (log : List Event) : Prop where
  calls : ((total (fun _ => 1) (fun e => e.allowed = true ∧ p e.time) log : Nat) : Int) ≤
    opts.maxCalls
  rows : (total Event.rows (fun e => e.allowed = true ∧ p e.time) log : Nat) ≤
    opts.rowsCap.value

theorem within_nil (opts : Opts) (p : Rat → Prop) [DecidablePred p] : Within opts p [] :=
  ⟨le_trans zero_le_one (le_max_left _ _), rowsCap_nonneg opts⟩

/-- A call keeps the bound for a set of times when the accepted calls of these times are kept
at it. -/
theorem within_step {p : Rat → Prop} [DecidablePred p] (hgood : Good opts s)
    (hkept : p a.now → ∀ e ∈ s.log, e.allowed = true → p e.time → Kept opts a.now e)
    (hwithin : Within opts p s.log) (h : step opts s a = some s') : Within opts p s'.log := by
  have hreport := report_kept hgood h
  obtain ⟨hle, rfl⟩ := step_cases h
  by_cases hnew : (observe opts s.counter a.now a.rowsRead).2.allowed = true ∧ p a.now
  · obtain ⟨hallowed, hnow⟩ := hnew
    have hcaps : ((observe opts s.counter a.now a.rowsRead).2.totals.calls : Int) ≤ opts.maxCalls ∧
        ((observe opts s.counter a.now a.rowsRead).2.totals.rowsRead : Rat) ≤
          opts.rowsCap.value :=
      of_decide_eq_true hallowed
    rw [hreport] at hcaps
    have hmore (e) (he : e ∈ s.log ++
        [⟨a.now, rowsOf a.rowsRead, (observe opts s.counter a.now a.rowsRead).2.allowed⟩])
        (hp : e.allowed = true ∧ p e.time) : Kept opts a.now e := by
      rcases List.mem_append.mp he with hold | hlast
      · exact hkept hnow e hold hp.1 hp.2
      · rw [List.mem_singleton.mp hlast]
        exact sub_lt_self _ (by decide)
    exact ⟨le_trans (Int.ofNat_le.mpr (total_mono hmore)) hcaps.1,
      le_trans (Nat.cast_le.mpr (total_mono hmore)) hcaps.2⟩
  · have hsame {α : Type} [AddMonoid α] (w : Event → α) :
        total w (fun e => e.allowed = true ∧ p e.time) (s.log ++
          [⟨a.now, rowsOf a.rowsRead, (observe opts s.counter a.now a.rowsRead).2.allowed⟩]) =
        total w (fun e => e.allowed = true ∧ p e.time) s.log := by
      rw [total_append, total_singleton, if_neg hnew, add_zero]
    exact ⟨by rw [hsame]; exact hwithin.calls, by rw [hsame]; exact hwithin.rows⟩

theorem good_reach {ok : St → Act → Prop} (h : Reach (step opts) ok (St.init clock) s) :
    Good opts s :=
  h.invariant (good_init opts clock) fun _ _ _ hgood _ hstep => good_step hgood hstep

/-- Twelve bins in a row are bounded in every run. -/
theorem within_bins (b : Int) (hrun : Reach (step opts) Always (St.init clock) s) :
    Within opts (fun t => b ≤ opts.bin t ∧ opts.bin t < b + BINS) s.log := by
  refine hrun.invariant_of (J := Good opts)
    (I := fun s => Within opts (fun t => b ≤ opts.bin t ∧ opts.bin t < b + BINS) s.log)
    (fun s => good_reach) (within_nil opts _) ?_
  intro s a s' hgood _ hwithin _ hstep
  refine within_step hgood (fun hnow e _ _ he => ?_) hwithin hstep
  rw [Kept]
  omega

/-- A report is about the calls that were observed in the bins that are kept, and the calls that
were accepted in any stretch of a window are within the caps, in runs that drop no call that was
accepted less than a window ago. -/
theorem budget_slides (hrun : Reach (step opts) (KeepsWindow opts) (St.init clock) s) :
    (∀ a s', step opts s a = some s' →
      (observe opts s.counter a.now a.rowsRead).2.totals =
        ⟨total (fun _ => 1) (Kept opts a.now) s'.log,
          total Event.rows (Kept opts a.now) s'.log⟩) ∧
    ∀ t, ((total (fun _ => 1) (AcceptedIn t opts.windowMs.value) s.log : Nat) : Int) ≤
        opts.maxCalls ∧
      (total Event.rows (AcceptedIn t opts.windowMs.value) s.log : Nat) ≤
        opts.rowsCap.value := by
  refine ⟨fun a s' hstep => report_kept (good_reach hrun) hstep, fun t => ?_⟩
  have hwithin : Within opts (fun time => t ≤ time ∧ time < t + opts.windowMs.value) s.log := by
    refine hrun.invariant_of (J := Good opts)
      (I := fun s => Within opts (fun time => t ≤ time ∧ time < t + opts.windowMs.value) s.log)
      (fun s => good_reach) (within_nil opts _) ?_
    intro s a s' hgood _ hwithin hkeeps hstep
    refine within_step hgood (fun hnow e he hallowed hp => hkeeps e he hallowed ?_) hwithin hstep
    linarith [hnow.2, hp.1]
  exact ⟨hwithin.calls, hwithin.rows⟩

/-- The budget that no option changes. -/
def defaults : Opts :=
  ⟨.ofInt 100, .ofInt 50000, .ofInt 60000, by decide +kernel, by decide +kernel⟩

/-- A budget whose exact product, 435, is rounded down. -/
example : Opts.maxCalls
    ⟨.ofInt 100, .ofInt 50000, .ofInt 4350, by decide +kernel, by decide +kernel⟩ = 434 := by
  decide +kernel

/-- Calls in two bins, a refused one and one more: what the first minute accepts is within the
caps, and the last report is about all four. -/
theorem budget_slides_defaults : ∃ s : St,
    exec (step defaults) (St.init 0)
      [⟨4999, some 40000⟩, ⟨12000, some 9000⟩, ⟨13000, some 2000⟩] = some s ∧
    s.log.map Event.allowed = [true, true, false] ∧
    (observe defaults s.counter 59999 (some (-1))).2.totals = ⟨4, 51000⟩ ∧
    ∀ t, ((total Event.rows (AcceptedIn t defaults.windowMs.value) s.log : Nat) : Rat) ≤
      defaults.rowsCap.value := by
  have hmeets : Meets (step defaults) (KeepsWindow defaults) (St.init 0)
      [⟨4999, some 40000⟩, ⟨12000, some 9000⟩, ⟨13000, some 2000⟩] :=
    ⟨by decide +kernel, by decide +kernel, by decide +kernel, trivial⟩
  refine ⟨_, rfl, by decide +kernel, by decide +kernel, fun t => ?_⟩
  exact ((budget_slides (reach_of_meets _ hmeets rfl)).2 t).2

/-- Calls in three bins, the last of them refused. -/
theorem within_bins_defaults : ∃ s : St,
    exec (step defaults) (St.init 0)
      [⟨1, some 30000⟩, ⟨7000, some 20000⟩, ⟨56000, some 1⟩] = some s ∧
    s.log.map Event.allowed = [true, true, false] ∧
    Within defaults (fun t => 0 ≤ defaults.bin t ∧ defaults.bin t < 0 + BINS) s.log := by
  refine ⟨_, rfl, by decide +kernel, ?_⟩
  have hrun {s : St} (h : exec (step defaults) (St.init 0)
      [⟨1, some 30000⟩, ⟨7000, some 20000⟩, ⟨56000, some 1⟩] = some s) :=
    within_bins 0 (reach_of_exec _ h)
  exact hrun rfl

/-- Twice the rows are read in less than a minute. -/
theorem dropped_too_early : ∃ s : St,
    exec (step defaults) (St.init 0) [⟨4999, some 50000⟩, ⟨60000, some 50000⟩] = some s ∧
    ¬ ((total Event.rows (AcceptedIn 4999 defaults.windowMs.value) s.log : Nat) : Rat) ≤
      defaults.rowsCap.value := by
  refine ⟨_, rfl, ?_⟩
  decide +kernel

end Blamejs.TenantQuota
