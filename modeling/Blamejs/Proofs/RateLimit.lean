import Blamejs.Ref.RateLimit
import Mathlib.Tactic.Linarith
import Mathlib.Tactic.FieldSimp

/-!
# How much a token bucket lets through

The takes that were allowed from a time on and the tokens that are left never come to more than
a full bucket and what was refilled since. A take moves one token from one side to the other. The
sweep keeps the sum when the bucket that it deletes is full again, and breaks it when it is not:
a bucket that takes more than an hour to fill is deleted too early.
-/

namespace Blamejs.RateLimit

open Run

variable {K : Type} [DecidableEq K] {opts : Opts} {s s' : St K} {key : K} {now t₁ t₂ : Rat}

/-- The tokens of a key at a time. -/
def level (opts : Opts) (s : St K) (key : K) (now : Rat) : Rat :=
  (bucketAt opts now (s.buckets key)).tokens

/-- The takes of a key that were allowed between two times. -/
def granted (log : List (Event K)) (key : K) (t₁ t₂ : Rat) : Nat :=
  log.countP fun e => e.key = key ∧ e.answer.allowed ∧ t₁ ≤ e.time ∧ e.time ≤ t₂

/-- A sweep deletes only what is full by then. -/
def DeletesFull (opts : Opts) (s : St K) : Act K → Prop
  | .take _ _ => True
  | .gc now => ∀ k b, s.buckets k = some b → sweep now (some b) = none →
      opts.burst ≤ b.tokens + (now - b.lastRefillAt) / 1000 * opts.refillPerSecond

/-- The action is no take of the key. -/
def Act.Spares (key : K) : Act K → Prop
  | .take _ k => k ≠ key
  | .gc _ => True

/-! ## One step -/

theorem take_cases (opts : Opts) (now : Rat) (b : Option Bucket) :
    (1 ≤ (bucketAt opts now b).tokens ∧ (take opts now b).2.allowed = true ∧
      (take opts now b).1 = ⟨(bucketAt opts now b).tokens - 1, now⟩) ∨
    ((bucketAt opts now b).tokens < 1 ∧ (take opts now b).2.allowed = false ∧
      (take opts now b).1 = ⟨(bucketAt opts now b).tokens, now⟩ ∧
      (take opts now b).2.retryAfter =
        ⌈(⌈(1 - (bucketAt opts now b).tokens) / opts.refillPerSecond * 1000⌉ : Rat) / 1000⌉) := by
  have hlast : (bucketAt opts now b).lastRefillAt = now := by cases b <;> rfl
  by_cases hfull : 1 ≤ (bucketAt opts now b).tokens
  · refine .inl ⟨hfull, ?_⟩
    rw [take, if_pos hfull, hlast]
    exact ⟨rfl, rfl⟩
  · refine .inr ⟨lt_of_not_ge hfull, ?_⟩
    rw [take, if_neg hfull]
    refine ⟨rfl, ?_, rfl⟩
    cases b <;> rfl

theorem step_cases {a : Act K} (h : step opts s a = some s') :
    (∃ now k, a = .take now k ∧ s.clock ≤ now ∧
      s' = ⟨now, Function.update s.buckets k (some (take opts now (s.buckets k)).1),
        s.log ++ [⟨k, now, (take opts now (s.buckets k)).2⟩]⟩) ∨
    ∃ now, a = .gc now ∧ s.clock ≤ now ∧
      s' = ⟨now, fun k => sweep now (s.buckets k), s.log⟩ := by
  cases a with
  | take now k =>
      rw [step] at h
      split at h
      · next hle => exact .inl ⟨now, k, rfl, hle, (Option.some.inj h).symm⟩
      · cases h
  | gc now =>
      rw [step] at h
      split at h
      · next hle => exact .inr ⟨now, rfl, hle, (Option.some.inj h).symm⟩
      · cases h

theorem bucketAt_le (opts : Opts) (now : Rat) (b : Option Bucket) :
    (bucketAt opts now b).tokens ≤ opts.burst := by
  cases b with
  | none => exact le_refl _
  | some b => exact min_le_left _ _

/-- A bucket that has just been filled is as full at that time. -/
theorem bucketAt_now {tokens : Rat} (h : tokens ≤ opts.burst) :
    (bucketAt opts now (some ⟨tokens, now⟩)).tokens = tokens := by
  rw [bucketAt, refill, sub_self, zero_div, zero_mul, add_zero, min_eq_right h]

/-- No more comes in than is refilled. -/
theorem bucketAt_mono {now' : Rat} (h : now ≤ now') (b : Option Bucket) :
    (bucketAt opts now' b).tokens ≤
      (bucketAt opts now b).tokens + (now' - now) / 1000 * opts.refillPerSecond := by
  have hadd : 0 ≤ (now' - now) / 1000 * opts.refillPerSecond :=
    mul_nonneg (div_nonneg (sub_nonneg.mpr h) (by norm_num)) (le_of_lt opts.refillPerSecond_pos)
  cases b with
  | none => exact le_add_of_nonneg_right hadd
  | some b =>
      have hsum : b.tokens + (now' - b.lastRefillAt) / 1000 * opts.refillPerSecond =
          b.tokens + (now - b.lastRefillAt) / 1000 * opts.refillPerSecond +
            (now' - now) / 1000 * opts.refillPerSecond := by ring
      rw [bucketAt, bucketAt, refill, refill, hsum, ← min_add_add_right]
      exact min_le_min (le_add_of_nonneg_right hadd) (le_refl _)

/-- A bucket that is full again may be deleted. -/
theorem bucketAt_sweep {b : Option Bucket} (h : ∀ b', b = some b' → sweep now (some b') = none →
      opts.burst ≤ b'.tokens + (now - b'.lastRefillAt) / 1000 * opts.refillPerSecond) :
    bucketAt opts now (sweep now b) = bucketAt opts now b := by
  cases b with
  | none => rfl
  | some b =>
      cases hsweep : sweep now (some b) with
      | none => rw [bucketAt, bucketAt, refill, min_eq_left (h b rfl hsweep)]
      | some b' =>
          rw [sweep, Option.filter_eq_some_iff] at hsweep
          rw [hsweep.1]

/-! ## A whole run -/

/-- What holds of a key in every state, from any time on. -/
structure Conforms (opts : Opts) (key : K) (s : St K) : Prop where
  past : ∀ e ∈ s.log, e.time ≤ s.clock
  sum : ∀ t₁ ≤ s.clock, granted s.log key t₁ s.clock + level opts s key s.clock ≤
    opts.burst + opts.refillPerSecond * (s.clock - t₁) / 1000
  rate : ∀ t₁ t₂, t₁ ≤ t₂ →
    (granted s.log key t₁ t₂ : Rat) ≤ opts.burst + opts.refillPerSecond * (t₂ - t₁) / 1000

theorem granted_eq_zero {log : List (Event K)} (h : ∀ e ∈ log, e.time < t₁) :
    granted log key t₁ t₂ = 0 := by
  refine List.countP_eq_zero.mpr fun e he => ?_
  have := h e he
  simp only [decide_eq_true_eq, not_and, not_le]
  exact fun _ _ hle => absurd hle (not_le.mpr this)

/-- Nothing is granted after the clock. -/
theorem granted_clock {log : List (Event K)} {clock : Rat} (h : ∀ e ∈ log, e.time ≤ clock)
    (hle : clock ≤ t₂) : granted log key t₁ t₂ = granted log key t₁ clock := by
  refine List.countP_congr fun e he => ?_
  have hclock := h e he
  simp only [decide_eq_true_eq, and_congr_right_iff]
  exact fun _ _ _ => ⟨fun _ => hclock, fun h => h.trans hle⟩

theorem granted_snoc (log : List (Event K)) (e : Event K) : granted (log ++ [e]) key t₁ t₂ =
    granted log key t₁ t₂ +
      if e.key = key ∧ e.answer.allowed ∧ t₁ ≤ e.time ∧ e.time ≤ t₂ then 1 else 0 := by
  rw [granted, List.countP_append, List.countP_singleton]
  simp only [decide_eq_true_eq]
  rfl

theorem refilled_nonneg (opts : Opts) (h : t₁ ≤ t₂) :
    0 ≤ opts.refillPerSecond * (t₂ - t₁) / 1000 :=
  div_nonneg (mul_nonneg (le_of_lt opts.refillPerSecond_pos) (sub_nonneg.mpr h)) (by norm_num)

/-- The sum when the clock has moved on. -/
theorem Conforms.later (h : Conforms opts key s) (hle : s.clock ≤ now) (ht : t₁ ≤ now) :
    granted s.log key t₁ now + level opts s key now ≤
      opts.burst + opts.refillPerSecond * (now - t₁) / 1000 := by
  rw [granted_clock h.past hle]
  by_cases hbefore : t₁ ≤ s.clock
  · have hsum := h.sum t₁ hbefore
    have hmore := @bucketAt_mono opts _ _ hle (s.buckets key)
    unfold level at hsum ⊢
    have hsplit : opts.refillPerSecond * (now - t₁) / 1000 =
        opts.refillPerSecond * (s.clock - t₁) / 1000 +
          (now - s.clock) / 1000 * opts.refillPerSecond := by ring
    linarith
  · have hnone : granted s.log key t₁ s.clock = 0 :=
      granted_eq_zero fun e he => (h.past e he).trans_lt (not_le.mp hbefore)
    have hfull := bucketAt_le opts now (s.buckets key)
    have hnonneg := refilled_nonneg opts ht
    unfold level
    rw [hnone, Nat.cast_zero]
    linarith

theorem conforms_init (opts : Opts) (key : K) (clock : Rat) :
    Conforms opts key (St.init clock) where
  past := by simp [St.init]
  sum := by
    intro t₁ ht
    have hnonneg : 0 ≤ opts.refillPerSecond * (clock - t₁) / 1000 := refilled_nonneg opts ht
    simp only [St.init, granted, List.countP_nil, level, bucketAt, Nat.cast_zero, zero_add]
    linarith
  rate := by
    intro t₁ t₂ ht
    have := refilled_nonneg opts ht
    have := opts.burst_pos
    simp only [St.init, granted, List.countP_nil, Nat.cast_zero]
    linarith

/-- The bound follows from the sum, as no bucket is in debt. -/
theorem rate_of_sum (s' : St K) (hpast : ∀ e ∈ s'.log, e.time ≤ s'.clock)
    (hsum : ∀ t₁ ≤ s'.clock, granted s'.log key t₁ s'.clock + level opts s' key s'.clock ≤
      opts.burst + opts.refillPerSecond * (s'.clock - t₁) / 1000)
    (hnonneg : 0 ≤ level opts s' key s'.clock) (hle : s'.clock ≤ t₂) (ht : t₁ ≤ t₂) :
    (granted s'.log key t₁ t₂ : Rat) ≤ opts.burst + opts.refillPerSecond * (t₂ - t₁) / 1000 := by
  rw [granted_clock hpast hle]
  by_cases hbefore : t₁ ≤ s'.clock
  · have := hsum t₁ hbefore
    have hmore := refilled_nonneg opts hle
    have hsplit : opts.refillPerSecond * (t₂ - t₁) / 1000 =
        opts.refillPerSecond * (s'.clock - t₁) / 1000 +
          opts.refillPerSecond * (t₂ - s'.clock) / 1000 := by ring
    linarith
  · rw [granted_eq_zero fun e he => (hpast e he).trans_lt (not_le.mp hbefore), Nat.cast_zero]
    have := refilled_nonneg opts ht
    have := opts.burst_pos
    linarith

/-- No bucket is in debt, and none is from the future. -/
structure Sound (s : St K) : Prop where
  nonneg : ∀ k b, s.buckets k = some b → 0 ≤ b.tokens
  past : ∀ k b, s.buckets k = some b → b.lastRefillAt ≤ s.clock

omit [DecidableEq K] in
theorem Sound.level_nonneg (h : Sound s) (hle : s.clock ≤ now) : 0 ≤ level opts s key now := by
  unfold level
  cases hb : s.buckets key with
  | none => exact le_of_lt opts.burst_pos
  | some b =>
      have hlast := (h.past key b hb).trans hle
      refine le_min (le_of_lt opts.burst_pos) (add_nonneg (h.nonneg key b hb) ?_)
      exact mul_nonneg (div_nonneg (sub_nonneg.mpr hlast) (by norm_num))
        (le_of_lt opts.refillPerSecond_pos)

theorem sound_step {a : Act K} (h : Sound s) (hstep : step opts s a = some s') : Sound s' := by
  rcases step_cases hstep with ⟨now, k, rfl, hle, rfl⟩ | ⟨now, rfl, hle, rfl⟩
  · have hlevel : 0 ≤ (bucketAt opts now (s.buckets k)).tokens := h.level_nonneg hle
    have hnew : 0 ≤ (take opts now (s.buckets k)).1.tokens ∧
        (take opts now (s.buckets k)).1.lastRefillAt ≤ now := by
      rcases take_cases opts now (s.buckets k) with ⟨hone, -, hb⟩ | ⟨-, -, hb, -⟩
      · rw [hb]
        exact ⟨sub_nonneg.mpr hone, le_refl _⟩
      · rw [hb]
        exact ⟨hlevel, le_refl _⟩
    constructor
    · intro k' b hb
      dsimp only at hb
      rw [Function.update_apply] at hb
      split at hb
      · exact Option.some.inj hb ▸ hnew.1
      · exact h.nonneg k' b hb
    · intro k' b hb
      dsimp only at hb ⊢
      rw [Function.update_apply] at hb
      split at hb
      · exact Option.some.inj hb ▸ hnew.2
      · exact (h.past k' b hb).trans hle
  · constructor
    · intro k b hb
      exact h.nonneg k b (Option.filter_eq_some_iff.mp hb).1
    · intro k b hb
      exact (h.past k b (Option.filter_eq_some_iff.mp hb).1).trans hle

theorem conforms_step {a : Act K} (hsound : Sound s) (h : Conforms opts key s)
    (hok : DeletesFull opts s a) (hstep : step opts s a = some s') : Conforms opts key s' := by
  have hsound' := sound_step hsound hstep
  rcases step_cases hstep with ⟨now, k, rfl, hle, rfl⟩ | ⟨now, rfl, hle, rfl⟩
  · have hpast : ∀ e ∈ s.log ++ [⟨k, now, (take opts now (s.buckets k)).2⟩], e.time ≤ now := by
      intro e he
      rcases List.mem_append.mp he with he | he
      · exact (h.past e he).trans hle
      · rw [List.mem_singleton.mp he]
    have hsum : ∀ t₁ ≤ now,
        (granted (s.log ++ [⟨k, now, (take opts now (s.buckets k)).2⟩]) key t₁ now : Rat) +
          (bucketAt opts now (Function.update s.buckets k
            (some (take opts now (s.buckets k)).1) key)).tokens ≤
          opts.burst + opts.refillPerSecond * (now - t₁) / 1000 := by
      intro t₁ ht
      have hlater := h.later hle ht
      rw [granted_snoc, Nat.cast_add]
      unfold level at hlater
      by_cases hkey : k = key
      · subst hkey
        have hbound := bucketAt_le opts now (s.buckets k)
        rw [Function.update_self]
        rcases take_cases opts now (s.buckets k) with ⟨-, hallowed, hb⟩ | ⟨-, hrefused, hb, -⟩
        · rw [hb, bucketAt_now (by linarith), if_pos ⟨rfl, hallowed, ht, le_refl _⟩, Nat.cast_one]
          linarith
        · rw [hb, bucketAt_now hbound, if_neg (by rw [hrefused]; simp), Nat.cast_zero]
          linarith
      · rw [Function.update_of_ne (Ne.symm hkey), if_neg (fun hc => hkey hc.1), Nat.cast_zero]
        linarith
    refine ⟨hpast, hsum, fun t₁ t₂ ht => ?_⟩
    by_cases hnow : now ≤ t₂
    · exact rate_of_sum ⟨now, _, _⟩ hpast hsum (hsound'.level_nonneg (le_refl _)) hnow ht
    · rw [granted_snoc, if_neg (fun hc => hnow hc.2.2.2), Nat.add_zero]
      exact h.rate t₁ t₂ ht
  · have hsame : bucketAt opts now (sweep now (s.buckets key)) =
        bucketAt opts now (s.buckets key) := bucketAt_sweep fun b hb hs => hok key b hb hs
    have hsum : ∀ t₁ ≤ now, (granted s.log key t₁ now : Rat) +
        (bucketAt opts now (sweep now (s.buckets key))).tokens ≤
          opts.burst + opts.refillPerSecond * (now - t₁) / 1000 := by
      intro t₁ ht
      rw [hsame]
      exact h.later hle ht
    exact ⟨fun e he => (h.past e he).trans hle, hsum, h.rate⟩

omit [DecidableEq K] in
/-- Where an hour fills a bucket, every sweep deletes only what is full. -/
theorem deletesFull_of_hour (hhour : opts.burst ≤ 3600 * opts.refillPerSecond) (h : Sound s)
    (a : Act K) : DeletesFull opts s a := by
  cases a with
  | take now k => trivial
  | gc now =>
      intro k b hb hsweep
      have hidle : b.lastRefillAt < now - 3600000 := by
        by_contra hle
        rw [sweep, Option.filter_some_pos (by simpa using hle)] at hsweep
        cases hsweep
      have hhours : 3600 ≤ (now - b.lastRefillAt) / 1000 := by
        rw [le_div_iff₀ (by norm_num)]
        linarith
      have hrefilled := mul_le_mul_of_nonneg_right hhours (le_of_lt opts.refillPerSecond_pos)
      have := h.nonneg k b hb
      linarith

theorem sound_reach {clock : Rat} {ok : St K → Act K → Prop}
    (h : Reach (step opts) ok (St.init clock) s) : Sound s :=
  h.invariant ⟨fun _ _ hb => absurd hb (by simp [St.init]),
    fun _ _ hb => absurd hb (by simp [St.init])⟩
    fun _ _ _ hs _ hstep => sound_step hs hstep

theorem reach_of_hour {clock : Rat} (hhour : opts.burst ≤ 3600 * opts.refillPerSecond)
    (h : Reach (step opts) Always (St.init clock) s) :
    Reach (step opts) (DeletesFull opts) (St.init clock) s := by
  induction h with
  | start => exact .start
  | next hreach _ hstep ih =>
      exact .next ih (deletesFull_of_hour hhour (sound_reach hreach) _) hstep

theorem conforms_reach {clock : Rat} (h : Reach (step opts) (DeletesFull opts) (St.init clock) s) :
    Conforms opts key s :=
  h.invariant_of (fun _ hr => sound_reach hr) (conforms_init opts key clock)
    fun _ _ _ hsound _ hs hok hstep => conforms_step hsound hs hok hstep

/-! ## After a refusal -/

/-- A bucket stays as it is, or is deleted, while no take of its key comes. -/
theorem bucket_spared {b : Option Bucket} (hb : s.buckets key = b)
    (h : Reach (step opts) (fun _ a => a.Spares key) s s') :
    s'.buckets key = b ∨ s'.buckets key = none := by
  refine h.invariant (I := fun s => s.buckets key = b ∨ s.buckets key = none) (.inl hb) ?_
  rintro s a s' hs hspares hstep
  rcases step_cases hstep with ⟨now, k, rfl, -, rfl⟩ | ⟨now, rfl, -, rfl⟩
  · have hne : key ≠ k := fun heq => hspares heq.symm
    dsimp only
    rwa [Function.update_of_ne hne]
  · dsimp only
    cases hbucket : s.buckets key with
    | none => exact .inr rfl
    | some b' =>
        cases hsweep : sweep now (some b') with
        | none => exact .inr rfl
        | some b'' =>
            rw [sweep, Option.filter_eq_some_iff] at hsweep
            rw [← hsweep.1, ← hbucket]
            exact hs

/-- After the time that a refusal names there is a token. -/
theorem one_le_of_retryAfter {tokens now' : Rat} (hburst : 1 ≤ opts.burst)
    (h : now + 1000 * (⌈(⌈(1 - tokens) / opts.refillPerSecond * 1000⌉ : Rat) / 1000⌉ : Rat) ≤
      now') :
    1 ≤ (bucketAt opts now' (some ⟨tokens, now⟩)).tokens := by
  have hwait := Int.le_ceil ((1 - tokens) / opts.refillPerSecond * 1000)
  have hseconds := Int.le_ceil ((⌈(1 - tokens) / opts.refillPerSecond * 1000⌉ : Rat) / 1000)
  have hdeficit : (1 - tokens) / opts.refillPerSecond ≤ (now' - now) / 1000 := by
    rw [le_div_iff₀ (by norm_num)]
    rw [div_le_iff₀ (by norm_num)] at hseconds
    linarith
  rw [div_le_iff₀ opts.refillPerSecond_pos] at hdeficit
  exact le_min hburst (by linarith)

/-- In runs whose sweeps delete only full buckets, no more is granted than the rate allows; a take
is refused only for want of a token, and is not refused again after the time that it was told. -/
theorem takes_conform {clock : Rat} (hburst : 1 ≤ opts.burst)
    (hrun : Reach (step opts) (DeletesFull opts) (St.init clock) s) (key : K) :
    (∀ t₁ t₂, t₁ ≤ t₂ →
      (granted s.log key t₁ t₂ : Rat) ≤ opts.burst + opts.refillPerSecond * (t₂ - t₁) / 1000) ∧
    ∀ now s', step opts s (.take now key) = some s' →
      (take opts now (s.buckets key)).2.allowed = false →
      level opts s key now < 1 ∧
      ∀ s'' now', Reach (step opts) (fun _ a => a.Spares key) s' s'' →
        now + 1000 * ((take opts now (s.buckets key)).2.retryAfter : Rat) ≤ now' →
        (take opts now' (s''.buckets key)).2.allowed = true := by
  refine ⟨(conforms_reach hrun).rate, fun now s' hstep hrefused => ?_⟩
  rcases take_cases opts now (s.buckets key) with ⟨-, hallowed, -⟩ | ⟨hlt, -, hb, hretry⟩
  · rw [hrefused] at hallowed
    cases hallowed
  refine ⟨hlt, fun s'' now' hspared hlater => ?_⟩
  have hbucket : s'.buckets key = some ⟨(bucketAt opts now (s.buckets key)).tokens, now⟩ := by
    rcases step_cases hstep with ⟨_, _, heq, -, rfl⟩ | ⟨_, heq, -⟩
    · obtain ⟨rfl, rfl⟩ := Act.take.inj heq
      dsimp only
      rw [Function.update_self, hb]
    · cases heq
  have hone : 1 ≤ (bucketAt opts now' (s''.buckets key)).tokens := by
    rcases bucket_spared hbucket hspared with hsame | hdeleted
    · rw [hsame]
      exact one_le_of_retryAfter hburst (hretry ▸ hlater)
    · rw [hdeleted]
      exact hburst
  rcases take_cases opts now' (s''.buckets key) with ⟨-, hallowed, -⟩ | ⟨hless, -⟩
  · exact hallowed
  · exact absurd hone (not_le.mpr hless)

/-- One token, and two hours to fill it. -/
def slow : Opts := ⟨1, 1 / 7200, by norm_num, by norm_num⟩

/-- One token, and a second to fill it. -/
def quick : Opts := ⟨1, 1, by norm_num, by norm_num⟩

theorem takes_conform_quick : ∃ s : St Unit,
    exec (step quick) (St.init 0) [.take 0 (), .take 1 (), .gc 3600002] = some s ∧
    ((granted s.log () 0 1 : Rat) ≤ quick.burst + quick.refillPerSecond * (1 - 0) / 1000) := by
  obtain ⟨s, hexec⟩ : ∃ s : St Unit,
      exec (step quick) (St.init 0) [.take 0 (), .take 1 (), .gc 3600002] = some s := ⟨_, rfl⟩
  have hrun := reach_of_hour (by decide +kernel) (reach_of_exec _ hexec)
  exact ⟨s, hexec, (takes_conform (le_refl _) hrun ()).1 0 1 (by decide)⟩

/-- A bucket that is half full is deleted, and the key has a whole token again. -/
theorem deleted_too_early : ∃ s : St Unit, exec (step slow) (St.init 0)
      [.take 0 (), .gc 3600001, .take 3600001 ()] = some s ∧
    ¬ (granted s.log () 0 3600001 : Rat) ≤
      slow.burst + slow.refillPerSecond * (3600001 - 0) / 1000 := by
  refine ⟨_, rfl, ?_⟩
  decide +kernel

end Blamejs.RateLimit
