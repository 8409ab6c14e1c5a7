import Blamejs.Ref.Parallel
import Mathlib.Data.List.Perm.Subperm
import Mathlib.Data.List.Nodup

/-!
# What a parallel run keeps

A worker that is not in its loop waits for one call, so the workers and the callbacks that
have run make up the calls that were started: `Inv.count`. With that the last worker to leave
finds every callback done, and what `firstError` holds then is what the run ended with.

`firstError` is the reason of the first rejection as long as it counts as set once it is
stored, and as long as the signal does not fire between a rejection and its callback; the
condition `Orderly` says both of a step. `parallel_of_reach` is the result for every run whose
steps all meet it, and `resolves_rejected` a run with a rejection by `undefined` that resolves.
-/

namespace Blamejs.Parallel

open Run

variable {V E : Type} {truthy : E → Bool} {o : Opts} {n d : Nat} {s s' : St V E}
  {done : List (Nat × Except E V)}

/-- No rejection is among them. -/
def Quiet (l : List (Nat × Except E V)) : Prop := ∀ p ∈ l, ∀ e, p.2 ≠ .error e

/-- The first rejection among them has this reason. -/
def FirstOf (l : List (Nat × Except E V)) (e : E) : Prop :=
  ∃ pre i post, l = pre ++ (i, .error e) :: post ∧ Quiet pre

theorem FirstOf.append {l : List (Nat × Except E V)} {e : E} (h : FirstOf l e)
    (more : List (Nat × Except E V)) : FirstOf (l ++ more) e := by
  obtain ⟨pre, i, post, rfl, hquiet⟩ := h
  exact ⟨pre, i, post ++ more, by rw [List.append_assoc, List.cons_append], hquiet⟩

theorem FirstOf.not_quiet {l : List (Nat × Except E V)} {e : E} (h : FirstOf l e) :
    ¬ Quiet l := by
  obtain ⟨pre, i, post, rfl, -⟩ := h
  exact fun hquiet => hquiet (i, .error e)
    (List.mem_append_right _ List.mem_cons_self) e rfl

theorem FirstOf.unique {l : List (Nat × Except E V)} {e e' : E} (h : FirstOf l e)
    (h' : FirstOf l e') : e = e' := by
  obtain ⟨pre, i, post, rfl, hquiet⟩ := h
  obtain ⟨pre', i', post', heq, hquiet'⟩ := h'
  rcases List.append_eq_append_iff.mp heq with ⟨more, hpre, hrest⟩ | ⟨more, hpre, hrest⟩
  · cases more with
    | nil =>
        rw [List.nil_append] at hrest
        cases hrest
        rfl
    | cons p more =>
        rw [List.cons_append, List.cons.injEq] at hrest
        have hmem : p ∈ pre' := hpre ▸ List.mem_append_right _ List.mem_cons_self
        exact absurd (congrArg Prod.snd hrest.1).symm (hquiet' p hmem e)
  · cases more with
    | nil =>
        rw [List.nil_append] at hrest
        cases hrest
        rfl
    | cons p more =>
        rw [List.cons_append, List.cons.injEq] at hrest
        have hmem : p ∈ pre := hpre ▸ List.mem_append_right _ List.mem_cons_self
        exact absurd (congrArg Prod.snd hrest.1).symm (hquiet p hmem e')

/-- How a run that is over ended. -/
def Closing (n : Nat) (s : St V E) (e : Ending V E) : Prop :=
  (s.firstError = none ∧ e = .resolved s.results ∧ s.cursor = n) ∨
    ∃ reason, s.firstError = some reason ∧ e = .rejected reason

/-- `done` are the settlements whose callbacks have run; `d` is 1 while a worker is in its
loop, and 0 between the steps. -/
structure Inv (truthy : E → Bool) (o : Opts) (n d : Nat) (s : St V E)
    (done : List (Nat × Except E V)) : Prop where
  size : s.results.length = n
  bounded : s.cursor ≤ n
  once : s.started = List.range s.cursor
  fresh : (s.settlements.map Prod.fst).Nodup
  within : ∀ i ∈ s.settlements.map Prod.fst, i < s.cursor
  split : s.settlements = done ++ s.jobs
  stored : ∀ i v, (i, Except.ok v) ∈ done → s.results[i]? = some (some v)
  plain : ∀ p ∈ s.settlements, ∀ e, p.2 = .error e → truthy e = true
  early : ∀ k, s.abortedAt = some k → k ≤ s.settlements.length
  quiet : s.firstError = none → Quiet done ∧ (s.listening = true → s.abortedAt = none)
  byAbort : s.firstError = some .aborted →
    ∃ k, s.abortedAt = some k ∧ Quiet (s.settlements.take k)
  byCall : ∀ e, s.firstError = some (.thrown e) → truthy e = true ∧ FirstOf done e
  pool : s.activeWorkers + s.spawning ≤ o.concurrency
  count : s.activeWorkers + done.length = s.cursor + d
  ended : ∀ e, s.ending = some e → s.activeWorkers = d ∧ s.listening = false ∧ Closing n s e
  alive : s.ending = none → d = 0 → 0 < s.activeWorkers + s.spawning

theorem Inv.isSet_iff (h : Inv truthy o n d s done) :
    isSet truthy s.firstError = true ↔ s.firstError ≠ none := by
  cases hfirst : s.firstError with
  | none => exact ⟨fun h => (nomatch h), fun h => absurd rfl h⟩
  | some reason =>
      refine ⟨fun _ => fun h => (nomatch h), fun _ => ?_⟩
      cases reason with
      | aborted => rfl
      | thrown e => exact (h.byCall e hfirst).1

/-- No more calls have settled than were started. -/
theorem Inv.settled_le (h : Inv truthy o n d s done) : s.settlements.length ≤ s.cursor := by
  have hsub := h.fresh.subperm fun i hi => List.mem_range.mpr (h.within i hi)
  have hlen := hsub.length_le
  rwa [List.length_map, List.length_range] at hlen

theorem Inv.done_le (h : Inv truthy o n d s done) :
    done.length + s.jobs.length = s.settlements.length := by
  rw [h.split, List.length_append]

/-- The last worker to leave ends the run. -/
theorem Inv.finish (h : Inv truthy o n 1 s done) (hlast : s.activeWorkers = 1)
    (hstop : s.firstError ≠ none ∨ s.cursor = n) :
    Inv truthy o n 0 (finish truthy { s with activeWorkers := s.activeWorkers - 1 }) done := by
  have hcount := h.count
  have hpool := h.pool
  unfold Parallel.finish
  split
  · next e hend =>
      obtain ⟨-, hlistening, hclosing⟩ := h.ended e hend
      refine { h with
        pool := by dsimp only; omega
        count := by dsimp only; omega
        ended := fun e' he' => ⟨by dsimp only; omega, hlistening, ?_⟩
        alive := fun hnone => ?_ }
      · obtain rfl := Option.some.inj (he'.symm.trans hend)
        exact hclosing
      · exact absurd (hnone.symm.trans hend) (fun h => (nomatch h))
  · next hend =>
      refine { h with
        quiet := fun hnone => ⟨(h.quiet hnone).1, fun hfalse => (nomatch hfalse)⟩
        pool := by dsimp only; omega
        count := by dsimp only; omega
        ended := fun e he => ⟨by dsimp only; omega, rfl, ?_⟩
        alive := fun hnone => ?_ }
      · dsimp only at he
        split at he
        · next reason hreason =>
            have hset := h.isSet_iff.mpr (by rw [hreason]; exact fun h => (nomatch h))
            rw [if_pos hset] at he
            exact .inr ⟨reason, hreason, (Option.some.inj he).symm⟩
        · next hnone =>
            exact .inl
              ⟨hnone, (Option.some.inj he).symm, hstop.resolve_left (not_not.mpr hnone)⟩
      · dsimp only at hnone
        split at hnone
        · split at hnone <;> cases hnone
        · cases hnone

theorem Inv.workerLoop (h : Inv truthy o n 1 s done) :
    Inv truthy o n 0 (workerLoop truthy s) done := by
  have hset := h.isSet_iff
  have hcount := h.count
  have hle := h.settled_le
  have hdone := h.done_le
  have hpool := h.pool
  have hbounded := h.bounded
  have hsize := h.size
  rw [Parallel.workerLoop]
  split
  · next hstop =>
      dsimp only
      split
      · next hlast =>
          refine h.finish (by omega) ?_
          rcases hstop with hstop | hstop
          · exact .inl (hset.mp hstop)
          · exact .inr (by omega)
      · next hmore =>
          exact { h with
            pool := by dsimp only; omega
            count := by dsimp only; omega
            ended := fun e he => by
              have := (h.ended e he).1
              omega
            alive := fun _ _ => by dsimp only; omega }
  · next hgo =>
      obtain ⟨hunset, hroom⟩ := not_or.mp hgo
      have hnone : s.firstError = none := by
        by_contra hsome
        exact hunset (hset.mpr hsome)
      exact { h with
        bounded := by dsimp only; omega
        once := by rw [List.range_succ, ← h.once]
        within := fun i hi => Nat.lt_succ_of_lt (h.within i hi)
        count := by dsimp only; omega
        ended := fun e he => by
          rcases (h.ended e he).2.2 with ⟨-, -, hall⟩ | ⟨reason, hreason, -⟩
          · omega
          · rw [hnone] at hreason
            cases hreason
        alive := fun _ _ => by dsimp only; omega }

/-! ## The steps -/

theorem Inv.spawn (h : Inv truthy o n 0 s done) (hspawning : s.spawning ≠ 0) :
    Inv truthy o n 1
      { s with spawning := s.spawning - 1, activeWorkers := s.activeWorkers + 1 } done := by
  have hpool := h.pool
  have hcount := h.count
  exact { h with
    pool := by dsimp only; omega
    count := by dsimp only; omega
    ended := fun e he => by
      obtain ⟨hidle, hrest⟩ := h.ended e he
      exact ⟨by dsimp only; omega, hrest⟩
    alive := fun _ hd => (nomatch hd) }

theorem Inv.settle {idx : Nat} {outcome : Except E V} (h : Inv truthy o n 0 s done)
    (hstarted : idx ∈ s.started) (hfresh : idx ∉ s.settlements.map Prod.fst)
    (hplain : ∀ e, outcome = .error e → truthy e = true) :
    Inv truthy o n 0
      { s with
        settlements := s.settlements ++ [(idx, outcome)]
        jobs := s.jobs ++ [(idx, outcome)] } done := by
  have hmap : (s.settlements ++ [(idx, outcome)]).map Prod.fst =
      s.settlements.map Prod.fst ++ [idx] := List.map_append
  refine { h with
    fresh := ?_
    within := fun i hi => ?_
    split := by rw [h.split, List.append_assoc]
    plain := fun p hp => ?_
    early := fun k hk => ?_
    byAbort := fun hfirst => ?_ }
  · rw [hmap]
    exact List.concat_eq_append ▸ List.Nodup.concat hfresh h.fresh
  · rw [hmap] at hi
    rcases List.mem_append.mp hi with hi | hi
    · exact h.within i hi
    · rw [List.mem_singleton.mp hi]
      exact List.mem_range.mp (h.once ▸ hstarted)
  · rcases List.mem_append.mp hp with hp | hp
    · exact h.plain p hp
    · rw [List.mem_singleton.mp hp]
      exact hplain
  · have := h.early k hk
    rw [List.length_append]
    omega
  · obtain ⟨k, hk, hquiet⟩ := h.byAbort hfirst
    refine ⟨k, hk, ?_⟩
    rwa [List.take_append_of_le_length (h.early k hk)]

theorem Inv.abort (h : Inv truthy o n 0 s done) (hopen : s.abortedAt = none)
    (hquiet : Quiet s.jobs) :
    Inv truthy o n 0
      { s with
        abortedAt := some s.settlements.length
        firstError := if s.listening ∧ ¬ isSet truthy s.firstError then some .aborted
          else s.firstError } done := by
  by_cases hfires : s.listening = true ∧ ¬ isSet truthy s.firstError = true
  · have hnone : s.firstError = none := by
      by_contra hsome
      exact hfires.2 (h.isSet_iff.mpr hsome)
    rw [if_pos hfires]
    refine { h with
      early := fun k hk => (Option.some.inj hk) ▸ Nat.le_refl _
      quiet := fun hfalse => (nomatch hfalse)
      byAbort := fun _ => ⟨_, rfl, ?_⟩
      byCall := fun e hfalse => (nomatch hfalse)
      ended := fun e he => ?_ }
    · rw [List.take_length, h.split]
      intro p hp
      exact (List.mem_append.mp hp).elim ((h.quiet hnone).1 p) (hquiet p)
    · rw [(h.ended e he).2.1] at hfires
      exact absurd hfires.1 (by decide)
  · rw [if_neg hfires]
    refine { h with
      early := fun k hk => (Option.some.inj hk) ▸ Nat.le_refl _
      quiet := fun hnone => ⟨(h.quiet hnone).1, fun hlistening => ?_⟩
      byAbort := fun hfirst => ?_ }
    · exact absurd ⟨hlistening, fun hset => h.isSet_iff.mp hset hnone⟩ hfires
    · obtain ⟨k, hk, -⟩ := h.byAbort hfirst
      rw [hopen] at hk
      cases hk

theorem Inv.callback {idx : Nat} {outcome : Except E V} {jobs : List (Nat × Except E V)}
    (h : Inv truthy o n 0 s done) (hjobs : s.jobs = (idx, outcome) :: jobs) :
    Inv truthy o n 1 (callback truthy { s with jobs := jobs } idx outcome)
      (done ++ [(idx, outcome)]) := by
  have hcount := h.count
  have hle := h.settled_le
  have hdone := h.done_le
  have hsplit := h.split
  rw [hjobs] at hsplit hdone
  rw [List.length_cons] at hdone
  have hmem : (idx, outcome) ∈ s.settlements :=
    hsplit ▸ List.mem_append_right _ List.mem_cons_self
  have hidx : idx < n := Nat.lt_of_lt_of_le
    (h.within idx (List.mem_map_of_mem hmem)) h.bounded
  have hrunning : ∀ e, s.ending ≠ some e := fun e he => by
    have := (h.ended e he).1
    omega
  have hother : ∀ i v, (i, Except.ok v) ∈ done → i ≠ idx := by
    intro i v hi heq
    have hnodup := h.fresh
    rw [hsplit, List.map_append, List.map_cons] at hnodup
    exact (List.nodup_append.mp hnodup).2.2 i (List.mem_map_of_mem hi) idx List.mem_cons_self heq
  cases outcome with
  | ok value =>
      refine { h with
        size := by rw [← h.size]; exact List.length_set
        split := by rw [List.append_assoc]; exact hsplit
        stored := fun i v hi => ?_
        quiet := fun hnone => ⟨fun p hp => ?_, (h.quiet hnone).2⟩
        byCall := fun e he => ⟨(h.byCall e he).1, (h.byCall e he).2.append _⟩
        count := by
          rw [List.length_append, List.length_singleton]
          dsimp only [Parallel.callback]
          omega
        ended := fun e he => absurd he (hrunning e)
        alive := fun _ hd => (nomatch hd) }
      · rw [Parallel.callback]
        rcases List.mem_append.mp hi with hi | hi
        · rw [List.getElem?_set_ne (hother i v hi).symm]
          exact h.stored i v hi
        · cases List.mem_singleton.mp hi
          rw [List.getElem?_set_self (h.size ▸ hidx)]
      · rcases List.mem_append.mp hp with hp | hp
        · exact (h.quiet hnone).1 p hp
        · rw [List.mem_singleton.mp hp]
          exact fun e he => (nomatch he)
  | error e =>
      have htruthy := h.plain _ hmem e rfl
      refine { h with
        split := by rw [List.append_assoc]; exact hsplit
        stored := fun i v hi => ?_
        quiet := fun hnone => ?_
        byAbort := fun hfirst => ?_
        byCall := fun e' hfirst => ?_
        count := by
          rw [List.length_append, List.length_singleton]
          dsimp only [Parallel.callback]
          omega
        ended := fun e he => absurd he (hrunning e)
        alive := fun _ hd => (nomatch hd) }
      · rcases List.mem_append.mp hi with hi | hi
        · exact h.stored i v hi
        · cases List.mem_singleton.mp hi
      · dsimp only [Parallel.callback] at hnone
        split at hnone
        · next hset => exact absurd hnone (h.isSet_iff.mp hset)
        · cases hnone
      · dsimp only [Parallel.callback] at hfirst ⊢
        split at hfirst
        · exact h.byAbort hfirst
        · cases hfirst
      · dsimp only [Parallel.callback] at hfirst
        split at hfirst
        · exact ⟨(h.byCall e' hfirst).1, (h.byCall e' hfirst).2.append _⟩
        · next hunset =>
            cases hfirst
            have hnone : s.firstError = none := by
              by_contra hsome
              exact hunset (h.isSet_iff.mpr hsome)
            exact ⟨htruthy, done, idx, [], rfl, (h.quiet hnone).1⟩

/-- Every rejection counts as set, and the signal fires while no callback of one is due. -/
def Orderly (truthy : E → Bool) (s : St V E) : Act V E → Prop
  | .settle _ (.error e) => truthy e = true
  | .abort => Quiet s.jobs
  | _ => True

theorem Inv.step {a : Act V E} (h : Inv truthy o n 0 s done) (hok : Orderly truthy s a)
    (hs : step truthy o s a = some s') : ∃ done', Inv truthy o n 0 s' done' := by
  cases a with
  | spawn =>
      rw [Parallel.step] at hs
      split at hs
      · cases hs
      next hspawning =>
      cases hs
      exact ⟨done, (h.spawn hspawning).workerLoop⟩
  | settle idx outcome =>
      rw [Parallel.step] at hs
      split at hs
      · next hopen =>
          cases hs
          refine ⟨done, h.settle hopen.1 hopen.2 fun e he => ?_⟩
          rw [he] at hok
          exact hok
      · cases hs
  | react =>
      rw [Parallel.step] at hs
      split at hs
      · cases hs
      next idx outcome jobs hjobs =>
      split at hs
      · cases hs
        exact ⟨_, (h.callback hjobs).workerLoop⟩
      · cases hs
  | abort =>
      rw [Parallel.step] at hs
      split at hs
      · next hopen =>
          cases hs
          exact ⟨done, h.abort hopen.2 hok⟩
      · cases hs

theorem Inv.init {aborted : Bool} (h : ¬ (o.signal = true ∧ aborted = true)) :
    Inv truthy o n 0 (St.init V o n aborted) [] := by
  have hbase : ∀ ending spawning listening,
      (∀ e, ending = some e → listening = false ∧ n = 0 ∧ e = .resolved []) →
      (ending = none → 0 < spawning) → spawning ≤ o.concurrency →
      Inv truthy o n 0
        (⟨List.replicate n none, 0, ending, none, 0, spawning, listening, [], [], [], none⟩ :
          St V E) [] := by
    intro ending spawning listening hending halive hpool
    exact {
      size := List.length_replicate
      bounded := Nat.zero_le n
      once := rfl
      fresh := List.nodup_nil
      within := fun i hi => (nomatch hi)
      split := rfl
      stored := fun i v hi => (nomatch hi)
      plain := fun p hp => (nomatch hp)
      early := fun k hk => (nomatch hk)
      quiet := fun _ => ⟨fun p hp => (nomatch hp), fun _ => rfl⟩
      byAbort := fun hfirst => (nomatch hfirst)
      byCall := fun e hfirst => (nomatch hfirst)
      pool := by dsimp only; omega
      count := rfl
      ended := fun e he => by
        obtain ⟨hlistening, rfl, rfl⟩ := hending e he
        exact ⟨rfl, hlistening, .inl ⟨rfl, rfl, rfl⟩⟩
      alive := fun hnone _ => by
        have := halive hnone
        dsimp only
        omega }
  rw [St.init, if_neg h]
  have hconcurrency := o.valid.1
  split
  · next hzero =>
      exact hbase (some (.resolved [])) 0 false
        (fun e he => ⟨rfl, hzero, (Option.some.inj he).symm⟩)
        (fun hfalse => (nomatch hfalse)) (Nat.zero_le _)
  · next hitems =>
      exact hbase none (min o.concurrency n) o.signal (fun e he => (nomatch he))
        (fun _ => by omega) (Nat.min_le_left _ _)

/-! ## What a run does -/

/-- The settlements before the signal fired. -/
def St.beforeAbort (s : St V E) : List (Nat × Except E V) :=
  match s.abortedAt with
  | none => s.settlements
  | some k => s.settlements.take k

/-- The calls that have not settled. -/
def St.inFlight (s : St V E) : List Nat :=
  s.started.filter (· ∉ s.settlements.map Prod.fst)

/-- What the caller of `parallel` relies on in a state of the run. -/
structure Correct (o : Opts) (n : Nat) (s : St V E) : Prop where
  once : ∃ k ≤ n, s.started = List.range k
  limited : s.inFlight.length ≤ o.concurrency
  resolved : ∀ rs, s.ending = some (.resolved rs) →
    Quiet s.settlements ∧ s.started = List.range n ∧ rs.length = n ∧
      ∀ i < n, ∃ v, (i, .ok v) ∈ s.settlements ∧ rs[i]? = some (some v)
  rejected : ∀ e, FirstOf s.beforeAbort e →
    ∀ r, s.ending = some r → r = .rejected (.thrown e)
  ends : s.spawning = 0 → s.jobs = [] → s.inFlight = [] → s.ending ≠ none

theorem FirstOf.of_beforeAbort {e : E} (h : FirstOf s.beforeAbort e) :
    FirstOf s.settlements e := by
  unfold St.beforeAbort at h
  split at h
  · exact h
  · next k _ => exact List.take_append_drop k s.settlements ▸ h.append _

theorem Inv.inFlight_le (h : Inv truthy o n d s done) :
    s.inFlight.length + s.settlements.length ≤ s.cursor := by
  have hnodup : (s.inFlight ++ s.settlements.map Prod.fst).Nodup := by
    refine List.nodup_append.mpr ⟨?_, h.fresh, fun i hi j hj heq => ?_⟩
    · exact List.Nodup.filter _ (h.once ▸ List.nodup_range)
    · exact of_decide_eq_true (List.mem_filter.mp hi).2 (heq ▸ hj)
  have hsub : List.Subperm _ (List.range s.cursor) := hnodup.subperm fun i hi => by
    rcases List.mem_append.mp hi with hi | hi
    · exact h.once ▸ (List.mem_filter.mp hi).1
    · exact List.mem_range.mpr (h.within i hi)
  have hlen := hsub.length_le
  rwa [List.length_append, List.length_map, List.length_range] at hlen

/-- Where nothing is in flight every call has settled. -/
theorem Inv.all_settled (h : Inv truthy o n d s done) (hidle : s.inFlight = []) :
    ∀ i < s.cursor, i ∈ s.settlements.map Prod.fst := by
  intro i hi
  have hmem : i ∈ s.started := h.once ▸ List.mem_range.mpr hi
  have := List.filter_eq_nil_iff.mp hidle i hmem
  rwa [decide_eq_true_eq, not_not] at this

theorem Inv.resolved {rs : List (Option V)} (h : Inv truthy o n 0 s done)
    (hend : s.ending = some (.resolved rs)) :
    Quiet s.settlements ∧ s.started = List.range n ∧ rs.length = n ∧
      ∀ i < n, ∃ v, (i, .ok v) ∈ s.settlements ∧ rs[i]? = some (some v) := by
  obtain ⟨hidle, -, hclosing⟩ := h.ended _ hend
  rcases hclosing with ⟨hnone, heq, hall⟩ | ⟨reason, -, heq⟩
  · cases heq
    have hcount := h.count
    have hflight := h.inFlight_le
    have hdone := h.done_le
    have hjobs : s.jobs = [] := List.eq_nil_of_length_eq_zero (by omega)
    have hempty : s.inFlight = [] := List.eq_nil_of_length_eq_zero (by omega)
    have hsplit : s.settlements = done := by rw [h.split, hjobs, List.append_nil]
    have hquiet : Quiet s.settlements := hsplit ▸ (h.quiet hnone).1
    refine ⟨hquiet, hall ▸ h.once, h.size, fun i hi => ?_⟩
    obtain ⟨⟨j, outcome⟩, hmem, hj⟩ :=
      List.mem_map.mp (h.all_settled hempty i (by omega))
    obtain rfl : j = i := hj
    cases outcome with
    | ok v => exact ⟨v, hmem, h.stored j v (hsplit ▸ hmem)⟩
    | error e => exact absurd rfl (hquiet _ hmem e)
  · cases heq

theorem Inv.rejected {e : E} {r : Ending V E} (h : Inv truthy o n 0 s done)
    (hfirst : FirstOf s.beforeAbort e) (hend : s.ending = some r) :
    r = .rejected (.thrown e) := by
  have hsettled := hfirst.of_beforeAbort
  rcases (h.ended r hend).2.2 with ⟨-, rfl, -⟩ | ⟨reason, hreason, rfl⟩
  · exact absurd (h.resolved hend).1 hsettled.not_quiet
  · cases reason with
    | aborted =>
        obtain ⟨k, hk, hquiet⟩ := h.byAbort hreason
        rw [St.beforeAbort, hk] at hfirst
        exact absurd hquiet hfirst.not_quiet
    | thrown e' =>
        have hdone : FirstOf s.settlements e' := h.split ▸ (h.byCall e' hreason).2.append _
        rw [hsettled.unique hdone]

theorem Inv.correct (h : Inv truthy o n 0 s done) : Correct o n s where
  once := ⟨s.cursor, h.bounded, h.once⟩
  limited := by
    have hcount := h.count
    have hpool := h.pool
    have hflight := h.inFlight_le
    have hdone := h.done_le
    omega
  resolved := fun _ => h.resolved
  rejected := fun _ hfirst _ => h.rejected hfirst
  ends := fun hspawning hjobs hidle hnone => by
    have halive := h.alive hnone rfl
    have hcount := h.count
    have hdone := h.done_le
    have hsub : List.Subperm (List.range s.cursor) (s.settlements.map Prod.fst) :=
      List.nodup_range.subperm fun i hi => h.all_settled hidle i (List.mem_range.mp hi)
    have hlen := hsub.length_le
    rw [List.length_range, List.length_map] at hlen
    rw [hjobs, List.length_nil] at hdone
    omega

/-- Nothing happens after a signal that had fired before the start. -/
theorem eq_init_of_aborted {aborted : Bool} {ok : St V E → Act V E → Prop}
    (hsignal : o.signal = true ∧ aborted = true)
    (h : Reach (Parallel.step truthy o) ok (St.init V o n aborted) s) :
    s = St.init V o n aborted := by
  refine h.invariant (I := fun s => s = St.init V o n aborted) rfl ?_
  rintro s a s' rfl - hs
  rw [St.init, if_pos hsignal] at hs
  cases a with
  | spawn => cases hs
  | settle idx outcome =>
      rw [Parallel.step, if_neg (fun h => (nomatch h.1))] at hs
      cases hs
  | react => cases hs
  | abort =>
      rw [Parallel.step, if_neg (fun h => (nomatch h.2))] at hs
      cases hs

theorem correct_of_aborted {aborted : Bool} (h : o.signal = true ∧ aborted = true) :
    Correct o n (St.init V o n aborted : St V E) := by
  rw [St.init, if_pos h]
  exact {
    once := ⟨0, Nat.zero_le n, rfl⟩
    limited := Nat.zero_le _
    resolved := fun _ hend => (nomatch hend)
    rejected := fun _ hfirst => absurd (fun p hp => (nomatch hp)) hfirst.not_quiet
    ends := fun _ _ _ hnone => (nomatch hnone) }

/-- In every run whose steps are orderly the calls start once each and in order, within the
limit; a run that resolves has run every item and stored every value, and one in which a call
rejected before the signal fired ends with the first reason. -/
theorem parallel_of_reach {aborted : Bool}
    (h : Reach (Parallel.step truthy o) (Orderly truthy) (St.init V o n aborted) s) :
    Correct o n s := by
  by_cases hsignal : o.signal = true ∧ aborted = true
  · rw [eq_init_of_aborted hsignal h]
    exact correct_of_aborted hsignal
  · obtain ⟨done, hinv⟩ := h.invariant (I := fun s => ∃ done, Inv truthy o n 0 s done)
      ⟨[], Inv.init hsignal⟩ (fun _ _ _ ⟨_, hinv⟩ hok hs => hinv.step hok hs)
    exact hinv.correct

/-- One call at a time, without a signal. -/
def single : Opts := ⟨1, false, by decide⟩

/-- Two calls at a time, with a signal. -/
def pair : Opts := ⟨2, true, by decide⟩

/-- The second of three calls rejects with `true` after the third has begun; the signal fires
later, while that one is still in flight. -/
def pairRun : List (Act Unit Bool) :=
  [.spawn, .spawn, .settle 0 (.ok ()), .settle 1 (.error true), .react, .react, .abort,
    .settle 2 (.ok ()), .react]

theorem parallel_of_reach_pair : ∃ s, exec (Parallel.step id pair) (St.init Unit pair 3 false)
      pairRun = some s ∧ Correct pair 3 s ∧ s.started = [0, 1, 2] ∧
    s.ending = some (.rejected (.thrown true)) := by
  have hmeets : Meets (Parallel.step id pair) (Orderly id) (St.init Unit pair 3 false) pairRun :=
    ⟨trivial, trivial, trivial, rfl, trivial, trivial, fun _ hmem => (nomatch hmem), trivial,
      trivial, trivial⟩
  obtain ⟨s, hexec, hstarted, hending⟩ : ∃ s, exec (Parallel.step id pair)
      (St.init Unit pair 3 false) pairRun = some s ∧ s.started = [0, 1, 2] ∧
        s.ending = some (.rejected (.thrown true)) := ⟨_, rfl, rfl, rfl⟩
  exact ⟨s, hexec, parallel_of_reach (reach_of_meets _ hmeets hexec), hstarted, hending⟩

/-- One item whose call rejects with `false`: the run resolves, with a hole for the item. -/
theorem resolves_rejected :
    ∃ s : St Unit Bool,
      Reach (Parallel.step id single) Always (St.init Unit single 1 false) s ∧
        s.settlements = [(0, .error false)] ∧ s.ending = some (.resolved [none]) ∧
        ¬ Correct single 1 s := by
  have h : Reach (Parallel.step id single) Always (St.init Unit single 1 false)
      (⟨[none], 1, some (.resolved [none]), some (.thrown false), 0, 0, false, [0], [],
        [(0, .error false)], none⟩ : St Unit Bool) :=
    Reach.next (a := .react) (.next (a := .settle 0 (.error false))
      (.next (a := .spawn) .start trivial rfl) trivial rfl) trivial rfl
  exact ⟨_, h, rfl, rfl, fun hcorrect =>
    (hcorrect.resolved _ rfl).1 _ List.mem_cons_self false rfl⟩

end Blamejs.Parallel
