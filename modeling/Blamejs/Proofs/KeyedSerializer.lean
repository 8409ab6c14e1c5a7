import Blamejs.Ref.KeyedSerializer
import Mathlib.Algebra.BigOperators.Group.List.Basic
import Mathlib.Algebra.GroupWithZero.Nat
import Mathlib.Data.List.Nodup

/-!
# What the per-key queue keeps

A call may start when the tails of all calls before it under its key are fulfilled, `Ready`.
The call that `chains` names for a key is the latest one under it (`Inv.latest`), so the tail a
new call waits for is that of the call right before it, and a key that `chains` does not name
has no call left to wait for (`Inv.dropped`). That is why the entry may go only when it still
names the call whose tail is done, and why its `cleanup` is due then (`Inv.swept`).
-/

namespace Blamejs.KeyedSerializer

open Run

variable {K E V : Type} {s s' : St K E V} {c : Nat} {key : K} {rest : List Job}

/-- The tails of the calls before this one under its key are among `drained`. -/
def Ready (calls : List K) (drained : List Nat) (c : Nat) : Prop :=
  ∀ b < c, calls[b]? = calls[c]? → b ∈ drained

structure Inv (s : St K E V) : Prop where
  jobsOnce : s.jobs.Nodup
  startable : ∀ c, .start c ∈ s.jobs →
    c < s.calls.length ∧ c ∉ s.started ∧ Ready s.calls s.drained c
  tailing : ∀ c, .tail c ∈ s.jobs → c ∈ s.results.map Prod.fst ∧ c ∉ s.drained
  cleaning : ∀ c, .cleanup c ∈ s.jobs → c ∈ s.drained
  reacting : ∀ p c, (p, c) ∈ s.reactions →
    (c < s.calls.length ∧ c ∉ s.started ∧ .start c ∉ s.jobs) ∧ p ∉ s.drained ∧
      p < c ∧ s.calls[p]? = s.calls[c]? ∧ ∀ b, p < b → b < c → s.calls[b]? ≠ s.calls[c]?
  reactOnce : (s.reactions.map Prod.snd).Nodup
  waits : ∀ c < s.calls.length, c ∉ s.started →
    .start c ∈ s.jobs ∨ c ∈ s.reactions.map Prod.snd
  tailed : ∀ c ∈ s.results.map Prod.fst, .tail c ∈ s.jobs ∨ c ∈ s.drained
  drainedDone : ∀ c ∈ s.drained, c ∈ s.results.map Prod.fst
  own : ∀ r ∈ s.results, r ∈ s.finished
  resultsOnce : (s.results.map Prod.fst).Nodup
  finishedOnce : (s.finished.map Prod.fst).Nodup
  finishedStarted : ∀ c ∈ s.finished.map Prod.fst, c ∈ s.started
  startedOnce : s.started.Nodup
  startedReady : ∀ c ∈ s.started, c < s.calls.length ∧ Ready s.calls s.drained c
  order : s.started.Pairwise fun b c => s.calls[b]? = s.calls[c]? → b < c
  latest : ∀ key c, s.chains key = some c →
    s.calls[c]? = some key ∧ ∀ d, s.calls[d]? = some key → d ≤ c
  dropped : ∀ key, s.chains key = none → ∀ d, s.calls[d]? = some key → d ∈ s.drained
  swept : ∀ key c, s.chains key = some c → c ∈ s.drained → .cleanup c ∈ s.jobs

theorem Inv.init : Inv (St.init K E V) where
  jobsOnce := List.nodup_nil
  startable _ hc := (nomatch hc)
  tailing _ hc := (nomatch hc)
  cleaning _ hc := (nomatch hc)
  reacting _ _ hc := (nomatch hc)
  reactOnce := List.nodup_nil
  waits _ hc := (nomatch hc)
  tailed _ hc := (nomatch hc)
  drainedDone _ hc := (nomatch hc)
  own _ hr := (nomatch hr)
  resultsOnce := List.nodup_nil
  finishedOnce := List.nodup_nil
  finishedStarted _ hc := (nomatch hc)
  startedOnce := List.nodup_nil
  startedReady _ hc := (nomatch hc)
  order := .nil
  latest _ _ hc := (nomatch hc)
  dropped _ _ _ hd := (nomatch hd)
  swept _ _ hc := (nomatch hc)

theorem Inv.finished_of_result (h : Inv s) (hc : c ∈ s.results.map Prod.fst) :
    c ∈ s.finished.map Prod.fst := by
  obtain ⟨r, hr, rfl⟩ := List.mem_map.mp hc
  exact List.mem_map_of_mem (h.own r hr)

theorem Inv.started_of_result (h : Inv s) (hc : c ∈ s.results.map Prod.fst) : c ∈ s.started :=
  h.finishedStarted c (h.finished_of_result hc)

theorem Inv.started_of_drained (h : Inv s) (hc : c ∈ s.drained) : c ∈ s.started :=
  h.started_of_result (h.drainedDone c hc)

/-- Once the latest call of a key is drained all its calls are. -/
theorem Inv.all_drained (h : Inv s) (hc : c ∈ s.drained) (hkey : s.calls[c]? = some key)
    (hlatest : ∀ d, s.calls[d]? = some key → d ≤ c) :
    ∀ d, s.calls[d]? = some key → d ∈ s.drained := by
  intro d hd
  rcases Nat.lt_or_eq_of_le (hlatest d hd) with hlt | rfl
  · exact (h.startedReady c (h.started_of_drained hc)).2 d hlt (hd.trans hkey.symm)
  · exact hc

/-! ## A call of `run` -/

theorem getElem?_concat_old {calls : List K} {b : Nat} (hb : b < calls.length) :
    (calls ++ [key])[b]? = calls[b]? := List.getElem?_append_left hb

theorem Ready.concat {calls : List K} {drained : List Nat} (hc : c < calls.length)
    (h : Ready calls drained c) : Ready (calls ++ [key]) drained c := by
  intro b hb heq
  rw [getElem?_concat_old hc, getElem?_concat_old (Nat.lt_trans hb hc)] at heq
  exact h b hb heq

theorem mem_concat_cases {calls : List K} {key key' : K} {d : Nat}
    (h : (calls ++ [key])[d]? = some key') :
    calls[d]? = some key' ∨ d = calls.length ∧ key = key' := by
  rcases Nat.lt_or_ge d calls.length with hlt | hge
  · rw [getElem?_concat_old hlt] at h
    exact .inl h
  · obtain ⟨hbound, hget⟩ := List.getElem?_eq_some_iff.mp h
    rw [List.length_append, List.length_singleton] at hbound
    obtain rfl : d = calls.length := by omega
    rw [List.getElem?_concat_length, Option.some.injEq] at h
    exact .inr ⟨rfl, h⟩

/-- What a new call does to all but the jobs and the reactions. -/
theorem Inv.call [DecidableEq K] {jobs : List Job} {reactions : List (Nat × Nat)} (h : Inv s)
    (hjobs : ∀ job, job ∈ jobs → job ∈ s.jobs ∨ job = .start s.calls.length)
    (hkept : ∀ job ∈ s.jobs, job ∈ jobs) (honce : jobs.Nodup)
    (hready : .start s.calls.length ∈ jobs →
      Ready (s.calls ++ [key]) s.drained s.calls.length)
    (hreactions : ∀ r ∈ s.reactions, r ∈ reactions)
    (hreactOnce : (reactions.map Prod.snd).Nodup)
    (hreacting : ∀ p c, (p, c) ∈ reactions → (p, c) ∈ s.reactions ∨
      (c = s.calls.length ∧ .start c ∉ jobs ∧ s.chains key = some p ∧ p ∉ s.drained))
    (hwaits : .start s.calls.length ∈ jobs ∨ s.calls.length ∈ reactions.map Prod.snd) :
    Inv { s with
      calls := s.calls ++ [key]
      chains := Function.update s.chains key (some s.calls.length)
      jobs := jobs
      reactions := reactions } := by
  have hlength : (s.calls ++ [key]).length = s.calls.length + 1 := List.length_append
  have hstarted : ∀ c ∈ s.started, c < s.calls.length := fun c hc => (h.startedReady c hc).1
  have hself : s.calls.length ∉ s.started := fun hc => Nat.lt_irrefl _ (hstarted _ hc)
  refine { h with
    jobsOnce := honce
    startable := fun c hc => ?_
    tailing := fun c hc => ?_
    cleaning := fun c hc => ?_
    reacting := fun p c hc => ?_
    reactOnce := hreactOnce
    waits := fun c hc hother => ?_
    tailed := fun c hc => (h.tailed c hc).imp_left (hkept _)
    startedReady := fun c hc => ?_
    order := ?_
    latest := fun key' c hc => ?_
    dropped := fun key' hc d hd => ?_
    swept := fun key' c hc hdrained => ?_ }
  · rcases hjobs _ hc with hold | hnew
    · obtain ⟨hlt, hother, hr⟩ := h.startable c hold
      exact ⟨by rw [hlength]; omega, hother, hr.concat hlt⟩
    · cases hnew
      exact ⟨by rw [hlength]; omega, hself, hready hc⟩
  · exact h.tailing c ((hjobs _ hc).resolve_right fun heq => (nomatch heq))
  · exact h.cleaning c ((hjobs _ hc).resolve_right fun heq => (nomatch heq))
  · rcases hreacting p c hc with hold | ⟨rfl, hnostart, hchain, hopen⟩
    · obtain ⟨⟨hlt, hother, hnostart⟩, hopen, hpc, hsame, hbetween⟩ := h.reacting p c hold
      refine ⟨⟨by rw [hlength]; omega, hother, fun hmem => ?_⟩, hopen, hpc, ?_,
        fun b hpb hbc => ?_⟩
      · rcases hjobs _ hmem with hmem | heq
        · exact hnostart hmem
        · cases heq
          exact Nat.lt_irrefl _ hlt
      · rw [getElem?_concat_old hlt, getElem?_concat_old (Nat.lt_trans hpc hlt)]
        exact hsame
      · rw [getElem?_concat_old hlt, getElem?_concat_old (Nat.lt_trans hbc hlt)]
        exact hbetween b hpb hbc
    · obtain ⟨hkey, hlatest⟩ := h.latest key p hchain
      obtain ⟨hp, -⟩ := List.getElem?_eq_some_iff.mp hkey
      refine ⟨⟨by rw [hlength]; omega, hself, hnostart⟩, hopen, hp, ?_,
        fun b hpb hbc heq => ?_⟩
      · rw [getElem?_concat_old hp, List.getElem?_concat_length]
        exact hkey
      · rw [getElem?_concat_old hbc, List.getElem?_concat_length] at heq
        exact Nat.lt_irrefl _ (Nat.lt_of_lt_of_le hpb (hlatest b heq))
  · rw [hlength] at hc
    rcases Nat.lt_succ_iff_lt_or_eq.mp hc with hc | rfl
    · refine (h.waits c hc hother).imp (hkept _) fun hmem => ?_
      obtain ⟨r, hr, heq⟩ := List.mem_map.mp hmem
      exact List.mem_map.mpr ⟨r, hreactions r hr, heq⟩
    · exact hwaits
  · obtain ⟨hlt, hr⟩ := h.startedReady c hc
    exact ⟨by rw [hlength]; omega, hr.concat hlt⟩
  · refine h.order.imp_of_mem fun {b c} hb hc hlt heq => hlt ?_
    dsimp only at heq
    rwa [getElem?_concat_old (hstarted _ hb), getElem?_concat_old (hstarted _ hc)] at heq
  · dsimp only at hc
    by_cases heq : key' = key
    · subst heq
      rw [Function.update_self] at hc
      cases hc
      refine ⟨List.getElem?_concat_length, fun d hd => ?_⟩
      obtain ⟨hbound, -⟩ := List.getElem?_eq_some_iff.mp hd
      rw [hlength] at hbound
      omega
    · rw [Function.update_of_ne heq] at hc
      obtain ⟨hkey, hlatest⟩ := h.latest key' c hc
      refine ⟨?_, fun d hd => ?_⟩
      · exact (getElem?_concat_old (List.getElem?_eq_some_iff.mp hkey).1).trans hkey
      · rcases mem_concat_cases hd with hd | ⟨-, hd⟩
        · exact hlatest d hd
        · exact absurd hd.symm heq
  · dsimp only at hc
    by_cases heq : key' = key
    · subst heq
      rw [Function.update_self] at hc
      cases hc
    · rw [Function.update_of_ne heq] at hc
      rcases mem_concat_cases hd with hd | ⟨-, hd⟩
      · exact h.dropped key' hc d hd
      · exact absurd hd.symm heq
  · dsimp only at hc
    by_cases heq : key' = key
    · subst heq
      rw [Function.update_self] at hc
      cases hc
      exact absurd (h.started_of_drained hdrained) hself
    · rw [Function.update_of_ne heq] at hc
      exact hkept _ (h.swept key' c hc hdrained)

theorem Inv.run_ready [DecidableEq K] (h : Inv s)
    (hdone : ∀ d, s.calls[d]? = some key → d ∈ s.drained) :
    Inv { s with
      calls := s.calls ++ [key]
      chains := Function.update s.chains key (some s.calls.length)
      jobs := s.jobs ++ [.start s.calls.length] } := by
  have hnew : Job.start s.calls.length ∉ s.jobs := fun hmem =>
    Nat.lt_irrefl _ (h.startable _ hmem).1
  refine h.call (fun job hjob => ?_) (fun job hjob => List.mem_append_left _ hjob) ?_
    (fun _ b hb heq => ?_) (fun r hr => hr) h.reactOnce (fun p c hc => .inl hc)
    (.inl (List.mem_append_right _ (List.mem_singleton_self _)))
  · exact (List.mem_append.mp hjob).imp_right List.mem_singleton.mp
  · exact List.concat_eq_append ▸ List.Nodup.concat hnew h.jobsOnce
  · rw [getElem?_concat_old hb, List.getElem?_concat_length] at heq
    exact hdone b heq

theorem Inv.run [DecidableEq K] (h : Inv s) : Inv (run s key) := by
  unfold KeyedSerializer.run
  split
  · next hchain => exact h.run_ready (h.dropped key hchain)
  · next prev hchain =>
      obtain ⟨hkey, hlatest⟩ := h.latest key prev hchain
      split
      · next hdone => exact h.run_ready (h.all_drained hdone hkey hlatest)
      · next hopen =>
          have hnew : ∀ c ∈ s.reactions.map Prod.snd, c < s.calls.length := by
            intro c hc
            obtain ⟨⟨p, c'⟩, hr, rfl⟩ := List.mem_map.mp hc
            exact (h.reacting p c' hr).1.1
          have hmap : (s.reactions ++ [(prev, s.calls.length)]).map Prod.snd =
              s.reactions.map Prod.snd ++ [s.calls.length] := List.map_append
          refine h.call (fun job hjob => .inl hjob) (fun job hjob => hjob) h.jobsOnce
            (fun hmem => absurd (h.startable _ hmem).1 (Nat.lt_irrefl _))
            (fun r hr => List.mem_append_left _ hr) ?_ (fun p c hc => ?_) (.inr ?_)
          · rw [hmap]
            exact List.concat_eq_append ▸
              List.Nodup.concat (fun hmem => Nat.lt_irrefl _ (hnew _ hmem)) h.reactOnce
          · refine (List.mem_append.mp hc).imp_right fun hc => ?_
            cases List.mem_singleton.mp hc
            exact ⟨rfl, fun hmem => Nat.lt_irrefl _ (h.startable _ hmem).1, hchain, hopen⟩
          · rw [hmap]
            exact List.mem_append_right _ (List.mem_singleton_self _)

/-! ## The settlements -/

theorem Inv.finish {outcome : Except E V} (h : Inv s) (hstarted : c ∈ s.started)
    (hnew : c ∉ s.finished.map Prod.fst) :
    Inv { s with finished := s.finished ++ [(c, outcome)] } := by
  have hmap : (s.finished ++ [(c, outcome)]).map Prod.fst =
      s.finished.map Prod.fst ++ [c] := List.map_append
  refine { h with
    own := fun r hr => List.mem_append_left _ (h.own r hr)
    finishedOnce := ?_
    finishedStarted := fun d hd => ?_ }
  · rw [hmap]
    exact List.concat_eq_append ▸ List.Nodup.concat hnew h.finishedOnce
  · rw [hmap] at hd
    rcases List.mem_append.mp hd with hd | hd
    · exact h.finishedStarted d hd
    · rw [List.mem_singleton.mp hd]
      exact hstarted

theorem Inv.adopt {p : Nat × Except E V} (h : Inv s) (hp : p ∈ s.finished)
    (hnew : p.1 ∉ s.results.map Prod.fst) :
    Inv { s with results := s.results ++ [p], jobs := s.jobs ++ [.tail p.1] } := by
  have hmap : (s.results ++ [p]).map Prod.fst = s.results.map Prod.fst ++ [p.1] :=
    List.map_append
  have hjobs : ∀ job, job ∈ s.jobs ++ [.tail p.1] → job ∈ s.jobs ∨ job = .tail p.1 :=
    fun job hjob => (List.mem_append.mp hjob).imp_right List.mem_singleton.mp
  refine { h with
    jobsOnce := ?_
    startable := fun c hc => ?_
    tailing := fun c hc => ?_
    cleaning := fun c hc => ?_
    reacting := fun q c hc => ?_
    waits := fun c hc hother => ?_
    tailed := fun c hc => ?_
    drainedDone := fun c hc => ?_
    own := fun r hr => ?_
    resultsOnce := ?_
    swept := fun key c hc hdrained => List.mem_append_left _ (h.swept key c hc hdrained) }
  · exact List.concat_eq_append ▸
      List.Nodup.concat (fun hmem => hnew (h.tailing _ hmem).1) h.jobsOnce
  · exact h.startable c ((hjobs _ hc).resolve_right fun heq => (nomatch heq))
  · rw [hmap]
    rcases hjobs _ hc with hc | heq
    · exact (h.tailing c hc).imp_left (List.mem_append_left _)
    · cases heq
      exact ⟨List.mem_append_right _ (List.mem_singleton_self _),
        fun hdrained => hnew (h.drainedDone _ hdrained)⟩
  · exact h.cleaning c ((hjobs _ hc).resolve_right fun heq => (nomatch heq))
  · obtain ⟨⟨hlt, hother, hnostart⟩, hrest⟩ := h.reacting q c hc
    exact ⟨⟨hlt, hother, fun hmem =>
      hnostart ((hjobs _ hmem).resolve_right fun heq => (nomatch heq))⟩, hrest⟩
  · exact (h.waits c hc hother).imp_left (List.mem_append_left _)
  · rw [hmap] at hc
    rcases List.mem_append.mp hc with hc | hc
    · exact (h.tailed c hc).imp_left (List.mem_append_left _)
    · rw [List.mem_singleton.mp hc]
      exact .inl (List.mem_append_right _ (List.mem_singleton_self _))
  · rw [hmap]
    exact List.mem_append_left _ (h.drainedDone c hc)
  · rcases List.mem_append.mp hr with hr | hr
    · exact h.own r hr
    · rw [List.mem_singleton.mp hr]
      exact hp
  · rw [hmap]
    exact List.concat_eq_append ▸ List.Nodup.concat hnew h.resultsOnce

/-! ## The jobs -/

theorem Ready.mono {calls : List K} {drained : List Nat} (h : Ready calls drained c)
    (more : List Nat) : Ready calls (drained ++ more) c :=
  fun b hb heq => List.mem_append_left _ (h b hb heq)

theorem Inv.start (h : Inv s) (hjobs : s.jobs = .start c :: rest) :
    Inv { s with jobs := rest, started := s.started ++ [c] } := by
  have hfirst : Job.start c ∈ s.jobs := hjobs ▸ List.mem_cons_self
  have hrest : ∀ job ∈ rest, job ∈ s.jobs := fun job hjob =>
    hjobs ▸ List.mem_cons_of_mem _ hjob
  have hkept : ∀ job ∈ s.jobs, job ≠ .start c → job ∈ rest := fun job hjob hne =>
    (List.mem_cons.mp (hjobs ▸ hjob)).resolve_left hne
  obtain ⟨hgone, honce⟩ := List.nodup_cons.mp (hjobs ▸ h.jobsOnce)
  obtain ⟨hlt, hother, hready⟩ := h.startable c hfirst
  have hmem : ∀ d, d ∉ s.started → d ≠ c → d ∉ s.started ++ [c] := fun d hd hne hin =>
    (List.mem_append.mp hin).elim hd fun hin => hne (List.mem_singleton.mp hin)
  refine { h with
    jobsOnce := honce
    startable := fun d hd => ?_
    tailing := fun d hd => h.tailing d (hrest _ hd)
    cleaning := fun d hd => h.cleaning d (hrest _ hd)
    reacting := fun p d hd => ?_
    waits := fun d hd hnot => ?_
    tailed := fun d hd => (h.tailed d hd).imp_left (hkept _ · fun heq => (nomatch heq))
    finishedStarted := fun d hd => List.mem_append_left _ (h.finishedStarted d hd)
    startedOnce := ?_
    startedReady := fun d hd => ?_
    order := ?_
    swept := fun key d hd hdrained =>
      hkept _ (h.swept key d hd hdrained) fun heq => (nomatch heq) }
  · obtain ⟨hlt', hother', hready'⟩ := h.startable d (hrest _ hd)
    refine ⟨hlt', hmem d hother' ?_, hready'⟩
    rintro rfl
    exact hgone hd
  · obtain ⟨⟨hlt', hother', hnostart⟩, htail⟩ := h.reacting p d hd
    refine ⟨⟨hlt', hmem d hother' ?_, fun hin => hnostart (hrest _ hin)⟩, htail⟩
    rintro rfl
    exact hnostart hfirst
  · refine (h.waits d hd fun hin => hnot (List.mem_append_left _ hin)).imp_left fun hin => ?_
    refine hkept _ hin fun heq => hnot ?_
    cases heq
    exact List.mem_append_right _ (List.mem_singleton_self _)
  · exact List.concat_eq_append ▸ List.Nodup.concat hother h.startedOnce
  · rcases List.mem_append.mp hd with hd | hd
    · exact h.startedReady d hd
    · rw [List.mem_singleton.mp hd]
      exact ⟨hlt, hready⟩
  · refine List.pairwise_append.mpr
      ⟨h.order, List.pairwise_singleton _ _, fun b hb d hd heq => ?_⟩
    cases List.mem_singleton.mp hd
    -- a later call that had started would have found this one drained
    by_contra hle
    rcases Nat.lt_or_eq_of_le (Nat.le_of_not_lt hle) with hlt' | rfl
    · exact hother (h.started_of_drained ((h.startedReady b hb).2 c hlt' heq.symm))
    · exact hother hb

theorem Inv.tail (h : Inv s) (hjobs : s.jobs = .tail c :: rest) :
    Inv { s with
      drained := s.drained ++ [c]
      reactions := s.reactions.filter (·.1 ≠ c)
      jobs := rest ++ .cleanup c :: (s.reactions.filter (·.1 = c)).map fun r => .start r.2 } := by
  have hrest : ∀ job ∈ rest, job ∈ s.jobs := fun job hjob =>
    hjobs ▸ List.mem_cons_of_mem _ hjob
  have hkept : ∀ job ∈ s.jobs, job ≠ .tail c → job ∈ rest := fun job hjob hne =>
    (List.mem_cons.mp (hjobs ▸ hjob)).resolve_left hne
  obtain ⟨hgone, honce⟩ := List.nodup_cons.mp (hjobs ▸ h.jobsOnce)
  obtain ⟨hresult, hopen⟩ := h.tailing c (hjobs ▸ List.mem_cons_self)
  have hnew : c ∈ s.drained ++ [c] := List.mem_append_right _ (List.mem_singleton_self _)
  have hstarts : ∀ d,
      .start d ∈ (s.reactions.filter (·.1 = c)).map (fun r => Job.start r.2) ↔
        (c, d) ∈ s.reactions := by
    intro d
    constructor
    · intro hd
      obtain ⟨⟨p, d'⟩, hr, heq⟩ := List.mem_map.mp hd
      obtain ⟨hr, hp⟩ := List.mem_filter.mp hr
      cases heq
      exact of_decide_eq_true hp ▸ hr
    · intro hd
      exact List.mem_map.mpr ⟨(c, d), List.mem_filter.mpr ⟨hd, decide_eq_true rfl⟩, rfl⟩
  have hcases : ∀ job, job ∈ rest ++ .cleanup c ::
      (s.reactions.filter (·.1 = c)).map (fun r => .start r.2) →
      job ∈ rest ∨ job = .cleanup c ∨ ∃ d, job = .start d ∧ (c, d) ∈ s.reactions := by
    intro job hjob
    refine (List.mem_append.mp hjob).imp_right fun hjob => (List.mem_cons.mp hjob).imp_right ?_
    intro hjob
    obtain ⟨r, -, rfl⟩ := List.mem_map.mp hjob
    exact ⟨r.2, rfl, (hstarts r.2).mp hjob⟩
  refine { h with
    jobsOnce := ?_
    startable := fun d hd => ?_
    tailing := fun d hd => ?_
    cleaning := fun d hd => ?_
    reacting := fun p d hd => ?_
    reactOnce := h.reactOnce.sublist (List.filter_sublist.map _)
    waits := fun d hd hnot => ?_
    tailed := fun d hd => ?_
    drainedDone := fun d hd => ?_
    startedReady := fun d hd => (h.startedReady d hd).imp_right (·.mono _)
    dropped := fun key hc d hd => List.mem_append_left _ (h.dropped key hc d hd)
    swept := fun key d hd hdrained => ?_ }
  · refine List.nodup_append.mpr ⟨honce, List.nodup_cons.mpr ⟨fun hmem => ?_, ?_⟩, ?_⟩
    · obtain ⟨r, -, heq⟩ := List.mem_map.mp hmem
      cases heq
    · have hsnd := h.reactOnce.sublist
        ((List.filter_sublist (p := fun r => decide (r.1 = c)) (l := s.reactions)).map Prod.snd)
      have hmap := hsnd.map (f := Job.start) fun _ _ heq => Job.start.inj heq
      rwa [List.map_map] at hmap
    · intro job hjob job' hjob'
      rintro rfl
      rcases List.mem_cons.mp hjob' with rfl | hjob'
      · exact hopen (h.cleaning c (hrest _ hjob))
      · obtain ⟨r, -, rfl⟩ := List.mem_map.mp hjob'
        exact (h.reacting c r.2 ((hstarts r.2).mp hjob')).1.2.2 (hrest _ hjob)
  · rcases hcases _ hd with hd | hd | ⟨d', heq, hreact⟩
    · obtain ⟨hlt, hother, hready⟩ := h.startable d (hrest _ hd)
      exact ⟨hlt, hother, hready.mono _⟩
    · cases hd
    · cases heq
      obtain ⟨⟨hlt, hother, -⟩, -, hcd, hsame, hbetween⟩ := h.reacting c d hreact
      refine ⟨hlt, hother, fun b hb heq => ?_⟩
      rcases Nat.lt_trichotomy b c with hbc | rfl | hcb
      · exact List.mem_append_left _
          ((h.startedReady c (h.started_of_result hresult)).2 b hbc (heq.trans hsame.symm))
      · exact hnew
      · exact absurd heq (hbetween b hcb hb)
  · rcases hcases _ hd with hd | hd | ⟨d', heq, -⟩
    · obtain ⟨hres, hnot⟩ := h.tailing d (hrest _ hd)
      refine ⟨hres, fun hin => ?_⟩
      rcases List.mem_append.mp hin with hin | hin
      · exact hnot hin
      · cases List.mem_singleton.mp hin
        exact hgone hd
    · cases hd
    · cases heq
  · rcases hcases _ hd with hd | hd | ⟨d', heq, -⟩
    · exact List.mem_append_left _ (h.cleaning d (hrest _ hd))
    · cases hd
      exact hnew
    · cases heq
  · obtain ⟨hd, hne⟩ := List.mem_filter.mp hd
    have hne : p ≠ c := of_decide_eq_true hne
    obtain ⟨⟨hlt, hother, hnostart⟩, hopen', hrel⟩ := h.reacting p d hd
    refine ⟨⟨hlt, hother, fun hin => ?_⟩, fun hin => ?_, hrel⟩
    · rcases hcases _ hin with hin | hin | ⟨d', heq, hreact⟩
      · exact hnostart (hrest _ hin)
      · cases hin
      · cases heq
        have hboth := List.inj_on_of_nodup_map h.reactOnce hd hreact rfl
        exact hne (congrArg Prod.fst hboth)
    · exact (List.mem_append.mp hin).elim hopen' fun hin => hne (List.mem_singleton.mp hin)
  · rcases h.waits d hd hnot with hin | hin
    · exact .inl (List.mem_append_left _ (hkept _ hin fun heq => (nomatch heq)))
    · obtain ⟨⟨p, d'⟩, hr, rfl⟩ := List.mem_map.mp hin
      by_cases heq : p = c
      · subst heq
        exact .inl (List.mem_append_right _ (List.mem_cons_of_mem _ ((hstarts d').mpr hr)))
      · exact .inr (List.mem_map.mpr
          ⟨(p, d'), List.mem_filter.mpr ⟨hr, decide_eq_true heq⟩, rfl⟩)
  · by_cases heq : d = c
    · exact .inr (heq ▸ hnew)
    · refine (h.tailed d hd).imp (fun hin => List.mem_append_left _ (hkept _ hin fun hsame => ?_))
        (List.mem_append_left _)
      cases hsame
      exact heq rfl
  · rcases List.mem_append.mp hd with hd | hd
    · exact h.drainedDone d hd
    · rw [List.mem_singleton.mp hd]
      exact hresult
  · rcases List.mem_append.mp hdrained with hdrained | hdrained
    · exact List.mem_append_left _
        (hkept _ (h.swept key d hd hdrained) fun heq => (nomatch heq))
    · rw [List.mem_singleton.mp hdrained]
      exact List.mem_append_right _ List.mem_cons_self

/-- The entry goes with the job that was to remove it, unless it names a later call. -/
theorem Inv.cleanup {chains : K → Option Nat} (h : Inv s) (hjobs : s.jobs = .cleanup c :: rest)
    (hkept : ∀ key d, chains key = some d → s.chains key = some d ∧ d ≠ c)
    (hlost : ∀ key, chains key = none → s.chains key = none ∨ s.chains key = some c) :
    Inv { s with jobs := rest, chains := chains } := by
  have hrest : ∀ job ∈ rest, job ∈ s.jobs := fun job hjob =>
    hjobs ▸ List.mem_cons_of_mem _ hjob
  have hother : ∀ job ∈ s.jobs, job ≠ .cleanup c → job ∈ rest := fun job hjob hne =>
    (List.mem_cons.mp (hjobs ▸ hjob)).resolve_left hne
  have hdone := h.cleaning c (hjobs ▸ List.mem_cons_self)
  refine { h with
    jobsOnce := (List.nodup_cons.mp (hjobs ▸ h.jobsOnce)).2
    startable := fun d hd => h.startable d (hrest _ hd)
    tailing := fun d hd => h.tailing d (hrest _ hd)
    cleaning := fun d hd => h.cleaning d (hrest _ hd)
    reacting := fun p d hd => ?_
    waits := fun d hd hnot =>
      (h.waits d hd hnot).imp_left (hother _ · fun heq => (nomatch heq))
    tailed := fun d hd => (h.tailed d hd).imp_left (hother _ · fun heq => (nomatch heq))
    latest := fun key d hd => h.latest key d (hkept key d hd).1
    dropped := fun key hnone => ?_
    swept := fun key d hd hdrained => ?_ }
  · obtain ⟨⟨hlt, hnot, hnostart⟩, hrel⟩ := h.reacting p d hd
    exact ⟨⟨hlt, hnot, fun hin => hnostart (hrest _ hin)⟩, hrel⟩
  · rcases hlost key hnone with hnone | hsome
    · exact h.dropped key hnone
    · obtain ⟨hkey, hlatest⟩ := h.latest key c hsome
      exact h.all_drained hdone hkey hlatest
  · obtain ⟨hd, hne⟩ := hkept key d hd
    refine hother _ (h.swept key d hd hdrained) fun heq => hne ?_
    cases heq
    rfl

theorem Inv.react [DecidableEq K] {job : Job} (h : Inv s) (hjobs : s.jobs = job :: rest) :
    Inv (perform { s with jobs := rest } job) := by
  cases job with
  | start c => exact h.start hjobs
  | tail c => exact h.tail hjobs
  | cleanup c =>
      have hdone := h.cleaning c (hjobs ▸ List.mem_cons_self)
      have hlt := (h.startedReady c (h.started_of_drained hdone)).1
      have hcall : s.calls[c]? = some s.calls[c] := List.getElem?_eq_getElem hlt
      -- an entry that names this call is the entry of its key
      have hname : ∀ key, s.chains key = some c → key = s.calls[c] := fun key hkey =>
        Option.some.inj ((h.latest key c hkey).1.symm.trans hcall)
      rw [perform]
      dsimp only
      rw [hcall]
      dsimp only
      split
      · next hsame =>
          refine h.cleanup hjobs (fun key d hd => ?_) (fun key hnone => ?_)
          · by_cases heq : key = s.calls[c]
            · subst heq
              rw [Function.update_self] at hd
              cases hd
            · rw [Function.update_of_ne heq] at hd
              refine ⟨hd, ?_⟩
              rintro rfl
              exact heq (hname key hd)
          · by_cases heq : key = s.calls[c]
            · subst heq
              exact .inr hsame
            · rw [Function.update_of_ne heq] at hnone
              exact .inl hnone
      · next hsame =>
          refine h.cleanup hjobs (fun key d hd => ⟨hd, ?_⟩) (fun key hnone => .inl hnone)
          rintro rfl
          have heq := hname key hd
          exact hsame (heq ▸ hd)

theorem Inv.step [DecidableEq K] {a : Act K E V} (h : Inv s) (hs : step s a = some s') :
    Inv s' := by
  cases a with
  | run key =>
      cases hs
      exact h.run
  | finish call outcome =>
      rw [KeyedSerializer.step] at hs
      split at hs
      · next hopen =>
          cases hs
          exact h.finish hopen.1 hopen.2
      · cases hs
  | adopt call =>
      rw [KeyedSerializer.step] at hs
      split at hs
      · cases hs
      · next hnew =>
          obtain ⟨p, hp, rfl⟩ := Option.map_eq_some_iff.mp hs
          have hcall := List.find?_some hp
          obtain rfl : p.1 = call := of_decide_eq_true hcall
          exact h.adopt (List.mem_of_find?_eq_some hp) hnew
  | react =>
      rw [KeyedSerializer.step] at hs
      split at hs
      · cases hs
      · next job jobs hjobs =>
          cases hs
          exact h.react hjobs

/-! ## What a run does -/

/-- What the callers rely on in a state of the run, of any two calls under one key. -/
structure Correct [DecidableEq K] (s : St K E V) : Prop where
  alone : ∀ c ∈ s.started, ∀ b < c, s.calls[b]? = s.calls[c]? →
    b ∈ s.started ∧ b ∈ s.finished.map Prod.fst
  once : s.started.Nodup
  order : s.started.Pairwise fun b c => s.calls[b]? = s.calls[c]? → b < c
  own : ∀ c outcome, (c, outcome) ∈ s.results → (c, outcome) ∈ s.finished
  single : (s.finished.map Prod.fst).Nodup ∧ (s.results.map Prod.fst).Nodup
  answered : ∀ c ∈ s.finished.map Prod.fst, c ∉ s.results.map Prod.fst →
    ∃ s', step s (.adopt c) = some s'
  /-- A call that waits for no other has its start, or that of the call before it, among the
  jobs; the calls of other keys do not come into it. -/
  free : ∀ c < s.calls.length, c ∉ s.started →
    (∀ b < c, s.calls[b]? = s.calls[c]? → b ∈ s.results.map Prod.fst) →
    .start c ∈ s.jobs ∨ ∃ b < c, s.calls[b]? = s.calls[c]? ∧ .tail b ∈ s.jobs
  /-- The entry of a key goes with the last jobs of its calls. -/
  clean : ∀ key, (∀ c, s.calls[c]? = some key →
      c ∈ s.results.map Prod.fst ∧ .tail c ∉ s.jobs ∧ .cleanup c ∉ s.jobs) →
    s.chains key = none

theorem Inv.correct [DecidableEq K] (h : Inv s) : Correct s where
  alone c hc b hb hsame := by
    have hdone := (h.startedReady c hc).2 b hb hsame
    exact ⟨h.started_of_drained hdone, h.finished_of_result (h.drainedDone b hdone)⟩
  once := h.startedOnce
  order := h.order
  own _ _ := h.own _
  single := ⟨h.finishedOnce, h.resultsOnce⟩
  answered c hc hnew := by
    rw [KeyedSerializer.step, if_neg hnew]
    cases hfind : s.finished.find? (·.1 = c) with
    | some p => exact ⟨_, rfl⟩
    | none =>
        obtain ⟨p, hp, rfl⟩ := List.mem_map.mp hc
        exact absurd (decide_eq_true rfl) (List.find?_eq_none.mp hfind p hp)
  free c hc hother hsettled := by
    refine (h.waits c hc hother).imp_right fun hmem => ?_
    obtain ⟨⟨p, c'⟩, hr, rfl⟩ := List.mem_map.mp hmem
    obtain ⟨-, hopen, hpc, hsame, -⟩ := h.reacting p c' hr
    exact ⟨p, hpc, hsame, (h.tailed p (hsettled p hpc hsame)).resolve_right hopen⟩
  clean key hkey := by
    cases hchain : s.chains key with
    | none => rfl
    | some c =>
        obtain ⟨hresult, htail, hcleanup⟩ := hkey c (h.latest key c hchain).1
        exact absurd (h.swept key c hchain ((h.tailed c hresult).resolve_left htail)) hcleanup

/-- A `tail` brings a `cleanup` with it. -/
def Job.work : Job → Nat
  | .tail _ => 2
  | _ => 1

/-- A bound on the jobs that are left to run when nothing else happens. -/
def St.work (s : St K E V) : Nat := (s.jobs.map Job.work).sum + s.reactions.length

/-- A job leaves less work than there was. -/
theorem work_perform [DecidableEq K] {job : Job} (hjobs : s.jobs = job :: rest) :
    (perform { s with jobs := rest } job).work < s.work := by
  have hwork : s.work = job.work + (rest.map Job.work).sum + s.reactions.length := by
    rw [St.work, hjobs, List.map_cons, List.sum_cons]
  have hsame : ∀ t : St K E V, t.jobs = rest → t.reactions = s.reactions → 1 ≤ job.work →
      t.work < s.work := by
    intro t htjobs htreactions hpos
    rw [hwork, St.work, htjobs, htreactions]
    omega
  cases job with
  | start c => exact hsame _ rfl rfl (Nat.le_refl 1)
  | tail c =>
      have hsplit := List.length_eq_length_filter_add (l := s.reactions) (·.1 = c)
      have hstarts : (((s.reactions.filter (·.1 = c)).map fun r => Job.start r.2).map
          Job.work).sum = (s.reactions.filter (·.1 = c)).length := by
        rw [List.map_map]
        refine (congrArg List.sum List.map_const).trans ?_
        rw [List.sum_replicate_nat, Nat.mul_one]
      have hothers : s.reactions.filter (fun r => !decide (r.1 = c)) =
          s.reactions.filter (·.1 ≠ c) := List.filter_congr fun r _ => decide_not.symm
      rw [hothers] at hsplit
      rw [hwork, St.work, perform]
      dsimp only [Job.work]
      rw [List.map_append, List.sum_append, List.map_cons, List.sum_cons, hstarts]
      dsimp only [Job.work]
      omega
  | cleanup c =>
      rw [perform]
      dsimp only
      split
      · split <;> exact hsame _ rfl rfl (Nat.le_refl 1)
      · exact hsame _ rfl rfl (Nat.le_refl 1)

/-- Nothing happens but that jobs run. -/
def Reacts (_ : St K E V) (a : Act K E V) : Prop := a = .react

/-- The queue of jobs runs empty when nothing else happens. -/
theorem drains [DecidableEq K] (s : St K E V) :
    ∃ s', Reach step Reacts s s' ∧ s'.jobs = [] := by
  induction hwork : s.work using Nat.strongRecOn generalizing s with
  | ind n ih =>
      cases hjobs : s.jobs with
      | nil => exact ⟨s, .start, hjobs⟩
      | cons job rest =>
          have hless := work_perform hjobs
          obtain ⟨s', hreach, hempty⟩ := ih _ (hwork ▸ hless) _ rfl
          have hstep : step s .react = some (perform { s with jobs := rest } job) := by
            rw [step, hjobs]
          have hone : Reach step Reacts s (perform { s with jobs := rest } job) :=
            .next .start rfl hstep
          exact ⟨s', hone.trans hreach, hempty⟩

/-- In every run the calls under one key run one at a time and in order, each once and with an
answer of its own; none waits for a call of another key; the jobs come to an end; and the entry
of a key is gone when the jobs of its calls are done. -/
theorem serialized_of_reach [DecidableEq K] (h : Reach step Always (St.init K E V) s) :
    Correct s ∧ ∃ s', Reach step Reacts s s' ∧ s'.jobs = [] :=
  ⟨(h.invariant Inv.init fun _ _ _ hinv _ hs => hinv.step hs).correct, drains s⟩

/-- Two calls under one key, the first of which rejects; the second starts after it. -/
theorem serialized_of_reach_two :
    ∃ s : St Unit Unit Unit, s.started = [0, 1] ∧ s.results = [(0, .error ())] ∧ Correct s ∧
      ∃ s', Reach step Reacts s s' ∧ s'.jobs = [] := by
  have h : Reach step Always (St.init Unit Unit Unit)
      (⟨fun _ => some 1, [(), ()], [], [], [0, 1], [(0, .error ())], [(0, .error ())], [0]⟩ :
        St Unit Unit Unit) :=
    Reach.next (a := .react) (.next (a := .react) (.next (a := .react) (.next (a := .adopt 0)
      (.next (a := .finish 0 (.error ())) (.next (a := .react) (.next (a := .run ())
        (.next (a := .run ()) .start trivial rfl) trivial rfl) trivial rfl) trivial rfl)
          trivial rfl) trivial rfl) trivial rfl) trivial rfl
  exact ⟨_, rfl, rfl, serialized_of_reach h⟩

end Blamejs.KeyedSerializer
