import Blamejs.Proofs.QueueStep

/-!
# Leases and attempts

A call on a leased job is fenced by the job's attempt counter alone. Since a job
was enqueued, or last taken back from the dead letters, every lease of it has
raised the counter by one and nothing else has touched it, so the attempt numbers
handed out since then are `1, 2, …` up to the counter (`Fence.numbers`). An old
number therefore never comes again until `dlqRetry` sets the counter back to
zero; from then on the numbers of before are handed out a second time, and the
fence does not tell the two apart (`calls_fenced` says exactly when).

The same list counts how often a job was handed out. Only `fail` compares the
counter with `maxAttempts`; `sweepExpired` makes a job pending whatever its
counter says.
-/

namespace Blamejs.QueueLocal

open Blamejs.Js Run Table

variable {s s' : St}

/-! ## The attempt numbers handed out -/

def Event.jobId : Event → JsString
  | .leased jobId _ => jobId
  | .requeued jobId => jobId

/-- The attempt number an event hands out for a job. -/
def attemptOf (job : JsString) : Event → Option Nat
  | .leased jobId attempt => if jobId = job then some attempt else none
  | .requeued _ => none

def issue (job : JsString) (issued : List Nat) : Event → List Nat
  | .leased jobId attempt => if jobId = job then issued ++ [attempt] else issued
  | .requeued jobId => if jobId = job then [] else issued

/-- The attempt numbers of a job's leases since it was last taken back from the
dead letters. -/
def issued (job : JsString) (log : List Event) : List Nat := log.foldl (issue job) []

variable {job : JsString} {log : List Event} {ns : List Nat}

theorem issued_append (log' : List Event) :
    issued job (log ++ log') = log'.foldl (issue job) (issued job log) := List.foldl_append

theorem foldl_issue (h : .requeued job ∉ log) :
    log.foldl (issue job) ns = ns ++ log.filterMap (attemptOf job) := by
  induction log generalizing ns with
  | nil => exact (List.append_nil ns).symm
  | cons e log ih =>
      rw [List.mem_cons, not_or] at h
      rw [List.foldl_cons, ih h.2]
      cases e with
      | leased jobId attempt =>
          by_cases hj : jobId = job
          · have ha : attemptOf job (.leased jobId attempt) = some attempt := if_pos hj
            rw [issue, if_pos hj, List.filterMap_cons_some ha, List.append_assoc]
            rfl
          · have ha : attemptOf job (.leased jobId attempt) = none := if_neg hj
            rw [issue, if_neg hj, List.filterMap_cons_none ha]
      | requeued jobId =>
          have hj : jobId ≠ job := fun heq => h.1 (heq ▸ rfl)
          rw [issue, if_neg hj, List.filterMap_cons_none rfl]

/-- Nothing handed out before a requeue counts. -/
theorem foldl_issue_requeued (h : .requeued job ∈ log) (ms : List Nat) :
    log.foldl (issue job) ns = log.foldl (issue job) ms := by
  induction log generalizing ns ms with
  | nil => exact (List.not_mem_nil h).elim
  | cons e log ih =>
      rw [List.foldl_cons, List.foldl_cons]
      rcases List.mem_cons.mp h with rfl | htail
      · rw [issue, issue, if_pos rfl, if_pos rfl]
      · exact ih htail _

theorem mem_foldl_issue {n : Nat} (h : n ∈ log.foldl (issue job) ns) :
    n ∈ ns ∨ .leased job n ∈ log := by
  induction log generalizing ns with
  | nil => exact .inl h
  | cons e log ih =>
      rcases ih h with hns | hlog
      · cases e with
        | leased jobId attempt =>
            by_cases hj : jobId = job
            · rw [issue, if_pos hj, List.mem_append, List.mem_singleton] at hns
              refine hns.imp_right fun heq => ?_
              rw [heq, hj]
              exact List.mem_cons_self
            · rw [issue, if_neg hj] at hns
              exact .inl hns
        | requeued jobId =>
            by_cases hj : jobId = job
            · rw [issue, if_pos hj] at hns
              exact (List.not_mem_nil hns).elim
            · rw [issue, if_neg hj] at hns
              exact .inl hns
      · exact .inr (List.mem_cons_of_mem _ hlog)

theorem issued_eq_nil (h : ∀ e ∈ log, e.jobId ≠ job) : issued job log = [] := by
  refine List.eq_nil_iff_forall_not_mem.mpr fun n hn => ?_
  rcases mem_foldl_issue hn with hnil | hlog
  · exact List.not_mem_nil hnil
  · exact h _ hlog rfl

/-- A batch of leases hands out one number for each of its jobs. -/
theorem attempts_of_leased {leased : List Row} (hnodup : (leased.map Row.id).Nodup)
    (job : JsString) :
    (leased.map fun r => Event.leased r.id (r.attempts + 1)).filterMap (attemptOf job) =
      ((leased.find? (·.id = job)).map fun r => r.attempts + 1).toList := by
  induction leased with
  | nil => rfl
  | cons r leased ih =>
      rw [List.map_cons, List.nodup_cons] at hnodup
      rw [List.map_cons]
      by_cases hj : r.id = job
      · have ha : attemptOf job (.leased r.id (r.attempts + 1)) = some (r.attempts + 1) := if_pos hj
        have hfind : (r :: leased).find? (·.id = job) = some r :=
          List.find?_cons_of_pos (decide_eq_true hj)
        rw [List.filterMap_cons_some ha, ih hnodup.2, hfind]
        have hrest : leased.find? (·.id = job) = none := by
          refine List.find?_eq_none.mpr fun r' hr' heq => hnodup.1 ?_
          rw [hj, ← of_decide_eq_true heq]
          exact List.mem_map_of_mem hr'
        rw [hrest]
        rfl
      · have ha : attemptOf job (.leased r.id (r.attempts + 1)) = none := if_neg hj
        have hfind : (r :: leased).find? (·.id = job) = leased.find? (·.id = job) :=
          List.find?_cons_of_neg fun heq => hj (of_decide_eq_true heq)
        rw [List.filterMap_cons_none ha, ih hnodup.2, hfind]

theorem requeued_not_leased (leased : List Row) :
    .requeued job ∉ leased.map fun r => Event.leased r.id (r.attempts + 1) := by
  intro h
  obtain ⟨r, -, heq⟩ := List.mem_map.mp h
  cases heq

/-- The first row of an id, when ids are distinct, is the row itself. -/
theorem find_id {rows : List Row} (hids : (rows.map Row.id).Nodup) {r : Row} (hr : r ∈ rows) :
    rows.find? (·.id = r.id) = some r := by
  cases hfind : rows.find? (·.id = r.id) with
  | none =>
    exact absurd rfl
      (of_decide_eq_false (Bool.eq_false_iff.mpr (List.find?_eq_none.mp hfind r hr)))
  | some r' =>
      have hid : r'.id = r.id := of_decide_eq_true (List.find?_some hfind :)
      rw [row_unique hids (List.mem_of_find?_eq_some hfind) hr hid]

/-! ## The invariant -/

/-- The numbers handed out for a job since it was enqueued or last requeued are
`1, 2, …` up to its counter. -/
structure Fence (s : St) : Prop where
  ids : (s.rows.map Row.id).Nodup
  seen : ∀ r ∈ s.rows, r.id ∈ s.seen
  logged : ∀ e ∈ s.log, e.jobId ∈ s.seen
  numbers : ∀ r ∈ s.rows, issued r.id s.log = List.range' 1 r.attempts
  leased : ∀ r ∈ s.rows, r.status = .inflight → 0 < r.attempts

/-- A statement that changes no counter, and a log that stays. -/
theorem Fence.statement {p : Row → Bool} {f : Row → Row} (h : Fence s)
    (hrows : s'.rows = update p f s.rows) (hlog : s'.log = s.log) (hseen : s'.seen = s.seen)
    (hid : ∀ r, (f r).id = r.id) (hattempts : ∀ r, (f r).attempts = r.attempts)
    (hleased : ∀ r, (f r).status = .inflight → r.status = .inflight) : Fence s' where
  ids := by
    rw [hrows]
    exact nodup_update h.ids hid
  seen := by
    rw [hrows, hseen]
    exact forall_update (fun r hr _ => (hid r).symm ▸ h.seen r hr) fun r hr _ => h.seen r hr
  logged := by
    rw [hlog, hseen]
    exact h.logged
  numbers := by
    rw [hrows, hlog]
    refine forall_update (fun r hr _ => ?_) fun r hr _ => h.numbers r hr
    rw [hid, hattempts]
    exact h.numbers r hr
  leased := by
    rw [hrows]
    refine forall_update (fun r hr _ hs => ?_) fun r hr _ => h.leased r hr
    rw [hattempts]
    exact h.leased r hr (hleased r hs)

theorem Effect.fence {a : Action} (he : Effect s a s') (h : Fence s) : Fence s' := by
  cases he with
  | same hrows hlog hseen =>
      refine ⟨hrows ▸ h.ids, fun r hr => hseen (h.seen r (hrows ▸ hr)), fun e he => ?_, ?_,
        hrows ▸ h.leased⟩
      · exact hseen (h.logged e (hlog ▸ he))
      · rw [hrows, hlog]
        exact h.numbers
  | insert row hfresh hpending hnew hrows hlog hseen _ =>
      have hnone : row.id ∉ s.rows.map Row.id := by
        intro hid
        obtain ⟨r, hr, heq⟩ := List.mem_map.mp hid
        exact hfresh (heq ▸ h.seen r hr)
      refine ⟨?_, fun r hr => ?_, fun e he => ?_, fun r hr => ?_, fun r hr hs => ?_⟩
      · rw [hrows, List.map_append, List.nodup_append]
        refine ⟨h.ids, List.nodup_singleton _, fun i hi j hj heq => hnone ?_⟩
        rw [← List.mem_singleton.mp hj, ← heq]
        exact hi
      · rw [hrows] at hr
        rw [hseen]
        rcases List.mem_append.mp hr with hold | hlast
        · exact List.mem_cons_of_mem _ (h.seen r hold)
        · rw [List.mem_singleton.mp hlast]
          exact List.mem_cons_self
      · rw [hlog] at he
        rw [hseen]
        exact List.mem_cons_of_mem _ (h.logged e he)
      · rw [hrows] at hr
        rw [hlog]
        rcases List.mem_append.mp hr with hold | hlast
        · exact h.numbers r hold
        · rw [List.mem_singleton.mp hlast, hnew]
          exact issued_eq_nil fun e he heq => hfresh (heq ▸ h.logged e he)
      · rw [hrows] at hr
        rcases List.mem_append.mp hr with hold | hlast
        · exact h.leased r hold hs
        · rw [List.mem_singleton.mp hlast, hpending] at hs
          cases hs
  | lease leased hleased hcandidate hnodup hrows hlog hseen =>
      refine ⟨?_, ?_, fun e he => ?_, ?_, ?_⟩
      · rw [hrows]
        exact nodup_update h.ids fun _ => rfl
      · rw [hrows, hseen]
        exact forall_update (fun r hr _ => h.seen r hr) fun r hr _ => h.seen r hr
      · rw [hlog] at he
        rw [hseen]
        rcases List.mem_append.mp he with hold | hnew
        · exact h.logged e hold
        · obtain ⟨r, hr, rfl⟩ := List.mem_map.mp hnew
          exact h.seen r (hleased r hr)
      · rw [hrows, hlog]
        refine forall_update (fun r hr hp => ?_) fun r hr hp => ?_
        · have hmem : r ∈ leased := leased_row h.ids hleased hr hp
          show issued r.id _ = List.range' 1 (r.attempts + 1)
          rw [issued_append, foldl_issue (requeued_not_leased leased), h.numbers r hr,
            attempts_of_leased hnodup, find_id hnodup hmem, List.range'_1_concat, Nat.add_comm 1]
          rfl
        · rw [issued_append, foldl_issue (requeued_not_leased leased), h.numbers r hr,
            attempts_of_leased hnodup]
          have hnone : leased.find? (·.id = r.id) = none := by
            refine List.find?_eq_none.mpr fun r' hr' heq => of_decide_eq_false hp ?_
            rw [← of_decide_eq_true heq]
            exact List.mem_map_of_mem hr'
          rw [hnone]
          exact List.append_nil _
      · rw [hrows]
        exact forall_update (fun r _ _ _ => Nat.succ_pos _) fun r hr _ => h.leased r hr
  | touch p f hf hrows hlog hseen =>
      exact h.statement hrows hlog hseen (fun r => id_of_place (hf.place r)) hf.attempts fun r hs =>
        hf.status r ▸ hs
  | settle jobId attempt f hf hrows hlog hseen =>
      refine h.statement hrows hlog hseen (fun r => id_of_place (hf.place r)) hf.attempts
        fun r hs => ?_
      rcases hf.status r with heq | heq | ⟨heq, -⟩
      all_goals
        rw [heq] at hs
        cases hs
  | sweep now hrows hlog hseen =>
      refine h.statement hrows hlog hseen (fun _ => rfl) (fun _ => rfl) fun r hs => ?_
      cases hs
  | requeue jobId now hrows hlog hseen =>
      by_cases hcount : rowCount (deadLetter jobId) s.rows = 0
      · rw [update_eq_self (rowCount_eq_zero.mp hcount)] at hrows
        rw [if_pos hcount, List.append_nil] at hlog
        refine ⟨hrows ▸ h.ids, fun r hr => hseen ▸ h.seen r (hrows ▸ hr),
          fun e he => hseen ▸ h.logged e (hlog ▸ he), ?_, hrows ▸ h.leased⟩
        rw [hrows, hlog]
        exact h.numbers
      · rw [if_neg hcount] at hlog
        obtain ⟨dead, hdead, hmatch⟩ := rowCount_pos.mp (Nat.pos_of_ne_zero hcount)
        have hdid : dead.id = jobId := (deadLetter_iff.mp hmatch).1
        refine ⟨?_, ?_, fun e he => ?_, ?_, ?_⟩
        · rw [hrows]
          exact nodup_update h.ids fun _ => rfl
        · rw [hrows, hseen]
          exact forall_update (fun r hr _ => h.seen r hr) fun r hr _ => h.seen r hr
        · rw [hlog] at he
          rw [hseen]
          rcases List.mem_append.mp he with hold | hnew
          · exact h.logged e hold
          · rw [List.mem_singleton.mp hnew]
            show jobId ∈ s.seen
            exact hdid ▸ h.seen dead hdead
        · rw [hrows, hlog]
          refine forall_update (fun r hr hp => ?_) fun r hr hp => ?_
          · show issued r.id _ = []
            rw [issued_append, List.foldl_cons, issue, if_pos (deadLetter_iff.mp hp).1.symm]
            rfl
          · have hne : jobId ≠ r.id := by
              intro heq
              rw [← row_unique h.ids hdead hr (hdid.trans heq), hmatch] at hp
              cases hp
            rw [issued_append, List.foldl_cons, issue, if_neg hne]
            exact h.numbers r hr
        · rw [hrows]
          refine forall_update (fun r _ _ hs => ?_) fun r hr _ => h.leased r hr
          cases hs

/-! ## Calls of earlier leases -/

/-- The lease of `job` that is event `i` is still its current one. -/
def Current (s : St) (i : Nat) (job : JsString) : Prop :=
  (∃ r ∈ s.rows, r.id = job ∧ r.status = .inflight) ∧ ∀ b, .leased job b ∉ s.log.drop (i + 1)

/-- The statement of a worker's call on `job` with the attempt number `attempt`. -/
def Carries (s : St) (job : JsString) (attempt : Nat) : Action → Prop
  | .extendLease jobId additionalMs given _ => jobId = job ∧ given = some attempt ∧ 0 < additionalMs
  | .markDone w => ∃ now row, s.completes w = .selected job (some attempt) now row
  | .fail jobId _ _ given _ => jobId = job ∧ given = some attempt
  | _ => False

/-- Every call on `job` with this attempt number returns false and changes
nothing; a `complete` call ends there. -/
def Refused (s : St) (job : JsString) (attempt : Nat) : Prop :=
  ∀ a s', Carries s job attempt a → step s a = some s' →
    s'.rows = s.rows ∧ s'.refused = s.refused ++ [(job, some attempt)] ∧
      ∀ w, a = .markDone w → s'.completes w = .idle

/-- The job was taken back from the dead letters after event `i`, and is out on a
lease with this attempt number. -/
def Reissued (s : St) (i : Nat) (job : JsString) (attempt : Nat) : Prop :=
  .requeued job ∈ s.log.drop (i + 1) ∧
    ∃ r ∈ s.rows, r.id = job ∧ r.status = .inflight ∧ r.attempts = attempt

theorem refused_of_none {attempt : Nat}
    (hnone : ∀ r ∈ s.rows, heldBy job (some attempt) r = false) : Refused s job attempt := by
  have hcall : ∀ f, (s.call job (some attempt) f).rows = s.rows ∧
      (s.call job (some attempt) f).refused = s.refused ++ [(job, some attempt)] := by
    intro f
    refine ⟨update_eq_self hnone, ?_⟩
    show s.refused ++ (if rowCount _ _ = 0 then _ else _) = _
    rw [if_pos (rowCount_eq_zero.mpr hnone)]
  intro a s' hcarries hstep
  cases a with
  | extendLease jobId additionalMs given now =>
      obtain ⟨rfl, rfl, hms⟩ := hcarries
      rw [step, stepWith, if_neg (Int.not_le.mpr hms)] at hstep
      injection hstep with hstep
      subst hstep
      refine ⟨(hcall _).1, (hcall _).2, fun w hw => ?_⟩
      cases hw
  | markDone w =>
      obtain ⟨now, row, hpc⟩ := hcarries
      rw [step, stepWith, hpc] at hstep
      injection hstep with hstep
      subst hstep
      refine ⟨(hcall (Row.complete now)).1, (hcall (Row.complete now)).2, fun w' hw => ?_⟩
      injection hw with hw
      subst hw
      show Function.update _ _ _ w = _
      rw [Function.update_self, if_neg (not_not.mpr (rowCount_eq_zero.mpr hnone))]
  | fail jobId errorMessage retryDelayMs given now =>
      obtain ⟨rfl, rfl⟩ := hcarries
      rw [step, stepWith] at hstep
      injection hstep with hstep
      subst hstep
      refine ⟨(hcall _).1, (hcall _).2, fun w hw => ?_⟩
      cases hw
  | _ => exact hcarries.elim

theorem log_split {i : Nat} {e : Event} (h : log[i]? = some e) :
    log = log.take i ++ e :: log.drop (i + 1) := by
  obtain ⟨hlt, hget⟩ := List.getElem?_eq_some_iff.mp h
  rw [← hget, List.getElem_cons_drop, List.take_append_drop]

/-- No lease has been handed out after one whose number is still the counter's,
unless the job was requeued since. -/
theorem Fence.current {i attempt : Nat} (h : Fence s) (hi : s.log[i]? = some (.leased job attempt))
    (hrequeued : .requeued job ∉ s.log.drop (i + 1)) {r : Row} (hr : r ∈ s.rows) (hid : r.id = job)
    (hattempts : r.attempts = attempt) : ∀ b, .leased job b ∉ s.log.drop (i + 1) := by
  have hissued := h.numbers r hr
  rw [log_split hi, issued_append, List.foldl_cons, hid, issue, if_pos rfl, foldl_issue hrequeued,
    hattempts] at hissued
  -- the numbers up to `attempt` end where `attempt` stands
  have hlast : (issued job (s.log.take i)).length + 1 = attempt := by
    have hget : (List.range' 1 attempt)[(issued job (s.log.take i)).length]? = some attempt := by
      rw [← hissued, List.append_assoc, List.getElem?_append_right (Nat.le_refl _), Nat.sub_self]
      rfl
    obtain ⟨hlt, heq⟩ := List.getElem?_eq_some_iff.mp hget
    rw [List.getElem_range'] at heq
    omega
  have hlen := congrArg List.length hissued
  rw [List.length_append, List.length_append, List.length_singleton, List.length_range'] at hlen
  have hnil : (s.log.drop (i + 1)).filterMap (attemptOf job) = [] :=
    List.eq_nil_of_length_eq_zero (by omega)
  intro b hb
  have hmem : b ∈ (s.log.drop (i + 1)).filterMap (attemptOf job) :=
    List.mem_filterMap.mpr ⟨_, hb, if_pos rfl⟩
  rw [hnil] at hmem
  exact List.not_mem_nil hmem

theorem Fence.calls {i attempt : Nat} (h : Fence s) (hi : s.log[i]? = some (.leased job attempt)) :
    (Current s i job ∨ Refused s job attempt) ↔ ¬ Reissued s i job attempt := by
  constructor
  · rintro hfenced ⟨hrequeued, r, hr, hid, hstatus, hattempts⟩
    rcases hfenced with ⟨-, hlater⟩ | hrefused
    · -- in flight again after the requeue, so leased again
      have hissued := h.numbers r hr
      rw [log_split hi, issued_append, List.foldl_cons, hid,
        foldl_issue_requeued hrequeued []] at hissued
      have hmem : r.attempts ∈ (s.log.drop (i + 1)).foldl (issue job) [] := by
        rw [hissued, List.mem_range'_1]
        have := h.leased r hr hstatus
        omega
      rcases mem_foldl_issue hmem with hnil | hleased
      · exact List.not_mem_nil hnil
      · exact hlater _ hleased
    · have hheld : heldBy job (some attempt) r = true :=
        heldBy_iff.mpr ⟨hid, hstatus, decide_eq_true hattempts⟩
      have hcount : rowCount (heldBy job (some attempt)) s.rows ≠ 0 :=
        (rowCount_pos.mpr ⟨r, hr, hheld⟩).ne'
      have := (hrefused (.extendLease job 1 (some attempt) ⟨0, by decide⟩) _
        ⟨rfl, rfl, Int.one_pos⟩ rfl).2.1
      rw [St.call, if_neg hcount, List.append_nil] at this
      exact List.cons_ne_nil _ _ (List.self_eq_append_right.mp this)
  · intro hnot
    by_cases hheld : ∃ r ∈ s.rows, heldBy job (some attempt) r = true
    · obtain ⟨r, hr, hmatch⟩ := hheld
      obtain ⟨hid, hstatus, hgiven⟩ := heldBy_iff.mp hmatch
      have hattempts : r.attempts = attempt := of_decide_eq_true hgiven
      exact .inl ⟨⟨r, hr, hid, hstatus⟩, h.current hi
        (fun hrequeued => hnot ⟨hrequeued, r, hr, hid, hstatus, hattempts⟩) hr hid hattempts⟩
    · refine .inr (refused_of_none fun r hr => Bool.eq_false_iff.mpr fun hmatch => ?_)
      exact hheld ⟨r, hr, hmatch⟩

/-! ## Counting the attempts -/

/-- A pending job has an attempt left, and no job has had more than it may. -/
structure Within (r : Row) : Prop where
  one_le : 1 ≤ r.maxAttempts
  le : (r.attempts : Int) ≤ r.maxAttempts
  lt : r.status = .pending → (r.attempts : Int) < r.maxAttempts

/-- In bounds, a job whose expired lease is swept has an attempt left. -/
theorem swept_within {now : Date} (hok : bounded s (.sweepExpired now) = true) {r : Row}
    (hr : r ∈ s.rows) (hp : expired now r = true) : (r.attempts : Int) < r.maxAttempts := by
  have hall := List.all_eq_true.mp hok r hr
  rw [hp] at hall
  exact of_decide_eq_true hall

theorem Settles.within {f : Row → Row} (hf : Settles f) {r : Row} (h : Within r) :
    Within (f r) := by
  refine ⟨?_, ?_, fun hs => ?_⟩
  · rw [hf.maxAttempts]
    exact h.one_le
  · rw [hf.maxAttempts, hf.attempts]
    exact h.le
  · rcases hf.status r with heq | heq | ⟨-, hlt⟩
    · rw [heq] at hs
      cases hs
    · rw [heq] at hs
      cases hs
    · rw [hf.maxAttempts, hf.attempts]
      exact hlt

theorem Effect.within {a : Action} (he : Effect s a s') (hok : bounded s a = true) (hf : Fence s)
    (h : ∀ r ∈ s.rows, Within r) : ∀ r ∈ s'.rows, Within r := by
  cases he with
  | same hrows hlog hseen => exact hrows ▸ h
  | insert row hfresh hpending hnew hrows hlog hseen hmax =>
      rw [hrows]
      intro r hr
      rcases List.mem_append.mp hr with hold | hlast
      · exact h r hold
      · have hone := hmax hok
        rw [List.mem_singleton.mp hlast]
        exact ⟨hone, by omega, fun _ => by omega⟩
  | lease leased hleased hcandidate hnodup hrows hlog hseen =>
      rw [hrows]
      refine forall_update (fun r hr hp => ?_) fun r hr _ => h r hr
      have hleased := hcandidate r (leased_row hf.ids hleased hr hp)
      have hlt := (h r hr).lt (candidate_iff.mp hleased).2.1
      refine ⟨(h r hr).one_le, ?_, fun hs => ?_⟩
      · show ((r.attempts + 1 : Nat) : Int) ≤ r.maxAttempts
        omega
      · cases hs
  | touch p f hf hrows hlog hseen =>
      rw [hrows]
      refine forall_update (fun r hr _ => ⟨?_, ?_, fun hs => ?_⟩) fun r hr _ => h r hr
      · rw [hf.maxAttempts]
        exact (h r hr).one_le
      · rw [hf.maxAttempts, hf.attempts]
        exact (h r hr).le
      · rw [hf.maxAttempts, hf.attempts]
        exact (h r hr).lt (hf.status r ▸ hs)
  | settle jobId attempt f hf hrows hlog hseen =>
      rw [hrows]
      exact forall_update (fun r hr _ => hf.within (h r hr)) fun r hr _ => h r hr
  | sweep now hrows hlog hseen =>
      rw [hrows]
      refine forall_update (fun r hr hp => ?_) fun r hr _ => h r hr
      have hlt := swept_within hok hr hp
      exact ⟨(h r hr).one_le, (h r hr).le, fun _ => hlt⟩
  | requeue jobId now hrows hlog hseen =>
      rw [hrows]
      refine forall_update (fun r hr _ => ?_) fun r hr _ => h r hr
      have hone := (h r hr).one_le
      exact ⟨hone, by show (0 : Int) ≤ r.maxAttempts; omega, fun _ => by
        show (0 : Int) < r.maxAttempts; omega⟩

/-- A job in flight on its last attempt leaves flight only as done or failed. -/
theorem Effect.last_attempt {a : Action} (he : Effect s a s') (hok : bounded s a = true)
    {r : Row} (hr : r ∈ s.rows) (hstatus : r.status = .inflight)
    (hlast : (r.attempts : Int) = r.maxAttempts) :
    ∃ r' ∈ s'.rows, r'.id = r.id ∧
      (r'.status = .inflight ∨ r'.status = .done ∨ r'.status = .failed) := by
  have hkeep : ∀ {p : Row → Bool} {f : Row → Row}, s'.rows = update p f s.rows →
      (p r = true → (f r).id = r.id ∧
        ((f r).status = .inflight ∨ (f r).status = .done ∨ (f r).status = .failed)) →
      ∃ r' ∈ s'.rows, r'.id = r.id ∧
        (r'.status = .inflight ∨ r'.status = .done ∨ r'.status = .failed) := by
    intro p f hrows hmatch
    rw [hrows]
    cases hp : p r with
    | true => exact ⟨f r, mem_update_touched hr hp, hmatch hp⟩
    | false => exact ⟨r, mem_update_other hr hp, rfl, .inl hstatus⟩
  cases he with
  | same hrows hlog hseen => exact ⟨r, hrows ▸ hr, rfl, .inl hstatus⟩
  | insert row hfresh hpending hnew hrows hlog hseen hmax =>
      exact ⟨r, hrows ▸ List.mem_append_left _ hr, rfl, .inl hstatus⟩
  | lease leased hleased hcandidate hnodup hrows hlog hseen =>
      exact hkeep hrows fun _ => ⟨rfl, .inl rfl⟩
  | touch p f hf hrows hlog hseen =>
      exact hkeep hrows fun _ => ⟨id_of_place (hf.place r), .inl ((hf.status r).trans hstatus)⟩
  | settle jobId attempt f hf hrows hlog hseen =>
      refine hkeep hrows fun _ => ⟨id_of_place (hf.place r), ?_⟩
      rcases hf.status r with heq | heq | ⟨-, hlt⟩
      · exact .inr (.inl heq)
      · exact .inr (.inr heq)
      · omega
  | sweep now hrows hlog hseen =>
      refine hkeep hrows fun hp => ?_
      have hlt := swept_within hok hr hp
      omega
  | requeue jobId now hrows hlog hseen =>
      refine hkeep hrows fun hp => ?_
      rw [(deadLetter_iff.mp hp).2] at hstatus
      cases hstatus

/-! ## Whole runs -/

theorem init_fence : Fence St.init :=
  ⟨List.nodup_nil, fun _ hr => (List.not_mem_nil hr).elim, fun _ he => (List.not_mem_nil he).elim,
    fun _ hr => (List.not_mem_nil hr).elim, fun _ hr => (List.not_mem_nil hr).elim⟩

theorem reach_fence {ok : St → Action → Prop} (h : Reach step ok St.init s) : Fence s :=
  h.invariant init_fence fun _ _ _ hI _ hs => (step_moves hI.ids hs).effect.fence hI

/-- In every state a run leads to, and for every lease handed out in it: either
that lease is still its job's current one, or every call with its attempt number
returns false and changes nothing; unless the job was taken back from the dead
letters since and is out on a lease that has come to the same number. -/
theorem calls_fenced (h : Reach step Always St.init s) {i attempt : Nat}
    (hi : s.log[i]? = some (.leased job attempt)) :
    (Current s i job ∨ Refused s job attempt) ↔ ¬ Reissued s i job attempt :=
  (reach_fence h).calls hi

/-- A job `mail` with `maxAttempts`, as it is enqueued at 0. -/
def mailOpts (maxAttempts : Int) : JobOpts := ⟨none, 0, 0, none, none, some maxAttempts, none, none⟩

def instant (ms : Nat) (h : (ms : Int) ≤ 8640000000000000) : Date := ⟨ms, h⟩

def dawn : Date := instant 0 (by decide)

def noon : Date := instant 5000 (by decide)

def mailRow (maxAttempts : Int) : Row :=
  enqueue (units "j") (units "mail") none (mailOpts maxAttempts).toEnqueueOpts dawn

/-- Leased for a second, and swept when the worker does not come back. -/
def sweptRow (maxAttempts : Int) : Row := ((mailRow maxAttempts).lease dawn 1000).sweep

/-- The job is handed out, swept, and handed out again. -/
def twiceRun (maxAttempts : Int) : List Action :=
  [.enqueue (units "j") (units "mail") none (mailOpts maxAttempts) dawn,
    .lease (units "mail") 1000 1 dawn [] [mailRow maxAttempts],
    .sweepExpired noon,
    .lease (units "mail") 1000 1 noon [] [sweptRow maxAttempts]]

theorem calls_fenced_twice : ∃ s, exec step St.init (twiceRun 5) = some s ∧
    s.rows.map Row.attempts = [2] ∧
      ((Current s 0 (units "j") ∨ Refused s (units "j") 1) ↔ ¬ Reissued s 0 (units "j") 1) :=
  ⟨_, rfl, rfl, calls_fenced (reach_of_exec (twiceRun 5) rfl) rfl⟩

/-- The second lease fails for good, the job is taken back, and a third worker
gets it under the number of the first lease. -/
def reissueRun : List Action :=
  twiceRun 1 ++
    [.fail (units "j") none 0 (some 2) noon,
      .dlqRetry (units "j") noon,
      .lease (units "mail") 1000 1 noon []
        [(((sweptRow 1).lease noon 1000).fail none 0 noon).dlqRetry noon]]

theorem calls_not_fenced : ∃ s, exec step St.init reissueRun = some s ∧
    s.log[0]? = some (.leased (units "j") 1) ∧
      ¬ (Current s 0 (units "j") ∨ Refused s (units "j") 1) := by
  refine ⟨_, rfl, rfl, ?_⟩
  rintro (⟨-, hlater⟩ | hrefused)
  · exact hlater 1 (by decide)
  · have := (hrefused (.extendLease (units "j") 1 (some 1) noon) _ ⟨rfl, rfl, Int.one_pos⟩ rfl).2.1
    exact absurd this (by decide)

/-- In every run that sweeps no expired lease of a job without attempts left, a
job is handed out at most `maxAttempts` times between two requeues, its counter
says how often, and on its last attempt it ends as done or failed. -/
theorem attempts_bounded (h : Reach step (fun s a => bounded s a = true) St.init s) :
    ∀ r ∈ s.rows, (issued r.id s.log).length = r.attempts ∧ (r.attempts : Int) ≤ r.maxAttempts ∧
      (r.status = .inflight → (r.attempts : Int) = r.maxAttempts → ∀ a s', bounded s a = true →
        step s a = some s' → ∃ r' ∈ s'.rows, r'.id = r.id ∧
          (r'.status = .inflight ∨ r'.status = .done ∨ r'.status = .failed)) := by
  have hf : Fence s := reach_fence h
  have hw : ∀ r ∈ s.rows, Within r := h.invariant_of (J := Fence) (fun _ hr => reach_fence hr)
    (fun _ hr => (List.not_mem_nil hr).elim)
    fun _ _ _ hJ _ hI hok hs => (step_moves hJ.ids hs).effect.within hok hJ hI
  refine fun r hr => ⟨?_, (hw r hr).le, fun hstatus hlast a s' hok hs => ?_⟩
  · rw [hf.numbers r hr, List.length_range']
  · exact (step_moves hf.ids hs).effect.last_attempt hok hr hstatus hlast

/-- Handed out, failed, and handed out for the second and last time. -/
def lastRun : List Action :=
  [.enqueue (units "j") (units "mail") none (mailOpts 2) dawn,
    .lease (units "mail") 1000 1 dawn [] [mailRow 2],
    .fail (units "j") none 0 (some 1) noon,
    .lease (units "mail") 1000 1 noon [] [((mailRow 2).lease dawn 1000).fail none 0 noon]]

theorem attempts_bounded_last : ∃ s, exec (guarded step bounded) St.init lastRun = some s ∧
    s.rows.map Row.attempts = [2] ∧ ∀ r ∈ s.rows, (r.attempts : Int) ≤ r.maxAttempts :=
  ⟨_, rfl, rfl, fun r hr => (attempts_bounded (reach_of_exec_guarded lastRun rfl) r hr).2.1⟩

/-- A job with one attempt is handed out twice when its first lease is swept. -/
theorem attempts_exceed : ∃ s, exec step St.init (twiceRun 1) = some s ∧
    ∃ r ∈ s.rows, r.maxAttempts = 1 ∧ r.attempts = 2 ∧ issued r.id s.log = [1, 2] :=
  ⟨_, rfl, _, List.mem_cons_self, rfl, rfl, rfl⟩

end Blamejs.QueueLocal
