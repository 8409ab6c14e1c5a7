import Blamejs.Ref.QueueLocal

/-!
# What a step of the local queue can do

`Moves` is the step function turned around, one constructor for each way a step
can go, and the only place where `step` is unfolded. `Effect` is the same seen
from the table and the log alone: a statement moves nothing, adds a job, hands
jobs out, leaves status and counter alone, ends a lease, sweeps, or requeues.
-/

namespace Blamejs.QueueLocal

open Blamejs.Js Checked Run Table

inductive Moves (s : St) : Action → St → Prop
  | stays {a : Action} : Moves s a s
  | enqueue {id queueName : JsString} {payload : Option JsString} {opts : JobOpts} {now : Date}
      (hfresh : id ∉ s.seen) :
      Moves s (.enqueue id queueName payload opts now) { s with
        rows := s.rows ++ [QueueLocal.enqueue id queueName payload opts.toEnqueueOpts now]
        seen := id :: s.seen }
  | lease {queueName : JsString} {leaseMs : Int} {count : Nat} {now : Date} {locked : List JsString}
      {rows : List Row} (leased : List Row) (hleased : ∀ r ∈ leased, r ∈ s.rows)
      (hcandidate : ∀ r ∈ leased, candidate queueName now locked r = true)
      (hnodup : (leased.map Row.id).Nodup) :
      Moves s (.lease queueName leaseMs count now locked rows) { s with
        rows := update (fun r => r.id ∈ leased.map Row.id) (Row.lease now leaseMs) s.rows
        log := s.log ++ leased.map fun r => .leased r.id (r.attempts + 1) }
  | extendLease {jobId : JsString} {additionalMs : Int} {attempt : Option Nat} {now : Date} :
      Moves s (.extendLease jobId additionalMs attempt now)
        (s.call jobId attempt (Row.extendLease (now.val + additionalMs)))
  | complete {w : Nat} {jobId : JsString} {attempt : Option Nat} {now : Date}
      (hpc : s.completes w = .idle) :
      Moves s (.complete w jobId attempt now) (St.goto { s with seen := jobId :: s.seen } w
        (.selected jobId attempt now (s.rows.find? (·.id = jobId))))
  | markDone {w : Nat} {jobId : JsString} {attempt : Option Nat} {now : Date} {row : Option Row}
      (hpc : s.completes w = .selected jobId attempt now row)
      (hcount : rowCount (heldBy jobId attempt) s.rows ≠ 0) :
      Moves s (.markDone w)
        ((s.call jobId attempt (Row.complete now)).goto w (.afterDone row now))
  | notDone {w : Nat} {jobId : JsString} {attempt : Option Nat} {now : Date} {row : Option Row}
      (hpc : s.completes w = .selected jobId attempt now row)
      (hcount : rowCount (heldBy jobId attempt) s.rows = 0) :
      Moves s (.markDone w) ((s.call jobId attempt (Row.complete now)).goto w .idle)
  | notRepeated {w : Nat} {row : Row} {now : Date} (hpc : s.completes w = .repeating row now) :
      Moves s (.repeatJob w none) (s.goto w (.release row now))
  | repeatJob {w : Nat} {row : Row} {now : Date} {r : Repeat}
      (hpc : s.completes w = .repeating row now) (hfresh : r.id ∉ s.seen) :
      Moves s (.repeatJob w (some r)) (St.goto { s with
        rows := s.rows ++
          [QueueLocal.enqueue r.id row.queueName r.payload (repeatOpts row r.nextMs) r.now]
        seen := r.id :: s.seen } w (.release row now))
  | selectSiblings {w : Nat} {siblings : List Row} {rel : Release}
      (hpc : s.completes w = .releasing rel)
      (hperm : siblings.Perm (s.rows.filter (parked rel.flowId rel.now))) :
      Moves s (.selectSiblings w siblings) (s.goto w (.next rel siblings))
  | depDone {w : Nat} {rel : Release} {sib dep : JsString} {deps : List Dep} {rest : List Row}
      (hpc : s.completes w = .checking rel sib dep deps rest) {row : Row} (hrow : row ∈ s.rows)
      (hdone : satisfies exactly rel.flowId dep row = true) :
      Moves s (.checkDep w) (s.goto w (.check rel sib rest deps))
  | depOpen {w : Nat} {rel : Release} {sib dep : JsString} {deps : List Dep} {rest : List Row}
      (hpc : s.completes w = .checking rel sib dep deps rest)
      (hopen : ∀ r ∈ s.rows, satisfies exactly rel.flowId dep r = false) :
      Moves s (.checkDep w) (s.goto w (.next rel rest))
  | releaseChild {w : Nat} {rel : Release} {sib : JsString} {rest : List Row}
      (hpc : s.completes w = .updating rel sib rest) :
      Moves s (.releaseChild w) (St.goto { s with
        rows := update (·.id = sib) (fun r => { r with availableAt := rel.now.val }) s.rows } w
        (.next rel rest))
  | fail {jobId : JsString} {errorMessage : Option JsString} {retryDelayMs : Int}
      {attempt : Option Nat} {now : Date} :
      Moves s (.fail jobId errorMessage retryDelayMs attempt now)
        (s.call jobId attempt (Row.fail errorMessage retryDelayMs now))
  | sweepExpired {now : Date} :
      Moves s (.sweepExpired now) { s with rows := update (expired now) Row.sweep s.rows }
  | dlqRetry {jobId : JsString} {now : Date} :
      Moves s (.dlqRetry jobId now) { s with
        rows := update (deadLetter jobId) (Row.dlqRetry now) s.rows
        log := s.log ++ if rowCount (deadLetter jobId) s.rows = 0 then [] else [.requeued jobId] }
  | startFlow {token : JsString} {spec : FlowSpec} (flowId : JsString)
      (hflowId : flowId = units "flow-" ++ token) (hcheck : spec.check = .ok ())
      (hseen : flowId ∉ s.seen) :
      Moves s (.startFlow token spec)
        (St.flow { s with seen := flowId :: spec.texts ++ s.seen } flowId
          (.inserting spec.queueName spec.children []))
  | insertChild {flowId id : JsString} {now : Date} {queueName : JsString} {c : Child}
      {todo : List Child} {jobs : List FlowJob}
      (hpc : s.flows flowId = .inserting queueName (c :: todo) jobs) (hfresh : id ∉ s.seen) :
      Moves s (.insertChild flowId id now) (St.flow { s with
        rows := s.rows ++
          [QueueLocal.enqueue id queueName c.payload (c.toEnqueueOpts flowId) now]
        seen := id :: s.seen
        children := s.children ++ [⟨flowId, c.name, id, c.dependsOn⟩] } flowId
        (.inserted queueName (jobs ++ [⟨c.name, id, c.dependsOn⟩]) todo))
  | patchFlowDeps {flowId : JsString} {jobs todo : List FlowJob} {job : FlowJob}
      (hpc : s.flows flowId = .patching jobs (job :: todo)) :
      Moves s (.patchFlowDeps flowId) (St.flow { s with
        rows := update (·.id = job.jobId)
          (fun r => { r with dependsOn := some (job.dependsOn.map (jobIdOf jobs)) }) s.rows } flowId
        (.patch jobs todo))
  | abandon {w : Nat} : Moves s (.abandon w) (s.goto w .idle)
  | abandonFlow {flowId : JsString} : Moves s (.abandonFlow flowId) (s.flow flowId .idle)

variable {s s' : St}

/-! ## The WHERE clauses -/

section
variable {queueName jobId flowId dep : JsString} {attempt : Option Nat} {now : Date} {r : Row}

theorem candidate_iff {locked : List JsString} : candidate queueName now locked r = true ↔
    r.queueName = queueName ∧ r.status = .pending ∧ r.availableAt ≤ now.val ∧ r.id ∉ locked :=
  decide_eq_true_iff

theorem heldBy_iff : heldBy jobId attempt r = true ↔
    r.id = jobId ∧ r.status = .inflight ∧ attempt.all (r.attempts = ·) = true :=
  decide_eq_true_iff

theorem expired_iff : expired now r = true ↔
    r.status = .inflight ∧ r.leaseExpiresAt.any (· < now.val) = true :=
  decide_eq_true_iff

theorem deadLetter_iff : deadLetter jobId r = true ↔ r.id = jobId ∧ r.status = .failed :=
  decide_eq_true_iff

theorem parked_iff : parked flowId now r = true ↔
    r.flowId = some flowId ∧ r.status = .pending ∧ now.val < r.availableAt :=
  decide_eq_true_iff

theorem satisfies_iff : satisfies exactly flowId dep r = true ↔
    r.flowId = some flowId ∧ r.status = .done ∧ (r.id = dep ∨ r.flowChildName = some dep) := by
  have hname : r.flowChildName.any (exactly · dep) = true ↔ r.flowChildName = some dep := by
    cases r.flowChildName with
    | none => simp
    | some name => simp [exactly]
  rw [satisfies, decide_eq_true_iff, hname, exactly, decide_eq_true_iff]

/-- A row the UPDATE of `lease` touches is one of the rows it was given. -/
theorem leased_row {leased : List Row} (hids : (s.rows.map Row.id).Nodup)
    (hleased : ∀ r ∈ leased, r ∈ s.rows) (hr : r ∈ s.rows)
    (hp : decide (r.id ∈ leased.map Row.id) = true) : r ∈ leased := by
  obtain ⟨q, hq, heq⟩ := List.mem_map.mp (of_decide_eq_true hp)
  have hsame : q = r := row_unique hids (hleased q hq) hr heq
  exact hsame ▸ hq

end

/-! ## The steps -/

theorem step_moves {a : Action} (hids : (s.rows.map Row.id).Nodup) (h : step s a = some s') :
    Moves s a s' := by
  cases a with
  | enqueue id queueName payload opts now =>
      rw [step, stepWith] at h
      split at h
      · cases h
      · next hfresh =>
          injection h with h
          exact h ▸ .enqueue hfresh
  | lease queueName leaseMs count now locked rows =>
      rw [step, stepWith] at h
      split at h
      · next hopen =>
          injection h with h
          subst h
          have hmem : ∀ r ∈ rows.take count, r ∈ s.rows ∧ candidate queueName now locked r = true :=
            fun r hr => List.mem_filter.mp (hopen.1.mem_iff.mp (List.mem_of_mem_take hr))
          have hnodup : (rows.map Row.id).Nodup :=
            (hopen.1.map _).nodup_iff.mpr (hids.sublist (List.filter_sublist.map _))
          exact .lease (rows.take count) (fun r hr => (hmem r hr).1) (fun r hr => (hmem r hr).2)
            (hnodup.sublist ((List.take_sublist _ _).map _))
      · cases h
  | extendLease jobId additionalMs attempt now =>
      rw [step, stepWith] at h
      split at h
      · injection h with h
        exact h ▸ .stays
      · injection h with h
        exact h ▸ .extendLease
  | complete w jobId attempt now =>
      rw [step, stepWith] at h
      split at h
      · next hpc =>
          injection h with h
          exact h ▸ .complete hpc
      · cases h
  | markDone w =>
      rw [step, stepWith] at h
      split at h
      · next jobId attempt now row hpc =>
          injection h with h
          subst h
          by_cases hcount : rowCount (heldBy jobId attempt) s.rows = 0
          · rw [if_neg (not_not.mpr hcount)]
            exact .notDone hpc hcount
          · rw [if_pos hcount]
            exact .markDone hpc hcount
      · cases h
  | repeatJob w next =>
      rw [step, stepWith] at h
      split at h
      · next row now hpc =>
          cases next with
          | none =>
              injection h with h
              exact h ▸ .notRepeated hpc
          | some r =>
              dsimp only at h
              split at h
              · cases h
              · next hfresh =>
                  injection h with h
                  exact h ▸ .repeatJob hpc hfresh
      · cases h
  | selectSiblings w siblings =>
      rw [step, stepWith] at h
      split at h
      · next rel hpc =>
          split at h
          · next hperm =>
              injection h with h
              exact h ▸ .selectSiblings hpc hperm
          · cases h
      · cases h
  | checkDep w =>
      rw [step, stepWith] at h
      split at h
      · next rel sib dep deps rest hpc =>
          injection h with h
          subst h
          cases hany : s.rows.any (satisfies exactly rel.flowId dep) with
          | true =>
              obtain ⟨row, hrow, hdone⟩ := List.any_eq_true.mp hany
              exact .depDone hpc hrow hdone
          | false =>
              exact .depOpen hpc fun r hr => Bool.eq_false_iff.mpr (List.any_eq_false.mp hany r hr)
      · cases h
  | releaseChild w =>
      rw [step, stepWith] at h
      split at h
      · next hpc =>
          injection h with h
          exact h ▸ .releaseChild hpc
      · cases h
  | fail jobId errorMessage retryDelayMs attempt now =>
      injection h with h
      exact h ▸ .fail
  | sweepExpired now =>
      injection h with h
      exact h ▸ .sweepExpired
  | dlqRetry jobId now =>
      injection h with h
      exact h ▸ .dlqRetry
  | startFlow token spec =>
      rw [step, stepWith] at h
      split at h
      · injection h with h
        exact h ▸ .stays
      · next hcheck =>
          split at h
          · cases h
          · next hfresh =>
              injection h with h
              rw [not_or] at hfresh
              exact h ▸ .startFlow _ rfl hcheck hfresh.1
  | insertChild flowId id now =>
      rw [step, stepWith] at h
      split at h
      · next hpc =>
          split at h
          · cases h
          · next hfresh =>
              injection h with h
              exact h ▸ .insertChild hpc hfresh
      · cases h
  | patchFlowDeps flowId =>
      rw [step, stepWith] at h
      split at h
      · next hpc =>
          injection h with h
          exact h ▸ .patchFlowDeps hpc
      · cases h
  | abandon w =>
      injection h with h
      exact h ▸ .abandon
  | abandonFlow flowId =>
      injection h with h
      exact h ▸ .abandonFlow

/-! ## The table and the log -/

/-- What no statement assigns: the id, and where in a flow the job stands. -/
structure Place where
  id : JsString
  flowId : Option JsString
  flowChildName : Option JsString

def Row.place (r : Row) : Place := ⟨r.id, r.flowId, r.flowChildName⟩

theorem id_of_place {r r' : Row} (h : r.place = r'.place) : r.id = r'.id := congrArg Place.id h

/-- A statement that leaves a row's status and counters alone. -/
structure Keeps (f : Row → Row) : Prop where
  place : ∀ r, (f r).place = r.place
  status : ∀ r, (f r).status = r.status
  attempts : ∀ r, (f r).attempts = r.attempts
  maxAttempts : ∀ r, (f r).maxAttempts = r.maxAttempts

/-- A statement that ends a lease: the job is done, or the call failed. -/
structure Settles (f : Row → Row) : Prop where
  place : ∀ r, (f r).place = r.place
  attempts : ∀ r, (f r).attempts = r.attempts
  maxAttempts : ∀ r, (f r).maxAttempts = r.maxAttempts
  status : ∀ r, (f r).status = .done ∨ (f r).status = .failed ∨
    (f r).status = .pending ∧ (r.attempts : Int) < r.maxAttempts

/-- What a step must meet for `maxAttempts` to bound the attempts: a job is
enqueued with at least one, and no expired lease is swept of a job that has none
left. -/
def bounded (s : St) : Action → Bool
  | .enqueue _ _ _ opts _ => 1 ≤ opts.maxAttempts.getD 5
  | .insertChild flowId _ _ =>
      match s.flows flowId with
      | .inserting _ (c :: _) _ => 1 ≤ c.maxAttempts.getD 5
      | _ => true
  | .sweepExpired now => s.rows.all fun r => !expired now r || (r.attempts : Int) < r.maxAttempts
  | _ => true

/-- The kinds of steps, as the table and the log see them. -/
inductive Effect (s : St) : Action → St → Prop
  | same {s' : St} {a : Action} (hrows : s'.rows = s.rows) (hlog : s'.log = s.log)
      (hseen : s.seen ⊆ s'.seen) : Effect s a s'
  | insert {s' : St} {a : Action} (row : Row) (hfresh : row.id ∉ s.seen)
      (hpending : row.status = .pending) (hnew : row.attempts = 0)
      (hrows : s'.rows = s.rows ++ [row]) (hlog : s'.log = s.log)
      (hseen : s'.seen = row.id :: s.seen) (hmax : bounded s a = true → 1 ≤ row.maxAttempts) :
      Effect s a s'
  | lease {s' : St} {queueName : JsString} {leaseMs : Int} {count : Nat} {now : Date}
      {locked : List JsString} {rows : List Row} (leased : List Row)
      (hleased : ∀ r ∈ leased, r ∈ s.rows)
      (hcandidate : ∀ r ∈ leased, candidate queueName now locked r = true)
      (hnodup : (leased.map Row.id).Nodup)
      (hrows : s'.rows = update (fun r => r.id ∈ leased.map Row.id) (Row.lease now leaseMs) s.rows)
      (hlog : s'.log = s.log ++ leased.map fun r => .leased r.id (r.attempts + 1))
      (hseen : s'.seen = s.seen) : Effect s (.lease queueName leaseMs count now locked rows) s'
  | touch {s' : St} {a : Action} (p : Row → Bool) (f : Row → Row) (hf : Keeps f)
      (hrows : s'.rows = update p f s.rows) (hlog : s'.log = s.log) (hseen : s'.seen = s.seen) :
      Effect s a s'
  | settle {s' : St} {a : Action} (jobId : JsString) (attempt : Option Nat) (f : Row → Row)
      (hf : Settles f) (hrows : s'.rows = update (heldBy jobId attempt) f s.rows)
      (hlog : s'.log = s.log)
      (hseen : s'.seen = s.seen) : Effect s a s'
  | sweep {s' : St} (now : Date) (hrows : s'.rows = update (expired now) Row.sweep s.rows)
      (hlog : s'.log = s.log) (hseen : s'.seen = s.seen) : Effect s (.sweepExpired now) s'
  | requeue {s' : St} (jobId : JsString) (now : Date)
      (hrows : s'.rows = update (deadLetter jobId) (Row.dlqRetry now) s.rows)
      (hlog : s'.log = s.log ++
        if rowCount (deadLetter jobId) s.rows = 0 then [] else [.requeued jobId])
      (hseen : s'.seen = s.seen) : Effect s (.dlqRetry jobId now) s'

theorem keeps_extendLease (expiry : Int) : Keeps (Row.extendLease expiry) :=
  ⟨fun _ => rfl, fun _ => rfl, fun _ => rfl, fun _ => rfl⟩

theorem settles_complete (now : Date) : Settles (Row.complete now) :=
  ⟨fun _ => rfl, fun _ => rfl, fun _ => rfl, fun _ => .inl rfl⟩

theorem settles_fail (errorMessage : Option JsString) (retryDelayMs : Int) (now : Date) :
    Settles (Row.fail errorMessage retryDelayMs now) := by
  refine ⟨fun _ => rfl, fun _ => rfl, fun _ => rfl, fun r => ?_⟩
  by_cases hlt : (r.attempts : Int) < r.maxAttempts
  · exact .inr (.inr ⟨if_pos hlt, hlt⟩)
  · exact .inr (.inl (if_neg hlt))

theorem one_le_repeat (row : Row) (nextMs : Int) :
    1 ≤ (repeatOpts row nextMs).maxAttempts.getD 5 := by
  show 1 ≤ (if 0 < row.maxAttempts then some row.maxAttempts else none).getD 5
  split
  · next hpos => exact hpos
  · decide

theorem Moves.effect {a : Action} (hm : Moves s a s') : Effect s a s' := by
  cases hm with
  | stays => exact .same rfl rfl (List.Subset.refl _)
  | enqueue hfresh => exact .insert _ hfresh rfl rfl rfl rfl rfl of_decide_eq_true
  | lease leased hleased hcandidate hnodup =>
      exact .lease leased hleased hcandidate hnodup rfl rfl rfl
  | extendLease => exact .touch _ _ (keeps_extendLease _) rfl rfl rfl
  | complete hpc => exact .same rfl rfl (List.subset_cons_self _ _)
  | markDone hpc hcount => exact .settle _ _ _ (settles_complete _) rfl rfl rfl
  | notDone hpc hcount => exact .settle _ _ _ (settles_complete _) rfl rfl rfl
  | notRepeated hpc => exact .same rfl rfl (List.Subset.refl _)
  | repeatJob hpc hfresh => exact .insert _ hfresh rfl rfl rfl rfl rfl fun _ => one_le_repeat _ _
  | selectSiblings hpc hperm => exact .same rfl rfl (List.Subset.refl _)
  | depDone hpc hrow hdone => exact .same rfl rfl (List.Subset.refl _)
  | depOpen hpc hopen => exact .same rfl rfl (List.Subset.refl _)
  | releaseChild hpc =>
      refine .touch _ _ ?_ rfl rfl rfl
      exact ⟨fun _ => rfl, fun _ => rfl, fun _ => rfl, fun _ => rfl⟩
  | fail => exact .settle _ _ _ (settles_fail _ _ _) rfl rfl rfl
  | sweepExpired => exact .sweep _ rfl rfl rfl
  | dlqRetry => exact .requeue _ _ rfl rfl rfl
  | @startFlow token spec flowId hflowId hcheck hseen =>
      exact .same rfl rfl fun x hx => List.mem_append_right (flowId :: spec.texts) hx
  | insertChild hpc hfresh =>
      refine .insert _ hfresh rfl rfl rfl rfl rfl fun hok => ?_
      rw [bounded, hpc] at hok
      exact of_decide_eq_true hok
  | patchFlowDeps hpc =>
      refine .touch _ _ ?_ rfl rfl rfl
      exact ⟨fun _ => rfl, fun _ => rfl, fun _ => rfl, fun _ => rfl⟩
  | abandon => exact .same rfl rfl (List.Subset.refl _)
  | abandonFlow => exact .same rfl rfl (List.Subset.refl _)

end Blamejs.QueueLocal
