import Blamejs.Ref.AgentSaga

/-!
# The order of a saga's calls

`compensateAll_log` says once what the compensators are called for, `runSteps_log` what the
log of the loop is: the steps that completed and were checkpointed, and behind them either
nothing, or the step that failed and the compensators of what had completed by then. Whether
the failed step is among these is the one difference between a failure of its `run` and one
of its checkpoint.
-/

namespace Blamejs.AgentSaga

variable {ω ε : Type} {config : Config ω ε} {sagaId : String} {start index m : Nat} {w : ω}
variable {log : List Event}

def Event.ran : Event → Option Nat
  | .run index _ => some index
  | _ => none

def Event.compensated : Event → Option (Nat × Bool)
  | .compensate index ok => some (index, ok)
  | _ => none

def ran (log : List Event) : List Nat := log.filterMap Event.ran

/-- The compensators that were called, and whether they returned. -/
def compensated (log : List Event) : List (Nat × Bool) := log.filterMap Event.compensated

/-- The step completed and, with a store, was checkpointed. -/
def Checkpointed (config : Config ω ε) (log : List Event) (index : Nat) : Prop :=
  .run index true ∈ log ∧ (config.stateStore.isSome = true → .saveStep index true ∈ log)

def Config.compensates (config : Config ω ε) (index : Nat) : Bool :=
  (config.steps[index]?.bind Step.compensate).isSome

/-- The steps below the start index and those that completed, the last one first, as far as
they have a compensator. -/
def due (config : Config ω ε) (start : Nat) (log : List Event) : List Nat :=
  (List.range config.steps.length).reverse.filter fun index =>
    config.compensates index && (index < start || log.contains (.run index true))

/-- The compensators are called in turn, up to the first that throws. -/
def UpToThrow (due : List Nat) (calls : List (Nat × Bool)) : Prop :=
  calls = due.map (·, true) ∨
    ∃ front index back, due = front ++ index :: back ∧
      calls = front.map (·, true) ++ [(index, false)]

/-- What holds of the calls of a saga from an index on. -/
structure Orderly (config : Config ω ε) (start : Nat) (o : Outcome ω ε) : Prop where
  increasing : ran o.log = List.range' start (ran o.log).length
  inside : ∀ i ∈ ran o.log, i < config.steps.length
  stops : ∀ i, i + 1 ∈ ran o.log → start ≤ i → Checkpointed config o.log i
  decreasing : ((compensated o.log).map Prod.fst).Pairwise (· > ·)
  completed : o.result = .ok () → compensated o.log = [] ∧
    ∀ i, start ≤ i → i < config.steps.length → Checkpointed config o.log i
  failed : ∀ e, o.result = .error e →
    ∃ i before behind, (ran o.log).getLast? = some i ∧ o.log = before ++ behind ∧
      (.run i false ∈ before ∨ .saveStep i false ∈ before) ∧ compensated before = [] ∧
      ran behind = [] ∧ UpToThrow (due config start o.log) (compensated behind)

/-- Evaluating why a step failed does not throw, or no step below `m` has a compensator. -/
def Told (config : Config ω ε) (error : StepError ε) (m : Nat) : Prop :=
  config.reasonOf error = .ok () ∨ ∀ i < m, config.compensates i = false

/-- The failure of the steps that are left, if they come to one, is told. -/
def Spoken (config : Config ω ε) (sagaId : String) : List (Step ω ε) → Nat → ω → Prop
  | [], _, _ => True
  | step :: rest, index, w =>
      match runStep config sagaId step index w with
      | (_, w, _, none) => Spoken config sagaId rest (index + 1) w
      | (_, _, done, some error) => Told config error (if done then index + 1 else index)

/-! ## Compensators -/

theorem upToThrow_nil {due : List Nat} : UpToThrow due [] ↔ due = [] := by
  constructor
  · rintro (hall | ⟨front, i, back, -, hall⟩)
    · exact List.map_eq_nil_iff.mp hall.symm
    · simp at hall
  · rintro rfl
    exact .inl rfl

/-- The steps below an index that have a compensator, the last one first. -/
def owners (config : Config ω ε) (m : Nat) : List Nat :=
  ((List.range m).filter config.compensates).reverse

def compensateEvent (call : Nat × Bool) : Event := .compensate call.1 call.2

theorem owners_eq_nil : owners config m = [] ↔ ∀ i < m, config.compensates i = false := by
  rw [owners, List.reverse_eq_nil_iff, List.filter_eq_nil_iff]
  simp only [List.mem_range, Bool.not_eq_true]

theorem compensateAll_log (completed : List (Completed ω ε)) (w : ω) :
    ∃ calls, (compensateAll completed w).1 = calls.map compensateEvent ∧
      UpToThrow ((completed.filter fun c => c.1.compensate.isSome).map Prod.snd) calls := by
  induction completed generalizing w with
  | nil => exact ⟨[], rfl, Or.inl rfl⟩
  | cons c completed ih =>
      obtain ⟨step, index⟩ := c
      rw [compensateAll]
      cases hcomp : step.compensate with
      | none =>
          rw [List.filter_cons_of_neg (by simp [hcomp])]
          exact ih w
      | some compensate =>
          rw [List.filter_cons_of_pos (by simp [hcomp]), List.map_cons]
          rcases hcall : compensate w with ⟨w', _ | e⟩
          · obtain ⟨calls, hlog, hcalls⟩ := ih w'
            refine ⟨(index, true) :: calls, ?_, ?_⟩
            · dsimp only
              rw [hcall, List.map_cons, ← hlog]
              rfl
            · rcases hcalls with hall | ⟨front, i, back, hdue, hall⟩
              · exact Or.inl (by rw [hall, List.map_cons])
              · exact Or.inr ⟨index :: front, i, back, by rw [hdue]; rfl, by rw [hall]; rfl⟩
          · refine ⟨[(index, false)], ?_, Or.inr ⟨[], index, _, rfl, rfl⟩⟩
            dsimp only
            rw [hcall]
            rfl

/-- What had completed, as the loop holds it, owns the compensators below an index. -/
theorem owners_completed (hm : m ≤ config.steps.length) :
    ((config.steps.take m).zipIdx.reverse.filter fun c => c.1.compensate.isSome).map Prod.snd =
      owners config m := by
  rw [List.filter_reverse, List.map_reverse, owners]
  congr 1
  induction m with
  | zero => rfl
  | succ m ih =>
      have hget := List.getElem?_eq_getElem (show m < config.steps.length from hm)
      rw [List.take_add_one, hget, Option.toList_some, List.zipIdx_append, List.filter_append,
        List.map_append, ih (Nat.le_of_succ_le hm), List.range_succ, List.filter_append]
      congr 1
      have hlen : (config.steps.take m).length = m := by
        rw [List.length_take]
        omega
      by_cases hcomp : config.steps[m].compensate.isSome = true
      · simp [hlen, hcomp, Config.compensates, hget]
      · simp [hlen, hcomp, Config.compensates, hget]

theorem completed_succ (hm : m < config.steps.length) :
    (config.steps.take (m + 1)).zipIdx.reverse =
      (config.steps[m], m) :: (config.steps.take m).zipIdx.reverse := by
  have hlen : (config.steps.take m).length = m := by
    rw [List.length_take]
    omega
  rw [List.take_add_one, List.getElem?_eq_getElem hm, Option.toList_some, List.zipIdx_append, hlen,
    List.reverse_append]
  simp

/-! ## Steps -/

/-- The calls for a step that completes and is checkpointed. -/
def done (config : Config ω ε) (index : Nat) : List Event :=
  if config.stateStore.isSome then [.run index true, .saveStep index true] else [.run index true]

def doneLog (config : Config ω ε) (start n : Nat) : List Event :=
  (List.range' start n).flatMap (done config)

/-- The calls for a step that fails, and how many steps are to be compensated then. -/
def FailedWith (index : Nat) (log : List Event) (m : Nat) : Prop :=
  (log = [.run index false] ∧ m = index) ∨
    log = [.run index true, .saveStep index false] ∧ m = index + 1

theorem runStep_cases (config : Config ω ε) (sagaId : String) (step : Step ω ε) (index : Nat)
    (w : ω) :
    (∃ w', runStep config sagaId step index w = (done config index, w', true, none)) ∨
    (∃ w' e, runStep config sagaId step index w =
      ([.run index false], w', false, some e)) ∨
    ∃ w' e, runStep config sagaId step index w =
      ([.run index true, .saveStep index false], w', true, some e) := by
  rw [runStep, done]
  rcases hrun : step.run w with ⟨w', _ | e⟩
  · cases hstore : config.stateStore with
    | none => exact Or.inl ⟨w', rfl⟩
    | some store =>
        dsimp only
        rcases hsave : store.saveStep ⟨sagaId, config.name, index, step.name, index + 1⟩ w' with
          ⟨w'', _ | e⟩
        · exact Or.inl ⟨w'', rfl⟩
        · exact Or.inr (Or.inr ⟨w'', _, rfl⟩)
  · exact Or.inr (Or.inl ⟨w', _, rfl⟩)

theorem markFailed_log (config : Config ω ε) (failure : Failure) (w : ω) :
    (markFailed config failure w).1 = [] ∨
      (markFailed config failure w).1 = [.markFailed failure.stepIndex] := by
  rw [markFailed]
  cases config.stateStore.bind Store.markFailed with
  | none => exact Or.inl rfl
  | some mark => exact Or.inr rfl

theorem stepFailed_log (config : Config ω ε) (sagaId : String) (step : Step ω ε) (index : Nat)
    (error : StepError ε) (hm : m ≤ config.steps.length) (w : ω) :
    ∃ calls marked, (stepFailed config sagaId step index error
        (config.steps.take m).zipIdx.reverse w).log = calls.map compensateEvent ++ marked ∧
      (UpToThrow (owners config m) calls ∨ calls = []) ∧
      (UpToThrow (owners config m) calls ↔ Told config error m) ∧
      (marked = [] ∨ marked = [.markFailed index]) ∧
      ∃ e, (stepFailed config sagaId step index error (config.steps.take m).zipIdx.reverse
        w).result = .error e := by
  rw [stepFailed, Told, ← owners_eq_nil]
  cases hreason : config.reasonOf error with
  | error e =>
      refine ⟨[], [], rfl, .inr rfl, ?_, .inl rfl, _, rfl⟩
      rw [upToThrow_nil]
      exact (or_iff_right fun h => nomatch h).symm
  | ok _ =>
      obtain ⟨calls, hlog, hcalls⟩ := compensateAll_log (config.steps.take m).zipIdx.reverse w
      rw [owners_completed hm] at hcalls
      rcases hall : compensateAll (config.steps.take m).zipIdx.reverse w with ⟨log, w', failed⟩
      rw [hall] at hlog
      have htold := iff_of_true hcalls
        (Or.inl rfl : Except.ok (ε := ε) () = .ok () ∨ owners config m = [])
      dsimp only
      split
      · exact ⟨calls, [], by rw [List.append_nil]; exact hlog, .inl hcalls, htold, .inl rfl, _, rfl⟩
      · refine ⟨calls, _, congrArg (· ++ _) hlog, .inl hcalls, htold, ?_, _, rfl⟩
        exact markFailed_log config ⟨sagaId, config.name, step.name, index, failed.map Prod.fst⟩ w'

/-- What the loop logs. -/
theorem runSteps_log {rest : List (Step ω ε)} (hrest : config.steps.drop index = rest) (w : ω) :
    (∃ marked, (marked = [] ∨ marked = [.markCompleted]) ∧
      (runSteps config sagaId rest index (config.steps.take index).zipIdx.reverse w).log =
        doneLog config index rest.length ++ marked ∧
      (runSteps config sagaId rest index (config.steps.take index).zipIdx.reverse w).result =
        .ok () ∧ Spoken config sagaId rest index w) ∨
    ∃ k failure m calls marked, k < rest.length ∧ FailedWith (index + k) failure m ∧
      (UpToThrow (owners config m) calls ∨ calls = []) ∧
      (UpToThrow (owners config m) calls ↔ Spoken config sagaId rest index w) ∧
      (marked = [] ∨ marked = [.markFailed (index + k)]) ∧
      (runSteps config sagaId rest index (config.steps.take index).zipIdx.reverse w).log =
        doneLog config index k ++ failure ++ (calls.map compensateEvent ++ marked) ∧
      ∃ e, (runSteps config sagaId rest index (config.steps.take index).zipIdx.reverse w).result =
        .error e := by
  induction rest generalizing index w with
  | nil =>
      left
      rw [runSteps]
      cases config.stateStore.bind Store.markCompleted with
      | none => exact ⟨[], Or.inl rfl, rfl, rfl, trivial⟩
      | some mark => exact ⟨[.markCompleted], Or.inr rfl, rfl, rfl, trivial⟩
  | cons step rest ih =>
      have hindex : index < config.steps.length := by
        by_contra hle
        rw [List.drop_eq_nil_of_le (Nat.not_lt.mp hle)] at hrest
        cases hrest
      have hcons := List.drop_eq_getElem_cons hindex
      rw [hrest] at hcons
      obtain ⟨hstep, hdrop⟩ := List.cons.inj hcons
      rw [runSteps, Spoken]
      rcases runStep_cases config sagaId step index w with ⟨w', hrun⟩ | ⟨w', e, hrun⟩ |
        ⟨w', e, hrun⟩
      · rw [hrun]
        have hcompleted := completed_succ hindex
        rw [← hstep] at hcompleted
        dsimp only
        rw [if_pos rfl, ← hcompleted]
        rcases ih hdrop.symm w' with ⟨marked, hmarked, hlog, hresult⟩ |
          ⟨k, failure, m, calls, marked, hk, hfailed, hcalls, htold, hmarked, hlog, hresult⟩
        · refine Or.inl ⟨marked, hmarked, ?_, hresult⟩
          rw [Outcome.after, hlog, List.length_cons, doneLog, doneLog, List.range'_succ,
            List.flatMap_cons, List.append_assoc]
        · refine Or.inr ⟨k + 1, failure, m, calls, marked, Nat.succ_lt_succ hk, ?_, hcalls, htold,
            ?_, ?_, hresult⟩
          · rwa [Nat.add_right_comm] at hfailed
          · rwa [Nat.add_right_comm] at hmarked
          · rw [Outcome.after, hlog, doneLog, doneLog, List.range'_succ, List.flatMap_cons]
            simp only [List.append_assoc]
      · rw [hrun]
        obtain ⟨calls, marked, hlog, hcalls, htold, hmarked, hresult⟩ :=
          stepFailed_log config sagaId step index e (Nat.le_of_lt hindex) w'
        refine Or.inr ⟨0, _, index, calls, marked, Nat.succ_pos _, Or.inl ⟨rfl, rfl⟩, hcalls,
          htold, hmarked, ?_, hresult⟩
        exact congrArg ([Event.run index false] ++ ·) hlog
      · rw [hrun]
        have hcompleted := completed_succ hindex
        rw [← hstep] at hcompleted
        dsimp only
        rw [if_pos rfl, ← hcompleted]
        obtain ⟨calls, marked, hlog, hcalls, htold, hmarked, hresult⟩ :=
          stepFailed_log config sagaId step index e hindex w'
        refine Or.inr ⟨0, _, index + 1, calls, marked, Nat.succ_pos _, Or.inr ⟨rfl, rfl⟩, hcalls,
          htold, hmarked, ?_, hresult⟩
        exact congrArg ([Event.run index true, .saveStep index false] ++ ·) hlog

/-! ## The calls of a saga -/

theorem ran_append (l l' : List Event) : ran (l ++ l') = ran l ++ ran l' := List.filterMap_append

theorem compensated_append (l l' : List Event) :
    compensated (l ++ l') = compensated l ++ compensated l' := List.filterMap_append

theorem done_facts (config : Config ω ε) (index : Nat) :
    ran (done config index) = [index] ∧ compensated (done config index) = [] ∧
      Checkpointed config (done config index) index ∧
      ∀ i, Event.run i true ∈ done config index → i = index := by
  rw [Checkpointed, done]
  split
  · next hstore => simp [ran, compensated, Event.ran, Event.compensated]
  · next hstore => simp [ran, compensated, Event.ran, Event.compensated, hstore]

theorem doneLog_facts (config : Config ω ε) (start n : Nat) :
    ran (doneLog config start n) = List.range' start n ∧ compensated (doneLog config start n) = [] ∧
      (∀ i, start ≤ i → i < start + n → Checkpointed config (doneLog config start n) i) ∧
      ∀ i, Event.run i true ∈ doneLog config start n → start ≤ i ∧ i < start + n := by
  induction n generalizing start with
  | zero => exact ⟨rfl, rfl, fun i h h' => by omega, fun i h => nomatch h⟩
  | succ n ih =>
      obtain ⟨hran, hcomp, hchecked, hmem⟩ := ih (start + 1)
      obtain ⟨hran', hcomp', hchecked', hmem'⟩ := done_facts config start
      have hlog : doneLog config start (n + 1) =
          done config start ++ doneLog config (start + 1) n := by
        rw [doneLog, List.range'_succ, List.flatMap_cons, doneLog]
      rw [hlog, ran_append, compensated_append, hran, hran', hcomp, hcomp', List.range'_succ]
      refine ⟨rfl, rfl, fun i hle hlt => ?_, fun i hi => ?_⟩
      · rcases Nat.eq_or_lt_of_le hle with rfl | hlt'
        · exact ⟨List.mem_append_left _ hchecked'.1,
            fun h => List.mem_append_left _ (hchecked'.2 h)⟩
        · have hrest := hchecked i hlt' (by omega)
          exact ⟨List.mem_append_right _ hrest.1,
            fun h => List.mem_append_right _ (hrest.2 h)⟩
      · rcases List.mem_append.mp hi with hi | hi
        · have := hmem' i hi
          omega
        · have := hmem i hi
          omega

theorem calls_facts (calls : List (Nat × Bool)) :
    ran (calls.map compensateEvent) = [] ∧ compensated (calls.map compensateEvent) = calls ∧
      ∀ i, Event.run i true ∉ calls.map compensateEvent := by
  refine ⟨?_, ?_, fun i hi => ?_⟩
  · rw [ran, List.filterMap_map]
    exact List.filterMap_eq_nil_iff.mpr fun _ _ => rfl
  · rw [compensated, List.filterMap_map]
    exact List.filterMap_some
  · obtain ⟨c, -, hc⟩ := List.mem_map.mp hi
    cases hc

/-- The steps below an index are due exactly if they are the ones that completed. -/
theorem due_eq_owners (hm : m ≤ config.steps.length)
    (hdue : ∀ i, i < config.steps.length → ((i < start ∨ Event.run i true ∈ log) ↔ i < m)) :
    due config start log = owners config m := by
  rw [due, owners, List.filter_reverse]
  congr 1
  have hfilter : (List.range config.steps.length).filter (fun index =>
      config.compensates index && (index < start || log.contains (.run index true))) =
      (List.range config.steps.length).filter (fun index =>
        config.compensates index && decide (index < m)) := by
    refine List.filter_congr fun i hi => ?_
    rw [Bool.eq_iff_iff, Bool.and_eq_true, Bool.and_eq_true, Bool.or_eq_true, decide_eq_true_eq,
      decide_eq_true_eq, List.contains_iff_mem]
    exact and_congr_right fun _ => hdue i (List.mem_range.mp hi)
  rw [hfilter]
  obtain ⟨k, hk⟩ := Nat.exists_eq_add_of_le hm
  rw [hk, List.range_add, List.filter_append]
  have hbelow : (List.range m).filter
      (fun index => config.compensates index && decide (index < m)) =
      (List.range m).filter config.compensates := by
    refine List.filter_congr fun i hi => ?_
    rw [decide_eq_true (List.mem_range.mp hi), Bool.and_true]
  have habove : ((List.range k).map fun x => m + x).filter
      (fun index => config.compensates index && decide (index < m)) = [] := by
    rw [List.filter_eq_nil_iff]
    intro i hi
    obtain ⟨j, -, rfl⟩ := List.mem_map.mp hi
    simp
  rw [hbelow, habove, List.append_nil]

theorem owners_pairwise (config : Config ω ε) (m : Nat) :
    (owners config m).Pairwise (· > ·) := by
  rw [owners, List.pairwise_reverse]
  exact List.pairwise_lt_range.filter _

theorem UpToThrow.decreasing {due : List Nat} {calls : List (Nat × Bool)} (h : UpToThrow due calls)
    (hdue : due.Pairwise (· > ·)) : (calls.map Prod.fst).Pairwise (· > ·) := by
  rcases h with rfl | ⟨front, i, back, rfl, rfl⟩
  · simpa [Function.comp_def] using hdue
  · have hfront : (front ++ [i]).Pairwise (· > ·) := by
      refine hdue.sublist ?_
      rw [List.append_cons front i back]
      exact List.sublist_append_left _ _
    simpa [Function.comp_def] using hfront

/-- However the callbacks turn out, but for a failure that is not told: the steps run in order
from the start index, each once and none behind a failure; a saga that answers that it completed
has run and checkpointed every step and called no compensator; and where a step fails, in its run
or its checkpoint, the compensators of the steps below the start index and of those that completed
are called from the last one down, each once, up to the first that throws. -/
theorem runFrom_orderly_iff (config : Config ω ε) (sagaId : String) (start : Nat) (w : ω) :
    Orderly config start (runFrom config sagaId start w) ↔
      Spoken config sagaId (config.steps.drop start) start w := by
  rw [runFrom]
  rcases @runSteps_log ω ε config sagaId start _ rfl w with 
      ⟨marked, hmarked, hlog, hresult, hspoken⟩ |
    ⟨k, failure, m, calls, marked, hk, hfailed, hcalls, htold, hmarked, hlog, e, hresult⟩
  · refine iff_of_true ?_ hspoken
    obtain ⟨hran, hcomp, hchecked, -⟩ :=
      doneLog_facts config start (config.steps.drop start).length
    have hmarks : ran marked = [] ∧ compensated marked = [] := by
      rcases hmarked with rfl | rfl <;> exact ⟨rfl, rfl⟩
    generalize runSteps config sagaId (config.steps.drop start) start
      (config.steps.take start).zipIdx.reverse w = o at hlog hresult ⊢
    have hrans : ran o.log = List.range' start (config.steps.drop start).length := by
      rw [hlog, ran_append, hran, hmarks.1, List.append_nil]
    have hcomps : compensated o.log = [] := by
      rw [hlog, compensated_append, hcomp, hmarks.2, List.append_nil]
    have hall : ∀ i, start ≤ i → i < config.steps.length → Checkpointed config o.log i := by
      intro i hle hlt
      have hdone := hchecked i hle (by rw [List.length_drop]; omega)
      rw [hlog]
      exact ⟨List.mem_append_left _ hdone.1, fun h => List.mem_append_left _ (hdone.2 h)⟩
    have hinside : ∀ i ∈ ran o.log, i < config.steps.length := by
      intro i hi
      rw [hrans, List.mem_range'_1, List.length_drop] at hi
      omega
    refine ⟨by rw [hrans, List.length_range'], hinside, fun i hi hle => ?_, ?_,
      fun _ => ⟨hcomps, hall⟩, fun e he => ?_⟩
    · have := hinside _ hi
      exact hall i hle (by omega)
    · rw [hcomps]
      exact .nil
    · rw [hresult] at he
      cases he
  · obtain ⟨hran, hcomp, hchecked, hmem⟩ := doneLog_facts config start k
    obtain ⟨hcallsRan, hcallsComp, hcallsRun⟩ := calls_facts calls
    have hmarks : ran marked = [] ∧ compensated marked = [] ∧ ∀ i, Event.run i true ∉ marked := by
      rcases hmarked with rfl | rfl <;> exact ⟨rfl, rfl, fun i => by simp⟩
    rw [List.length_drop] at hk
    have hfailure : ran failure = [start + k] ∧ compensated failure = [] ∧
        (Event.run (start + k) false ∈ failure ∨ Event.saveStep (start + k) false ∈ failure) ∧
        (∀ i, Event.run i true ∈ failure ↔ start + k < m ∧ i = start + k) ∧ start + k ≤ m ∧
          m ≤ start + k + 1 := by
      rcases hfailed with ⟨rfl, rfl⟩ | ⟨rfl, rfl⟩
      · exact ⟨rfl, rfl, Or.inl (by simp), fun i => by simp, Nat.le_refl _, Nat.le_succ _⟩
      · exact ⟨rfl, rfl, Or.inr (by simp), fun i => by simp, Nat.le_succ _, Nat.le_refl _⟩
    obtain ⟨hfailureRan, hfailureComp, hfailureMem, hfailureRun, hlow, hhigh⟩ := hfailure
    generalize runSteps config sagaId (config.steps.drop start) start
      (config.steps.take start).zipIdx.reverse w = o at hlog hresult ⊢
    have hrans : ran o.log = List.range' start k ++ [start + k] := by
      rw [hlog, ran_append, ran_append, ran_append, hran, hfailureRan, hcallsRan, hmarks.1,
        List.append_nil, List.append_nil]
    have hcomps : compensated o.log = calls := by
      rw [hlog, compensated_append, compensated_append, compensated_append, hcomp, hfailureComp,
        hcallsComp, hmarks.2.1, List.append_nil, List.append_nil, List.nil_append]
    have hdue : due config start o.log = owners config m := by
      refine due_eq_owners (by omega) fun i hi => ?_
      rw [hlog, List.mem_append, List.mem_append, List.mem_append, hfailureRun]
      constructor
      · rintro (hlt | (hdone | ⟨hlt, rfl⟩) | hcall | hmark)
        · omega
        · have := hmem i hdone
          omega
        · exact hlt
        · exact absurd hcall (hcallsRun i)
        · exact absurd hmark (hmarks.2.2 i)
      · intro hlt
        by_cases hbelow : i < start
        · exact Or.inl hbelow
        · by_cases heq : i = start + k
          · exact Or.inr (Or.inl (Or.inr ⟨heq ▸ hlt, heq⟩))
          · exact Or.inr (Or.inl (Or.inl (hchecked i (by omega) (by omega)).1))
    rw [← htold]
    refine ⟨fun h => ?_, fun htold => ⟨?_, fun i hi => ?_, fun i hi hle => ?_, ?_, fun hok => ?_,
      fun e' he' => ?_⟩⟩
    · obtain ⟨i, before, behind, -, hsplit, -, hbefore, -, hbehind⟩ := h.failed e hresult
      have hcalls : compensated behind = calls := by
        rw [← hcomps, hsplit, compensated_append, hbefore, List.nil_append]
      rwa [hdue, hcalls] at hbehind
    · rw [hrans, List.length_append, List.length_range', List.length_singleton, List.range'_concat]
      simp
    · rw [hrans, List.mem_append, List.mem_range'_1, List.mem_singleton] at hi
      omega
    · rw [hrans, List.mem_append, List.mem_range'_1, List.mem_singleton] at hi
      have hdone := hchecked i hle (by omega)
      rw [hlog, List.append_assoc]
      exact ⟨List.mem_append_left _ hdone.1, fun h => List.mem_append_left _ (hdone.2 h)⟩
    · rw [hcomps]
      exact htold.decreasing (owners_pairwise config m)
    · rw [hresult] at hok
      cases hok
    · refine ⟨start + k, doneLog config start k ++ failure, calls.map compensateEvent ++ marked,
        ?_, hlog, ?_, ?_, ?_, ?_⟩
      · rw [hrans, List.getLast?_concat]
      · exact hfailureMem.imp (List.mem_append_right _) (List.mem_append_right _)
      · rw [compensated_append, hcomp, hfailureComp]
        rfl
      · rw [ran_append, hcallsRan, hmarks.1]
        rfl
      · rw [hdue, compensated_append, hcallsComp, hmarks.2.1, List.append_nil]
        exact htold

/-- The second step throws an object without a prototype, whose text cannot be had. -/
def mute : Config Unit Bool where
  name := "order"
  steps := [⟨"reserve", fun w => (w, none), some fun w => (w, none)⟩,
    ⟨"charge", fun w => (w, some true), none⟩]
  stateStore := none
  reason e := if e then .error false else .ok ()
  text e := if e then .error false else .ok "Cannot convert object to primitive value"
  truthy _ := true

/-- The compensator of the step that completed is not called. -/
theorem reserve_not_compensated :
    (runFrom mute "s" 0 ()).log = [.run 0 true, .run 1 false] ∧
      (runFrom mute "s" 0 ()).result = .error (.other false) ∧
      ¬ Orderly mute 0 (runFrom mute "s" 0 ()) := by
  refine ⟨rfl, rfl, fun h => ?_⟩
  obtain ⟨i, before, behind, -, hsplit, -, -, -, hbehind⟩ := h.failed _ rfl
  have hnone : compensated behind = [] := by
    have hall : compensated (before ++ behind) = [] := hsplit ▸ rfl
    rw [compensated_append] at hall
    exact (List.append_eq_nil_iff.mp hall).2
  rw [hnone, upToThrow_nil] at hbehind
  exact absurd hbehind (by decide)

end Blamejs.AgentSaga
