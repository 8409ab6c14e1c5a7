import Mathlib.Tactic.Common

/-!
# Sagas (`lib/agent-saga.js`)

What a callback does to the world, the saga's state in it, is a parameter, and so is what it
throws. The log holds the calls in order, each with whether it returned; `markFailed` and
`markCompleted` are in it too, and what they throw is dropped as in the code. The audit
trail, which never throws, is left out; what it is given is evaluated all the same, and a thrown
value whose text cannot be had makes that throw.
-/

namespace Blamejs.AgentSaga

/-- A callback of the caller: the world after it, and what it threw. -/
abbrev Callback (ω ε : Type) := ω → ω × Option ε

structure Step (ω ε : Type) where
  name : String
  run : Callback ω ε
  compensate : Option (Callback ω ε)

/-- What `saveStep` is given, the state apart. -/
structure Checkpoint where
  sagaId : String
  sagaName : String
  stepIndex : Nat
  stepName : String
  nextIndex : Nat

/-- What `markFailed` is given, the state apart. -/
structure Failure where
  sagaId : String
  sagaName : String
  failedStep : String
  stepIndex : Nat
  compensationFailedAt : Option String

structure ResumePoint where
  stepIndex : Nat
  terminal : Bool

structure Store (ω ε : Type) where
  saveStep : Checkpoint → Callback ω ε
  /-- The saga's state in the world is then the one that was loaded. -/
  loadResumePoint : String → ω → ω × Option ResumePoint
  markFailed : Option (Failure → Callback ω ε)
  markCompleted : Option (String → Callback ω ε)

structure Config (ω ε : Type) where
  name : String
  steps : List (Step ω ε)
  stateStore : Option (Store ω ε)
  /-- What `(e && e.message) || String(e)` throws, if it does. -/
  reason : ε → Except ε Unit
  /-- The same behind a text. -/
  text : ε → Except ε String
  truthy : ε → Bool

/-- What the `catch` of a step catches: `ckptErr` with its message, or what was thrown. -/
inductive StepError (ε : Type) where
  | thrown (e : ε)
  | checkpointFailed (message : String) (cause : ε)

inductive SagaError (ε : Type) where
  | noStateStore
  | badSagaId
  | notFound
  | notResumable
  | failed (detail : String) (cause : StepError ε) (compensationCause : Option ε)
      (failedStep : String) (failedCompStepName : Option String)
  /-- What evaluating a text threw. -/
  | other (e : ε)

inductive Event where
  | run (index : Nat) (ok : Bool)
  | saveStep (index : Nat) (ok : Bool)
  | compensate (index : Nat) (ok : Bool)
  | markFailed (index : Nat)
  | markCompleted
  deriving DecidableEq

structure Outcome (ω ε : Type) where
  log : List Event
  world : ω
  result : Except (SagaError ε) Unit

variable {ω ε : Type}

/-- A step with its index, as `completedSteps` holds it. -/
abbrev Completed (ω ε : Type) := Step ω ε × Nat

/-- `ckptErr`, or what making it throws. -/
def Config.checkpointError (config : Config ω ε) (stepName : String) (storeErr : ε) :
    StepError ε :=
  match (do config.reason storeErr; config.text storeErr) with
  | .error e => .thrown e
  | .ok text => .checkpointFailed ("saga '" ++ config.name ++ "' checkpoint after step '" ++
      stepName ++ "' failed: " ++ text) storeErr

def Config.reasonOf (config : Config ω ε) : StepError ε → Except ε Unit
  | .thrown e => config.reason e
  | .checkpointFailed _ _ => .ok ()

def Config.textOf (config : Config ω ε) : StepError ε → Except ε String
  | .thrown e => config.text e
  | .checkpointFailed message _ => .ok message

/-- The loop over the compensators, the last completed step in front: the calls, the world
after them, and the step whose compensator threw with what it threw. -/
def compensateAll : List (Completed ω ε) → ω → List Event × ω × Option (String × ε)
  | [], w => ([], w, none)
  | (step, index) :: rest, w =>
      match step.compensate with
      | none => compensateAll rest w
      | some compensate =>
          match compensate w with
          | (w, some e) => ([.compensate index false], w, some (step.name, e))
          | (w, none) =>
              let (log, w, failed) := compensateAll rest w
              (.compensate index true :: log, w, failed)

def markFailed (config : Config ω ε) (failure : Failure) (w : ω) : List Event × ω :=
  match config.stateStore.bind Store.markFailed with
  | none => ([], w)
  | some mark => ([.markFailed failure.stepIndex], (mark failure w).1)

/-- `detailMsg`. -/
def Config.detail (config : Config ω ε) (stepName : String) (error : StepError ε)
    (failed : Option (String × ε)) : Except ε String := do
  let text ← config.textOf error
  let detail := "saga '" ++ config.name ++ "' failed at step '" ++ stepName ++ "': " ++ text
  match failed with
  | none => pure detail
  | some (compStepName, e) =>
      if config.truthy e ∧ compStepName ≠ "" then do
        let text ← config.text e
        pure (detail ++ " — and compensation of step '" ++ compStepName ++
          "' subsequently failed: " ++ text)
      else pure detail

/-- The error that is thrown at the end of the `catch`. -/
def Config.sagaErr (config : Config ω ε) (stepName : String) (error : StepError ε)
    (failed : Option (String × ε)) : SagaError ε :=
  match config.detail stepName error failed with
  | .error e => .other e
  | .ok detail => .failed detail error ((failed.map Prod.snd).filter config.truthy) stepName
      (failed.map Prod.fst)

/-- The `catch` of a step: `completed` has the last completed step in front. -/
def stepFailed (config : Config ω ε) (sagaId : String) (step : Step ω ε) (index : Nat)
    (error : StepError ε) (completed : List (Completed ω ε)) (w : ω) : Outcome ω ε :=
  match config.reasonOf error with
  | .error e => ⟨[], w, .error (.other e)⟩
  | .ok () =>
      let (compensated, w, failed) := compensateAll completed w
      match failed.map fun f => config.reason f.2 with
      | some (.error e) => ⟨compensated, w, .error (.other e)⟩
      | _ =>
          let (marked, w) := markFailed config
            ⟨sagaId, config.name, step.name, index, failed.map Prod.fst⟩ w
          ⟨compensated ++ marked, w, .error (config.sagaErr step.name error failed)⟩

def Outcome.after (log : List Event) (o : Outcome ω ε) : Outcome ω ε :=
  { o with log := log ++ o.log }

/-- The body of the loop up to the checkpoint: the calls, the world, whether the step
completed, and why it failed. -/
def runStep (config : Config ω ε) (sagaId : String) (step : Step ω ε) (index : Nat) (w : ω) :
    List Event × ω × Bool × Option (StepError ε) :=
  match step.run w with
  | (w, some e) => ([.run index false], w, false, some (.thrown e))
  | (w, none) =>
      match config.stateStore with
      | none => ([.run index true], w, true, none)
      | some store =>
          match store.saveStep ⟨sagaId, config.name, index, step.name, index + 1⟩ w with
          | (w, some e) =>
              ([.run index true, .saveStep index false], w, true,
                some (config.checkpointError step.name e))
          | (w, none) => ([.run index true, .saveStep index true], w, true, none)

/-- The loop over the steps that are left, from an index on. -/
def runSteps (config : Config ω ε) (sagaId : String) :
    List (Step ω ε) → Nat → List (Completed ω ε) → ω → Outcome ω ε
  | [], _, _, w =>
      match config.stateStore.bind Store.markCompleted with
      | none => ⟨[], w, .ok ()⟩
      | some mark => ⟨[.markCompleted], (mark sagaId w).1, .ok ()⟩
  | step :: rest, index, completed, w =>
      let (log, w, done, error) := runStep config sagaId step index w
      let completed := if done then (step, index) :: completed else completed
      match error with
      | some error => (stepFailed config sagaId step index error completed w).after log
      | none => (runSteps config sagaId rest (index + 1) completed w).after log

/-- `_runFrom`. -/
def runFrom (config : Config ω ε) (sagaId : String) (startIndex : Nat) (w : ω) : Outcome ω ε :=
  runSteps config sagaId (config.steps.drop startIndex) startIndex
    (config.steps.take startIndex).zipIdx.reverse w

/-- `_run`. -/
def run (config : Config ω ε) (sagaId : String) (w : ω) : Outcome ω ε := runFrom config sagaId 0 w

/-- `_resume`. -/
def resume (config : Config ω ε) (sagaId : String) (w : ω) : Outcome ω ε :=
  match config.stateStore with
  | none => ⟨[], w, .error .noStateStore⟩
  | some store =>
      if sagaId = "" then ⟨[], w, .error .badSagaId⟩
      else match store.loadResumePoint sagaId w with
        | (w, none) => ⟨[], w, .error .notFound⟩
        | (w, some point) =>
            if point.terminal then ⟨[], w, .error .notResumable⟩
            else runFrom config sagaId point.stepIndex w

end Blamejs.AgentSaga
