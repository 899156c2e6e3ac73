/-
# The rows the queue runner works on

The data model of `crates/common/src/models.rs`, as far as the scheduling
queries and the queue runner read it. A row of `builds` is a `Build`; the
columns no statement ever changes are its `Job`, so "keeps the job" is all
that has to be known of an update to follow a build through a run.

Timestamps are numbers of seconds. A `Uuid` is a number: only equality, and
the final tie-break of the pending order, look at it.
-/
import Mathlib

namespace Circus

abbrev Uuid := ℕ

abbrev Time := ℕ

inductive BuildStatus
  | pending
  | running
  | succeeded
  | failed
  | dependencyFailed
  | aborted
  | cancelled
  | failedWithOutput
  | timeout
  | cachedFailure
  | unsupportedSystem
  | logLimitExceeded
  | narSizeLimitExceeded
  | nonDeterministic
  | oomKilled
  deriving DecidableEq, Repr

namespace BuildStatus

/-- The build has completed: it is neither pending nor running. -/
def isFinished : BuildStatus → Bool
  | pending | running => false
  | _ => true

/-- A cached failure is still a failure. -/
def isSuccess : BuildStatus → Bool
  | succeeded => true
  | _ => false

/-- A Hydra-compatible exit code as a status. -/
def fromExitCode : ℤ → BuildStatus
  | 0 => succeeded
  | 2 => dependencyFailed
  | 3 | 5 => aborted
  | 4 => cancelled
  | 6 => failedWithOutput
  | 7 => timeout
  | 8 => cachedFailure
  | 9 => unsupportedSystem
  | 10 => logLimitExceeded
  | 11 => narSizeLimitExceeded
  | 12 => nonDeterministic
  | -9 => oomKilled
  | _ => failed

/-- No exit code puts a build back into the queue. -/
theorem isFinished_fromExitCode (c : ℤ) : (fromExitCode c).isFinished = true := by
  unfold fromExitCode
  split <;> rfl

theorem isFinished_iff {st : BuildStatus} : st.isFinished = true ↔ st ≠ pending ∧ st ≠ running := by
  cases st <;> simp [isFinished]

theorem isSuccess_iff {st : BuildStatus} : st.isSuccess = true ↔ st = succeeded := by
  cases st <;> simp [isSuccess]

end BuildStatus

inductive EvaluationTriggerKind
  | sourceChange
  | manual
  | interval
  deriving DecidableEq, Repr

inductive EvaluationStatus
  | pending
  | running
  | completed
  | failed
  | cancelled
  | timedOut
  deriving DecidableEq, Repr

/-- `models::JobsetState`. With `oneAtATime` only one build of the jobset is
meant to run at a time. -/
inductive JobsetState
  | disabled
  | enabled
  | oneShot
  | oneAtATime
  deriving DecidableEq, Repr

structure Jobset where
  id : Uuid
  schedulingShares : ℤ := 100
  state : JobsetState := .enabled
  deriving DecidableEq, Repr

structure Evaluation where
  id : Uuid
  jobsetId : Uuid
  evaluationTime : Time := 0
  status : EvaluationStatus := .completed
  triggerKind : EvaluationTriggerKind := .sourceChange
  sourceScope : Option String := none
  deriving DecidableEq, Repr

structure Channel where
  id : Uuid
  jobsetId : Uuid
  currentEvaluationId : Option Uuid := none
  updatedAt : Time := 0
  deriving DecidableEq, Repr

structure FailedPath where
  drvPath : String
  sourceBuildId : Uuid
  failureStatus : BuildStatus
  failedAt : Time
  deriving DecidableEq, Repr

/-- The columns of `builds` that are written once, when the row is created. -/
structure Job where
  id : Uuid
  evaluationId : Uuid
  drvPath : String
  system : Option String := none
  maxRetries : ℕ := 3
  createdAt : Time := 0
  isAggregate : Bool := false
  isFod : Bool := false
  requiredFeatures : List String := []
  deriving DecidableEq, Repr

structure Build extends Job where
  status : BuildStatus := .pending
  startedAt : Option Time := none
  completedAt : Option Time := none
  logPath : Option String := none
  buildOutputPath : Option String := none
  errorMessage : Option String := none
  priority : ℤ := 0
  retryCount : ℕ := 0
  effectiveFeatures : Option (List String) := none
  deriving DecidableEq, Repr

/-- The effective features, else the job's own `required_features`. -/
def Build.schedulingFeatures (b : Build) : List String := b.effectiveFeatures.getD b.requiredFeatures

end Circus
