/-
# Jobsets and evaluations

The rows of `jobsets` and `evaluations` with the columns the evaluator and the
webhook handlers read, and the `UPDATE evaluations` statements of
`queries/evaluations.sql` as functions on rows. What a statement may not
change is the row's `identity`: its id, what it was created for, and whether
it is an interval evaluation. A restart does change the trigger kind, from
`source_change` to `manual`, but neither of the two is `interval`.
-/
import Circus.Models

namespace Circus

inductive JobsetTriggerMode
  | sourceChange
  | interval
  deriving DecidableEq, Repr

def JobsetTriggerMode.acceptsSourceTriggers (m : JobsetTriggerMode) : Bool := decide (m = .sourceChange)

structure JobsetRow extends Jobset where
  projectId : Uuid := 0
  enabled : Bool := true
  triggerMode : JobsetTriggerMode := .sourceChange
  branch : Option String := none
  branchPattern : Option String := none
  tagPattern : Option String := none
  onlyBuildLatest : Bool := false
  deriving DecidableEq, Repr

namespace JobsetRow

def active (j : JobsetRow) : Bool :=
  decide (j.state = .enabled ∨ j.state = .oneShot ∨ j.state = .oneAtATime) && j.enabled

/-- The part of `restart_requeue`'s `WHERE` on the jobset. -/
def restartable (j : JobsetRow) : Bool :=
  decide (j.state = .oneShot) || j.enabled && decide (j.state = .enabled ∨ j.state = .oneAtATime)

def reenableOneShot (j : JobsetRow) : JobsetRow := if j.state = .oneShot then { j with enabled := true } else j

end JobsetRow

structure CreateEvaluation where
  jobsetId : Uuid
  commitHash : String
  prNumber : Option ℤ := none
  prHeadBranch : Option String := none
  prBaseBranch : Option String := none
  prAction : Option String := none
  deriving DecidableEq, Repr

def EvaluationStatus.isActive (st : EvaluationStatus) : Bool := decide (st = .pending ∨ st = .running)

theorem EvaluationStatus.isActive_iff {st : EvaluationStatus} :
    st.isActive = true ↔ st = .pending ∨ st = .running := decide_eq_true_iff

structure EvaluationRow extends Evaluation, CreateEvaluation where
  errorMessage : Option String := none
  inputsHash : Option String := none
  supersededBy : Option Uuid := none
  sourceBaseCommit : Option String := none
  startedAt : Option Time := none
  orphanedCount : ℕ := 0
  deriving DecidableEq, Repr

namespace EvaluationRow

/-- What no statement changes: the id, the columns of `CreateEvaluation`, and
on which side of the unique index the row is. -/
def identity (e : EvaluationRow) : Uuid × CreateEvaluation × Bool :=
  (e.id, e.toCreateEvaluation, decide (e.triggerKind = .interval))

variable {e e' : EvaluationRow}

theorem id_of_identity (h : e.identity = e'.identity) : e.id = e'.id :=
  congrArg Prod.fst h

theorem jobsetId_of_identity (h : e.identity = e'.identity) : e.jobsetId = e'.jobsetId :=
  congrArg (fun i => i.2.1.jobsetId) h

theorem commitHash_of_identity (h : e.identity = e'.identity) :
    e.commitHash = e'.commitHash :=
  congrArg (fun i => i.2.1.commitHash) h

theorem interval_of_identity (h : e.identity = e'.identity) :
    e.triggerKind = .interval ↔ e'.triggerKind = .interval :=
  decide_eq_decide.mp (congrArg (fun i => i.2.2) h)

/-- The row of `create_with_kind`. -/
def create (id : Uuid) (now : Time) (input : CreateEvaluation) (kind : EvaluationTriggerKind)
    (status : EvaluationStatus) (sourceScope sourceBaseCommit : Option String) : EvaluationRow where
  id := id
  toCreateEvaluation := input
  evaluationTime := now
  status := status
  triggerKind := kind
  startedAt := if status = .running then some now else none
  sourceScope := sourceScope
  sourceBaseCommit := sourceBaseCommit

/-- The `SET` of `try_claim_pending`. -/
def claim (now : Time) (e : EvaluationRow) : EvaluationRow :=
  { e with status := .running, startedAt := some now }

/-- The `SET` of `update_status` and of `finish_running`. -/
def setStatus (status : EvaluationStatus) (errorMessage : Option String) (e : EvaluationRow) : EvaluationRow :=
  { e with status := status, errorMessage := errorMessage }

def setInputsHash (inputsHash : String) (e : EvaluationRow) : EvaluationRow :=
  { e with inputsHash := some inputsHash }

/-- The `WHERE` of `sweep_orphaned`: running, since before the deadline. -/
def orphaned (now deadlineSecs : Time) (e : EvaluationRow) : Bool :=
  decide (e.status = .running ∧ e.startedAt.getD e.evaluationTime + deadlineSecs < now)

/-- The error message of the third orphaning. -/
def givingUp : String := "evaluation orphaned repeatedly, giving up"

def sweepOrphaned (now : Time) (e : EvaluationRow) : EvaluationRow :=
  { e with
    status := if 2 ≤ e.orphanedCount then .failed else .pending
    errorMessage := if 2 ≤ e.orphanedCount then some givingUp else none
    orphanedCount := e.orphanedCount + 1
    startedAt := none
    inputsHash := none
    evaluationTime := now }

/-- The row is an automated evaluation of this stream. -/
def InScope (jobsetId : Uuid) (sourceScope : String) (e : EvaluationRow) : Prop :=
  e.jobsetId = jobsetId ∧ e.triggerKind = .sourceChange ∧ e.sourceScope = some sourceScope

instance (jobsetId : Uuid) (sourceScope : String) (e : EvaluationRow) : Decidable (e.InScope jobsetId sourceScope) :=
  inferInstanceAs (Decidable (_ ∧ _ ∧ _))

/-- The `SET` of `supersede_source_evaluations`. -/
def supersede (supersededBy : Uuid) (e : EvaluationRow) : EvaluationRow :=
  { e with
    status := if e.status.isActive then .cancelled else e.status
    errorMessage := if e.status.isActive then some ("superseded by evaluation " ++ toString supersededBy)
      else e.errorMessage
    supersededBy := some supersededBy }

/-- The part of `restart_requeue`'s `WHERE` on the evaluation. -/
def restartable (e : EvaluationRow) : Bool :=
  decide (e.status = .cancelled ∨ e.status = .failed ∨ e.status = .timedOut)

/-- The `SET` of `restart_requeue`. A restarted evaluation is a manual one, in
no stream. -/
def restartRequeue (now : Time) (e : EvaluationRow) : EvaluationRow :=
  { e with
    status := .pending
    evaluationTime := now
    errorMessage := none
    inputsHash := none
    startedAt := none
    orphanedCount := 0
    supersededBy := none
    triggerKind := if e.triggerKind = .sourceChange then .manual else e.triggerKind
    sourceScope := none
    sourceBaseCommit := none }

theorem identity_supersede (by' : Uuid) (e : EvaluationRow) : (e.supersede by').identity = e.identity := rfl

theorem identity_restartRequeue (now : Time) (e : EvaluationRow) : (e.restartRequeue now).identity = e.identity := by
  cases hk : e.triggerKind <;> simp [identity, restartRequeue, hk]

end EvaluationRow

end Circus
