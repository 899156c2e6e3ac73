/-
# The evaluator and the webhooks as a transition system

Any number of tasks, each a request handler of the server or one of the
concurrent activities of an evaluator process (`crates/evaluator/src/eval_loop.rs`,
`evaluation_state.rs`), over one database, one repository per project and a
clock. A task stands at a `Phase`: the place in the code of its next
statement. `Phase.move` is the code: the statement or transaction issued
there and where the task is after it; the tasks interleave between any two of
them.

The transaction that records an evaluation's results holds the lock on the
evaluation's row from `lock_running` to its commit. A statement that selects a
locked row waits: it is not enabled. Everything else outside the model
(operators, the forge, the queue runner's work on builds, time, errors and
crashes) is an action that may happen at any point. So a finished one-shot
jobset is disabled by a `configure`, as is what a repository's own
configuration changes.
-/
import Circus.Evaluator.Builds
import Circus.Evaluator.Git
import Circus.Lts

namespace Circus.Evaluator

open Webhooks

structure Config where
  /-- `git_timeout + nix_timeout` and the slack of the sweep. -/
  deadlineSecs : Time
  /-- `compute_inputs_hash`, with the inputs of a jobset. -/
  computeInputsHash : Uuid → String → String
  /-- Commits do not collide. -/
  inputsHash_injective : ∀ jobsetId, Function.Injective (computeInputsHash jobsetId)

/-! ### Tasks -/

/-- Who called `evaluate_pending_eval`, or `evaluate_single_ref`. -/
inductive Flow
  | drain
  | refs (jobset : JobsetRow) (rest : List DiscoveredRef)
  | single

/-- The transaction of `create_builds_from_eval`: what it has written so far. -/
structure Attempt where
  id : Uuid
  jobs : List NixJob
  /-- Build rows inserted. -/
  inserted : ℕ := 0
  /-- Dependency rows inserted. -/
  linked : ℕ := 0
  /-- The evaluation is finished. -/
  finished : Bool := false

/-- Where a task is. -/
inductive Phase
  | idle
  /-- In the loop of a webhook handler. -/
  | triggering (requests : List Request)
  /-- `evaluate_jobset`, before `has_unfinished_work`. -/
  | polling (jobset : JobsetRow)
  /-- Before the git operation of `evaluate_single_ref` or `evaluate_matching_refs`. -/
  | fetching (jobset : JobsetRow)
  /-- Before `get_by_inputs_hash`. -/
  | fetched (jobset : JobsetRow) (commit : String)
  /-- `create_or_claim_evaluation`, before the creation. -/
  | creating (jobset : JobsetRow) (commit : String)
  /-- Before `get_by_jobset_and_commit`. -/
  | conflicted (jobset : JobsetRow) (commit : String)
  /-- `claim_existing`, on the copy it was called with. -/
  | claiming (existing : EvaluationRow)
  /-- `claim_existing`, after the restart. -/
  | restarted (id : Uuid)
  /-- `claim_existing`, after it has counted no builds. -/
  | rerunning (id : Uuid)
  /-- In the loop of `evaluate_matching_refs`. -/
  | enqueuing (jobset : JobsetRow) (refs : List DiscoveredRef)
  /-- `run_cycle`, at a pending evaluation the trigger mode rules out. -/
  | rejecting (id : Uuid)
  /-- `evaluate_pending_eval`, before the claim. -/
  | listed (flow : Flow) (id : Uuid)
  /-- `evaluate_pending_eval`, at the checkout. -/
  | claimed (flow : Flow) (e : EvaluationRow)
  /-- Before `set_inputs_hash`. -/
  | hashing (flow : Flow) (e : EvaluationRow)
  /-- In `run_path_filtered_evaluation`. -/
  | evaluating (flow : Flow) (id : Uuid)
  /-- In the transaction of `create_builds_from_eval`. -/
  | recording (flow : Flow) (attempt : Attempt)
  /-- `run_cycle`, before `finish_running` with the error of a pending evaluation. -/
  | failing (id : Uuid) (message : String)

inductive TaskEvent
  /-- Its next statement goes through. -/
  | next
  /-- Its next statement, or the work before it, fails. -/
  | error (message : String)
  /-- Its process dies. -/
  | crash
  /-- The path filter: no configured path has changed. -/
  | skip
  /-- Nix fails or runs out of time. -/
  | failed (timedOut : Bool) (message : String)
  /-- Nix returns these jobs, expanded; systems outside `allowed` are dropped. -/
  | evaluated (jobs : List NixJob) (allowed : Option (List String))

/-- What a task does at one point of its code, and where it is after it. -/
inductive Move
  /-- An `UPDATE evaluations`, with the row it returns. -/
  | statement (q : Statement) (next : Option EvaluationRow → Phase)
  /-- The creation of an evaluation. -/
  | request (r : Request) (next : Except CiError EvaluationRow → Phase)
  /-- `restart`; whether it returned a row. -/
  | restart (id : Uuid) (next : Bool → Phase)
  /-- The start of the result transaction: `lock_running`. -/
  | lockRunning (id : Uuid) (next : Bool → Phase)
  /-- The commit of the result transaction. -/
  | commit (id : Uuid) (jobs : List NixJob) (next : Phase)
  /-- A fetch of the project's repository. -/
  | fetch (projectId : Uuid) (next : Repo → Phase)
  /-- A query. -/
  | read (next : Db → Phase)

/-- Where the caller goes on. -/
def Flow.next : Flow → Phase
  | drain | single => .idle
  | refs jobset rest => .enqueuing jobset rest

/-- The call of `create_or_claim_evaluation`. -/
def pollRequest (jobset : JobsetRow) (commit : String) : Request :=
  if jobset.triggerMode = .interval then .createInterval { jobsetId := jobset.id, commitHash := commit }
  else .createRunningSourceChange { jobsetId := jobset.id, commitHash := commit }
    (branchScope (jobset.branch.getD "HEAD"))

/-- The call of `evaluate_matching_refs`. -/
def refRequest (jobset : JobsetRow) (r : DiscoveredRef) : Request :=
  match r.kind with
  | .branch => .enqueueSource { jobsetId := jobset.id, commitHash := r.commitHash, prHeadBranch := some r.name }
      (branchScope r.name) .unchecked
  | .tag => .enqueueSource
      { jobsetId := jobset.id, commitHash := r.commitHash, prAction := some ("tag:" ++ r.name) } "tags" .unchecked

/-- The message of `run_cycle` for a pending evaluation it rules out. -/
def rejectedMessage : String :=
  "jobset trigger_mode is interval; source/manual pending evaluations are disabled"

def acceptsPendingEvaluation (triggerMode : JobsetTriggerMode) (triggerKind : EvaluationTriggerKind) : Bool :=
  triggerMode.acceptsSourceTriggers || decide (triggerKind = .interval)

def matchingRefs (jobset : JobsetRow) (repo : Repo) : List DiscoveredRef :=
  let refs := repo.listMatchingRefs jobset.branchPattern jobset.tagPattern
  if jobset.onlyBuildLatest then retainNewestTag refs else refs

/-- `try_claim_pending`: the claimed row is evaluated, else somebody else has it. -/
def claimPending (id : Uuid) (claimed : EvaluationRow → Phase) (skipped : Phase) : Move :=
  .statement (.tryClaimPending id) fun
    | some e => claimed e
    | none => skipped

/-- The status of an evaluation whose Nix run has failed. -/
def failureStatus (timedOut : Bool) : EvaluationStatus := if timedOut then .timedOut else .failed

theorem isActive_failureStatus (timedOut : Bool) : (failureStatus timedOut).isActive = false := by
  cases timedOut <;> rfl

theorem failureStatus_ne_cancelled (timedOut : Bool) : failureStatus timedOut ≠ .cancelled := by
  cases timedOut <;> simp [failureStatus]

/-- Where an error leads. The loops of the webhook handlers go on, an inputs
hash that cannot be looked up counts as new and one that cannot be set stays
unset, and `run_cycle` writes down what failed for a pending evaluation. -/
def Phase.onError (message : String) : Phase → Phase
  | triggering requests => .triggering requests.tail
  | fetched jobset commit => .creating jobset commit
  | hashing flow e => .evaluating flow e.id
  | listed .drain id => .failing id message
  | claimed .drain e => .failing e.id message
  | evaluating .drain id => .failing id message
  | recording .drain attempt => .failing attempt.id message
  | _ => .idle

/-- The code of a task. -/
def Phase.move (cfg : Config) : Phase → TaskEvent → Option Move
  | idle, _ => none
  | p, .error message => some (.read fun _ => p.onError message)
  | _, .crash => some (.read fun _ => .idle)
  | triggering [], .next => some (.read fun _ => .idle)
  | triggering (r :: requests), .next => some (.request r fun _ => .triggering requests)
  | polling jobset, .next => some (.read fun db =>
      if jobset.triggerMode = .interval ∧ db.hasUnfinishedWork jobset.id = true then .idle else .fetching jobset)
  | fetching jobset, .next => some (.fetch jobset.projectId fun repo =>
      if jobset.branchPattern.isSome ∨ jobset.tagPattern.isSome then .enqueuing jobset (matchingRefs jobset repo)
      else
        match repo.cloneOrFetch jobset.branch with
        | some commit => .fetched jobset commit
        | none => .idle)
  | fetched jobset commit, .next => some (.read fun db =>
      if jobset.triggerMode = .sourceChange ∧
        db.hasInputsHash jobset.id (cfg.computeInputsHash jobset.id commit) = true then .idle
      else .creating jobset commit)
  | creating jobset commit, .next => some (.request (pollRequest jobset commit) fun
      | .ok e => .hashing .single e
      | .error (.conflict _) => .conflicted jobset commit
      | .error _ => .idle)
  | conflicted jobset commit, .next => some (.read fun db =>
      match db.getByJobsetAndCommit jobset.id commit with
      | some existing => .claiming existing
      | none => .idle)
  | claiming existing, .next =>
    match existing.status with
    | .pending => some (claimPending existing.id (.hashing .single) .idle)
    | .failed | .timedOut => some (.restart existing.id fun done => if done then .restarted existing.id else .idle)
    | .completed => some (.read fun db =>
        if 0 < (db.buildsOf existing.id).length then .idle else .rerunning existing.id)
    | .running | .cancelled => some (.read fun _ => .idle)
  | restarted id, .next => some (claimPending id (.hashing .single) .idle)
  | rerunning id, .next => some (.statement (.updateStatus id .running none) fun
      | some e => .hashing .single e
      | none => .idle)
  | enqueuing _ [], .next => some (.read fun _ => .idle)
  | enqueuing jobset (r :: refs), .next => some (.request (refRequest jobset r) fun
      | .ok e => .listed (.refs jobset refs) e.id
      | .error (.conflict _) => .enqueuing jobset refs
      | .error _ => .idle)
  | rejecting id, .next => some (.statement (.updateStatus id .failed (some rejectedMessage)) fun _ => .idle)
  | listed flow id, .next => some (claimPending id (.claimed flow) flow.next)
  | claimed flow e, .next => some (.read fun db =>
      if (db.evaluations.get e.id).any fun e => decide (e.status = .cancelled) then flow.next else .hashing flow e)
  | hashing flow e, .next => some (.statement (.setInputsHash e.id (cfg.computeInputsHash e.jobsetId e.commitHash))
      fun _ => .evaluating flow e.id)
  | evaluating flow id, .skip => some (.statement (.finishRunning id .completed none) fun _ => flow.next)
  | evaluating flow id, .failed timedOut message => some (.statement
      (.finishRunning id (failureStatus timedOut) (some message)) fun _ => flow.next)
  | evaluating flow id, .evaluated jobs allowed => some (.lockRunning id fun running =>
      if running then .recording flow { id := id, jobs := jobs.filter fun j => systemAllowed j.system allowed }
      else flow.next)
  | recording flow a, .next =>
    if a.inserted < a.jobs.length then some (.read fun _ => .recording flow { a with inserted := a.inserted + 1 })
    else if a.linked < (resolveDependencyPairs a.jobs (List.range a.jobs.length)).length then
      some (.read fun _ => .recording flow { a with linked := a.linked + 1 })
    else if a.finished then some (.commit a.id a.jobs flow.next)
    else some (.read fun db =>
      if (db.evaluations.get a.id).any fun e => decide (e.status = .running) then
        .recording flow { a with finished := true }
      else (Phase.recording flow a).onError
        ("evaluation " ++ toString a.id ++ " lost its running state while locked"))
  | failing id message, .next => some (.statement (.finishRunning id .failed (some message)) fun _ => .idle)
  | _, _ => none

/-! ### The system -/

/-- What a forge sends. -/
inductive Delivery
  | push (projectId : Uuid) (payload : PushPayload)
  | change (c : ChangeRequestEvaluation)
  deriving DecidableEq

/-- The transactions the handler of a delivery will run. -/
def Delivery.requests (db : Db) : Delivery → List Request
  | push projectId payload => (handlePush projectId payload).elim [] fun p => pushRequests p db
  | change c => changeRequests c db

structure State where
  db : Db
  now : Time := 0
  repos : Uuid → Repo := fun _ => {}
  /-- What the forges have sent so far, oldest first. -/
  sent : List Delivery := []
  tasks : AList fun _ : ℕ => Phase := ∅

namespace State

def phase (s : State) (t : ℕ) : Phase := (s.tasks.lookup t).getD .idle

/-- Task `t` goes on at `p`. -/
def goto (s : State) (t : ℕ) (p : Phase) : State := { s with tasks := s.tasks.insert t p }

end State

/-- The task holds the lock on the row of evaluation `id`. -/
def Phase.locks (id : Uuid) : Phase → Bool
  | recording _ attempt => decide (attempt.id = id)
  | _ => false

namespace State

/-- Some task holds the lock on the row of evaluation `id`. -/
def locked (s : State) (id : Uuid) : Bool := s.tasks.entries.any fun x => x.2.locks id

/-- A statement that selects the rows `p` has to wait for a lock. -/
def waits (s : State) (p : EvaluationRow → Bool) : Bool := s.db.evaluations.rows.any fun e => p e && s.locked e.id

/-- The statement, once no row it selects is locked. -/
def issue (s : State) (q : Statement) : Option State :=
  if s.waits fun e => q.selects s.now e then none else some { s with db := q.run s.now s.db }

end State

def Statement.returning (now : Time) (q : Statement) (db : Db) : Option EvaluationRow :=
  (db.evaluations.rows.find? fun e => q.selects now e).map fun e => q.set now e

/-- Task `t` makes the move. -/
def State.perform (s : State) (t : ℕ) : Move → Option State
  | .statement q next => (s.issue q).map fun s' => s'.goto t (next (q.returning s.now s.db))
  | .request r next =>
    match r.run s.now s.db with
    | .error e => some (s.goto t (next (.error e)))
    | .ok (e, db) =>
      if s.waits (r.supersedes s.db) then none else some ({ s with db := db }.goto t (next (.ok e)))
  | .restart id next =>
    match s.db.restart s.now id with
    | none => some (s.goto t (next false))
    | some db => some ({ s with db := db }.goto t (next true))
  | .lockRunning id next =>
    if (s.db.evaluations.get id).any fun e => decide (e.status = .running) then
      if s.locked id then none else some (s.goto t (next true))
    else some (s.goto t (next false))
  | .commit id jobs next => some ({ s with db := s.db.record s.now id jobs }.goto t next)
  | .fetch projectId next =>
    let repo := (s.repos projectId).fetchAllRefs
    some ({ s with repos := Function.update s.repos projectId repo }.goto t (next repo))
  | .read next => some (s.goto t (next s.db))

inductive Action
  | tick (secs : Time)
  /-- A jobset is created or reconfigured. -/
  | configure (jobset : JobsetRow)
  /-- The queue runner or an operator changes the status of a build. -/
  | report (buildId : Uuid) (status : BuildStatus)
  /-- Somebody moves or deletes a branch. -/
  | gitPush (projectId : Uuid) (branch : String) (commit : Option String)
  /-- Somebody pushes a tag. -/
  | gitTag (projectId : Uuid) (name commit : String) (time : ℤ)
  /-- A change request is opened or updated; its head is tracked as `name`. -/
  | change (name : String) (c : ChangeRequestEvaluation)
  /-- Delivery `k` reaches the server, where task `t` handles it. -/
  | deliver (t k : ℕ)
  /-- An operator cancels an evaluation. -/
  | cancel (id : Uuid)
  /-- An operator restarts an evaluation. -/
  | restart (id : Uuid)
  /-- `sweep_orphaned`, at the start of a cycle. -/
  | sweep
  /-- A cycle takes up an active jobset, as task `t`. -/
  | poll (t : ℕ) (jobsetId : Uuid)
  /-- A cycle takes up a pending evaluation, as task `t`. -/
  | drain (t : ℕ) (id : Uuid)
  | task (t : ℕ) (event : TaskEvent)

/-- The tip of a branch at the forge. -/
def State.tip (s : State) (projectId : Uuid) (branch : String) : Option String :=
  (s.repos projectId).branches.lookup branch

/-- A branch moves, and the forge sends a push. -/
def State.gitPush (s : State) (projectId : Uuid) (branch : String) (commit : Option String) : Option State :=
  let r := s.repos projectId
  if commit = s.tip projectId branch ∨ commit.any isDeletedCommit = true then none
  else some { s with
    repos := Function.update s.repos projectId
      { r with branches := commit.elim (r.branches.erase branch) fun c => r.branches.insert branch c }
    sent := s.sent ++
      [.push projectId (branchPush branch ((s.tip projectId branch).getD zeroCommit) (commit.getD zeroCommit))] }

def step (cfg : Config) (s : State) : Action → Option State
  | .tick secs => some { s with now := s.now + secs }
  | .configure jobset => some { s with db := s.db.configure jobset }
  | .report buildId status => some { s with
      db := s.db.updateBuilds (fun b => decide (b.id = buildId)) (fun b => { b with status := status }) fun _ => rfl }
  | .gitPush projectId branch commit => s.gitPush projectId branch commit
  | .gitTag projectId name commit time =>
    let r := s.repos projectId
    some { s with
      repos := Function.update s.repos projectId { r with tags := r.tags.insert name (commit, time) }
      sent := s.sent ++ [.push projectId {
        gitRef := some ("refs/tags/" ++ name), before := some zeroCommit, after := some commit }] }
  | .change name c =>
    let r := s.repos c.projectId
    some { s with
      repos := Function.update s.repos c.projectId { r with requests := r.requests.insert name c.commit }
      sent := s.sent ++ [.change c] }
  | .deliver t k =>
    match s.phase t, s.sent[k]? with
    | .idle, some d => some (s.goto t (.triggering (d.requests s.db)))
    | _, _ => none
  | .cancel id => s.issue (.cancel id)
  | .restart id => some { s with db := (s.db.restart s.now id).getD s.db }
  | .sweep => s.issue (.sweepOrphaned cfg.deadlineSecs)
  | .poll t jobsetId =>
    match s.phase t, (s.db.jobsets.get jobsetId).filter JobsetRow.active with
    | .idle, some jobset => some (s.goto t (.polling jobset))
    | _, _ => none
  | .drain t id =>
    match s.phase t, s.db.evaluations.get id with
    | .idle, some e =>
      match (s.db.jobsets.get e.jobsetId).filter JobsetRow.active with
      | some jobset =>
        if e.status ≠ .pending then none
        else if acceptsPendingEvaluation jobset.triggerMode e.triggerKind then some (s.goto t (.listed .drain id))
        else some (s.goto t (.rejecting id))
      | none => none
    | _, _ => none
  | .task t event => ((s.phase t).move cfg event).bind (s.perform t)

/-! ### A small instance -/

/-- Commits hash to themselves, and a run is orphaned after ten seconds. -/
def small : Config := ⟨10, fun _ commit => commit, fun _ _ _ h => h⟩

/-- A jobset that follows `main`, latest only. -/
def mainJobset : JobsetRow := { id := 0, branch := some "main", onlyBuildLatest := true }

def withJobset (jobset : JobsetRow) : State := { db := .ofJobsets [jobset] (List.nodup_singleton _) }

/-- Task `t` goes through `n` statements. -/
def nexts (t n : ℕ) : List Action := List.replicate n (.task t .next)

abbrev exec (cfg : Config) := Lts.exec (step cfg)

abbrev Along (cfg : Config) := Lts.Along (step cfg)

end Circus.Evaluator
