/-
# Worker tasks

`WorkerPool::dispatch` and `run_build` of `crates/queue-runner/src/worker.rs`.
`dispatch` registers a fresh token under the build's id, whatever was there,
and spawns a task; the task computes effective features, reserves a venue,
claims the row with `start`, executes, reports with one of `requeue`, `retry`
and `complete`, and promotes channels when its evaluation has succeeded. When
it ends, by itself or because its token was cancelled, it removes the
registry's entry for its build id, whoever's token that is by then.
-/
import Circus.Runner.State

namespace Circus.Runner

/-- How the execution of a build ended. -/
inductive Outcome
  /-- the outputs, and those of them the cache upload failed for -/
  | success (logPath : Option String) (outputPaths uploadFailedPaths : List String)
  | failure (exitCode : Option ℤ) (stderr : String) (logPath : Option String)
  | error (msg : String)
  /-- no venue executed the build -/
  | noVenue

inductive TaskEvent
  /-- `ensure_effective_features`: what the dry run computed, if it worked,
  and whether the update of the row went through -/
  | features (computed : Option (List String)) (persisted : Bool)
  /-- `reserve_venue` returns -/
  | reserve (venue : Option Venue)
  /-- `builds::start`; the locks it asks for are to be had or not -/
  | claim (free : Bool)
  /-- the agent went away: fall back to the runner, or give the build back -/
  | agentLost
  | report (outcome : Outcome)
  /-- the next statement after the report -/
  | proceed
  /-- the next statement fails -/
  | error
  /-- `select!` takes the branch of the cancelled token -/
  | abort
  /-- `active_builds.remove(&build_id)`, the end of the task -/
  | remove

/-- `with_required_floor`: a sorted set. -/
def withRequiredFloor (computed required : List String) : List String :=
  ((computed ++ required).dedup).insertionSort (· ≤ ·)

def uploadFailureMessage (paths : List String) : String :=
  "Cache upload failed for " ++ toString paths.length ++ " path(s): " ++ ", ".intercalate paths

/-- The statement with which `run_build` reports an outcome, and where it goes
on. The retry decision reads the copy the build was dispatched with. -/
def report (cfg : Config) (now : Time) (b : Build) : Outcome → (Db → Db) × Phase
  | .success logPath outputPaths uploadFailedPaths =>
    if uploadFailedPaths ≠ [] ∧ cfg.failBuildOnUploadError = true then
      (Builds.complete now b.id .failed logPath none (some (uploadFailureMessage uploadFailedPaths)), .returning)
    else (Builds.complete now b.id .succeeded logPath outputPaths.head? none, .reloading)
  | .failure exitCode stderr logPath =>
    if b.retryCount < b.maxRetries then (Builds.retry b.id, .returning)
    else
      let failureStatus := exitCode.elim .failed BuildStatus.fromExitCode
      (Builds.complete now b.id failureStatus logPath none (some stderr), .cachingFailure failureStatus)
  | .error msg => (Builds.complete now b.id .failed none none (some msg), .reloading)
  | .noVenue => (Builds.requeue b.id, .returning)

/-- What an execution at venue `v` can end in: a failed process does not exit
with 0, and only the runner finds no venue. -/
def Outcome.possible (v : Option Venue) : Outcome → Bool
  | .failure exitCode _ _ => decide (exitCode ≠ some 0)
  | .noVenue => decide (v = some .runner)
  | _ => true

namespace State

/-- `run_build` is over: the venue is given back. -/
def finish (s : State) (t : ℕ) (task : Task) : State :=
  { s with permits := s.permits + task.permit }.setTask t { task with phase := .returned, venue := none }

def dispatch (s : State) (b : Build) : State :=
  if s.draining then s
  else { s with
    activeBuilds := s.activeBuilds.insert b.id s.nextTask
    tasks := s.tasks.insert s.nextTask { build := b }
    nextTask := s.nextTask + 1 }

/-- The next statement after the report. -/
def proceed (s : State) (t : ℕ) (task : Task) : Option State :=
  match task.phase with
  | .returning => some (s.finish t task)
  | .cachingFailure status =>
    some ({ s with db := FailedPathsCache.insert s.now task.build.drvPath status task.build.id s.db }.setTask t
      { task with phase := .reloading })
  | .reloading =>
    match s.db.status task.build.id with
    | some status =>
      if status.isFinished && status.isSuccess then some (s.setTask t { task with phase := .loadingEvaluation })
      else some (s.finish t task)
    | none => some (s.finish t task)
  | .loadingEvaluation =>
    match s.db.evaluationOf task.build with
    | some e => some (s.setTask t { task with phase := .promoteCount e.jobsetId e.id })
    | none => some (s.finish t task)
  | .promoteCount j e =>
    let counts := Channels.autoPromoteCount e s.db
    if counts.1 = 0 ∨ counts.1 ≠ counts.2 then some (s.finish t task)
    else some (s.setTask t { task with phase := .promoteChannels j e })
  | .promoteChannels j e =>
    some (s.setTask t { task with phase := .promoting e ((Channels.autoPromoteChannels j s.db).map (·.id)) })
  | .promoting e (c :: cs) =>
    some ({ s with db := Channels.promote s.now c e s.db }.setTask t { task with phase := .promoting e cs })
  | .promoting _ [] => some (s.finish t task)
  | _ => none

/-- The next statement fails. After a claim every error ends `run_build`,
except where it is logged and passed over. -/
def fail (s : State) (t : ℕ) (task : Task) : Option State :=
  match task.phase with
  | .features | .reserving | .returned => none
  | .cachingFailure _ => some (s.setTask t { task with phase := .reloading })
  | .promoting e (_ :: cs) => some (s.setTask t { task with phase := .promoting e cs })
  | _ => some (s.finish t task)

def taskStep (cfg : Config) (s : State) (t : ℕ) (task : Task) : TaskEvent → Option State
  | .features computed persisted =>
    if task.phase = .features then
      if task.build.effectiveFeatures.isSome then some (s.setTask t { task with phase := .reserving })
      else match computed with
        | none => some (s.setTask t { task with phase := .reserving })
        | some fs =>
          let features := withRequiredFloor fs task.build.requiredFeatures
          let db := if persisted then Builds.setEffectiveFeatures task.build.id features s.db else s.db
          some ({ s with db := db }.setTask t
            { task with phase := .reserving, build := task.build.setEffectiveFeatures features })
    else none
  | .reserve venue =>
    if task.phase = .reserving then
      match venue with
      | none => some (s.finish t task)
      | some .agent =>
        -- agents are keyed by system
        if task.build.system.isSome then some (s.setTask t { task with phase := .claiming, venue := some .agent })
        else none
      | some .runner =>
        if 0 < s.permits then
          some ({ s with permits := s.permits - 1 }.setTask t { task with phase := .claiming, venue := some .runner })
        else none
    else none
  | .claim free =>
    if task.phase = .claiming then
      let (claimed, db) := Builds.start free s.now task.build.id s.db
      if claimed.isSome then some ({ s with db := db }.setTask t { task with phase := .executing })
      else some (s.finish t task)
    else none
  | .agentLost =>
    if task.phase = .executing ∧ task.venue = some .agent then
      if 0 < s.permits then some ({ s with permits := s.permits - 1 }.setTask t { task with venue := some .runner })
      else some ({ s with db := Builds.requeue task.build.id s.db }.setTask t
        { task with phase := .returning, venue := none })
    else none
  | .report outcome =>
    if task.phase = .executing ∧ outcome.possible task.venue = true then
      let (statement, phase) := Runner.report cfg s.now task.build outcome
      some ({ s with db := statement s.db, permits := s.permits + task.permit }.setTask t
        { task with phase := phase, venue := none })
    else none
  | .proceed => s.proceed t task
  | .error => s.fail t task
  | .abort => if task.cancelled = true ∧ task.phase ≠ .returned then some (s.finish t task) else none
  | .remove =>
    if task.phase = .returned then
      some { s with activeBuilds := s.activeBuilds.erase task.build.id, tasks := s.tasks.erase t }
    else none

end State

end Circus.Runner
