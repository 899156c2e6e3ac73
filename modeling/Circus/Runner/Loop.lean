/-
# The scheduler loop

`runner_loop::run` of `crates/queue-runner/src/runner_loop.rs`: sweep the
orphans once a minute, list the pending builds, and take each of them
through the filters in order (aggregate, same derivation already built,
fixed output already valid, cached failure, dependencies, no builder for the
system, one build at a time) to `WorkerPool::dispatch`. A filter that settles
the build calls `mark_build_done`: `start`, its result ignored, then
`complete`.

Evaluations and jobsets do not change while a build waits, so their reads
are part of the step that uses them.
-/
import Circus.Runner.Worker

namespace Circus.Runner

/-- `dispatch::scheduler_capacity`: the limit of the listing. -/
def fetchLimit (cfg : Config) (env : LoopEnv) : ℕ := min (max (cfg.workers + env.freeSlots) 10) 512

/-- `dispatch::scheduler_capacity`: the fair-share denominator. -/
def schedulableCapacity (cfg : Config) (env : LoopEnv) : ℤ :=
  min (max (cfg.workers + env.totalSlots) 1) (2 ^ 31 - 1)

def isIntervalRebuild (db : Db) (b : Build) : Bool :=
  (db.evaluationOf b).any fun e => decide (e.triggerKind = .interval)

def cachedFailureCompletion : Completion where
  status := .cachedFailure
  errorMessage := some "Build skipped: derivation is in failed paths cache"
  finished := rfl

def unsupportedCompletion : Completion where
  status := .unsupportedSystem
  errorMessage := some "No builder available for system/features"
  finished := rfl

def firstFilter (intervalRebuild : Bool) (b : Build) : LoopPhase :=
  if b.isAggregate then .aggregate b
  else if intervalRebuild then .fod b true
  else .dedup b

/-- The filter after the fixed-output check. -/
def afterFod (cfg : Config) (intervalRebuild : Bool) (b : Build) : LoopPhase :=
  if !intervalRebuild && cfg.failedPathsCache then .cachedFailure b else .deps b

namespace State

/-- `reset_orphaned_builds` is over. The sweep at start-up does not move
`last_orphan_reset`. -/
def sweepDone (s : State) (atBoot : Bool) : State :=
  if atBoot then s.setPhase .top
  else { s with loop := { s.loop with phase := .list, lastOrphanReset := s.now } }

def loopStep (cfg : Config) (env : LoopEnv) (s : State) : Option State :=
  match s.loop.phase with
  | .boot =>
    some { s with loop := { s.loop with phase := .sweeping s.activeBuilds.keys true, lastOrphanReset := s.now } }
  | .top =>
    if s.loop.lastOrphanReset + 60 ≤ s.now then some (s.setPhase (.sweeping s.activeBuilds.keys false))
    else some (s.setPhase .list)
  | .sweeping activeIds atBoot =>
    some ({ s with db := Builds.resetOrphaned s.now 300 activeIds s.db }.sweepDone atBoot)
  | .list =>
    some { s with loop := { s.loop with
      phase := .next
      rest := Builds.listPending (fetchLimit cfg env) (schedulableCapacity cfg env) s.db
      fodOutputCache := [] } }
  | .next =>
    match s.loop.rest with
    | [] => some (s.setPhase .top)
    | b :: rest => some { s with loop := { s.loop with
        phase := firstFilter (isIntervalRebuild s.db b) b
        rest := rest } }
  | .aggregate b =>
    if BuildDependencies.allDepsCompleted b.id s.db then some (s.setPhase (.doneStart b (succeededBy none none)))
    else some (s.setPhase .next)
  | .dedup b =>
    match Builds.getCompletedByDrvPath env.pick b.drvPath s.db with
    | some existing =>
      if existing.id ≠ b.id then
        some (s.setPhase (.doneStart b (succeededBy existing.logPath existing.buildOutputPath)))
      else some (s.setPhase (.fod b false))
    | none => some (s.setPhase (.fod b false))
  | .fod b intervalRebuild =>
    if b.isFod && !intervalRebuild then
      -- one query a derivation and poll
      let output := (s.loop.fodOutputCache.lookup b.drvPath).getD env.drvOutput
      let cache := if (s.loop.fodOutputCache.lookup b.drvPath).isSome then s.loop.fodOutputCache
        else (b.drvPath, env.drvOutput) :: s.loop.fodOutputCache
      if output.isSome && env.outputValid then
        some { s with loop := { s.loop with
          phase := .doneStart b (succeededBy none output)
          fodOutputCache := cache } }
      else some { s with loop := { s.loop with
        phase := afterFod cfg intervalRebuild b
        fodOutputCache := cache } }
    else some (s.setPhase (afterFod cfg intervalRebuild b))
  | .cachedFailure b =>
    if FailedPathsCache.isCachedFailure b.drvPath s.db then
      some (s.setPhase (.doneStart b cachedFailureCompletion))
    else some (s.setPhase (.deps b))
  | .deps b =>
    if BuildDependencies.allDepsCompleted b.id s.db then some (s.setPhase (.unsupported b))
    else some (s.setPhase .next)
  | .unsupported b =>
    match cfg.unsupportedTimeout with
    | none => some (s.setPhase (.oneAtATime b))
    | some timeout =>
      if env.supported then some (s.setPhase (.oneAtATime b))
      else if b.createdAt + timeout < s.now then some (s.setPhase (.doneStart b unsupportedCompletion))
      else some (s.setPhase .next)
  | .oneAtATime b =>
    match s.db.jobsetOf b with
    | none => some (s.setPhase .next)
    | some j =>
      if j.state = .oneAtATime ∧ Jobsets.hasRunningBuilds j.id s.db = true then some (s.setPhase .next)
      else some (s.setPhase (.dispatch b))
  | .dispatch b => some ((s.dispatch b).setPhase .next)
  | .doneStart b c =>
    some ({ s with db := (Builds.start env.free s.now b.id s.db).2 }.setPhase (.doneComplete b c))
  | .doneComplete b c =>
    some ({ s with db := Builds.complete s.now b.id c.status c.logPath c.buildOutputPath c.errorMessage s.db }.setPhase
      .next)
  | .stopped => none

/-- The loop's next statement fails: it is logged and the build skipped, or
passed over, and only a failing listing under `strict_errors` ends the loop. -/
def loopFail (cfg : Config) (s : State) : Option State :=
  match s.loop.phase with
  | .sweeping _ atBoot => some (s.sweepDone atBoot)
  | .list => some (s.setPhase (if cfg.strictErrors then .stopped else .top))
  | .next =>
    match s.loop.rest with
    | [] => none
    | b :: rest => some { s with loop := { s.loop with phase := firstFilter false b, rest := rest } }
  | .aggregate _ | .deps _ | .unsupported _ | .oneAtATime _ | .doneComplete _ _ => some (s.setPhase .next)
  | .dedup b => some (s.setPhase (.fod b false))
  | .cachedFailure b => some (s.setPhase (.deps b))
  | .doneStart b c => some (s.setPhase (.doneComplete b c))
  | .boot | .top | .fod _ _ | .dispatch _ | .stopped => none

end State

end Circus.Runner
