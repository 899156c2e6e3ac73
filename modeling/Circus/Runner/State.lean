/-
# The state of a queue runner

One queue runner is the scheduler loop (`runner_loop::run`), the worker tasks
`WorkerPool::dispatch` has spawned, the cancel checker and, between them, the
database, the worker semaphore and the registry `active_builds`. Each party
is kept at the point of its code where its next statement or its next touch
of the shared registry comes: everything between two such points runs
without being observed, so a step of the runner is one statement.

A task is named by its cancellation token, numbered in the order of dispatch.
-/
import Circus.Queries

namespace Circus.Runner

/-- The configuration the loop and the workers read. -/
structure Config where
  workers : ℕ := 2
  failedPathsCache : Bool := true
  unsupportedTimeout : Option Time := none
  strictErrors : Bool := false
  failBuildOnUploadError : Bool := false

/-! ### Worker tasks -/

/-- Where a reserved build runs: on an agent, or on the runner under a permit
of the worker semaphore. -/
inductive Venue
  | agent
  | runner
  deriving DecidableEq, Repr

/-- Where `run_build` is, as its next statement. -/
inductive Phase
  /-- before `ensure_effective_features` -/
  | features
  /-- in `reserve_venue` -/
  | reserving
  /-- capacity reserved, before `builds::start` -/
  | claiming
  /-- `start` returned the row: the build executes -/
  | executing
  /-- the row was handed back or failed on upload; only clean-up is left -/
  | returning
  /-- completed as a failure, before `failed_paths_cache::insert` -/
  | cachingFailure (status : BuildStatus)
  /-- completed, before the row is read back -/
  | reloading
  /-- read back as a success, before the evaluation is read -/
  | loadingEvaluation
  /-- in `auto_promote_if_complete`, before the count -/
  | promoteCount (jobsetId evaluationId : Uuid)
  /-- before the jobset's channels are read -/
  | promoteChannels (jobsetId evaluationId : Uuid)
  /-- the channels still to be promoted -/
  | promoting (evaluationId : Uuid) (channels : List Uuid)
  /-- `run_build` is over, before `active_builds.remove` -/
  | returned
  deriving DecidableEq, Repr

namespace Phase

/-- Before `start`: the task waits for features and capacity. -/
def isWaiting : Phase → Bool
  | features | reserving | claiming => true
  | _ => false

/-- Between a successful `start` and the end of `run_build`. -/
def isLive : Phase → Bool
  | features | reserving | claiming | returned => false
  | _ => true

theorem not_live_of_waiting {p : Phase} (h : p.isWaiting = true) : p.isLive = false := by
  cases p <;> simp_all [isWaiting, isLive]

end Phase

structure Task where
  /-- The row as the poll that dispatched it listed it. -/
  build : Build
  phase : Phase := .features
  /-- The task's token was cancelled. -/
  cancelled : Bool := false
  venue : Option Venue := none
  deriving DecidableEq, Repr

def Task.permit (task : Task) : ℕ := if task.venue = some .runner then 1 else 0

/-! ### The scheduler loop -/

/-- Where the loop is, as its next statement. -/
inductive LoopPhase
  /-- before the sweep at start-up -/
  | boot
  /-- at the head of the loop -/
  | top
  /-- in `reset_orphaned_builds`, with the active ids; `true` at start-up -/
  | sweeping (activeIds : List Uuid) (atBoot : Bool)
  /-- before `list_pending` -/
  | list
  /-- before the next of the listed builds -/
  | next
  | aggregate (b : Build)
  | dedup (b : Build)
  | fod (b : Build) (intervalRebuild : Bool)
  | cachedFailure (b : Build)
  | deps (b : Build)
  | unsupported (b : Build)
  | oneAtATime (b : Build)
  | dispatch (b : Build)
  /-- `mark_build_done`, before its `start` -/
  | doneStart (b : Build) (c : Completion)
  /-- `mark_build_done`, before its `complete` -/
  | doneComplete (b : Build) (c : Completion)
  /-- the loop returned an error -/
  | stopped
  deriving DecidableEq

def LoopPhase.sweptIds : LoopPhase → Option (List Uuid)
  | sweeping activeIds _ => some activeIds
  | _ => none

/-- The build whose dependencies the loop has checked. -/
def LoopPhase.passed : LoopPhase → Option Build
  | unsupported b | oneAtATime b | dispatch b => some b
  | _ => none

/-- The build the loop is about to `complete` in `mark_build_done`. -/
def LoopPhase.completed : LoopPhase → Option Build
  | doneComplete b _ => some b
  | _ => none

/-- The build the loop is about to check for a running one of its jobset. -/
def LoopPhase.checked : LoopPhase → Option Build
  | oneAtATime b => some b
  | _ => none

/-- The build the loop is about to `start` in `mark_build_done`. -/
def LoopPhase.marked : LoopPhase → Option Build
  | doneStart b _ => some b
  | _ => none

def LoopPhase.dispatched : LoopPhase → Option Build
  | dispatch b => some b
  | _ => none

/-- The build the loop is working on. -/
def LoopPhase.current : LoopPhase → Option Build
  | aggregate b | dedup b | fod b _ | cachedFailure b | deps b | unsupported b | oneAtATime b
  | dispatch b | doneStart b _ | doneComplete b _ => some b
  | _ => none

structure Loop where
  phase : LoopPhase := .boot
  /-- The builds of this poll still to come. -/
  rest : List Build := []
  fodOutputCache : List (String × Option String) := []
  lastOrphanReset : Time := 0

/-- What the loop learns from outside the database in one step. -/
structure LoopEnv where
  /-- `AgentPool::total_free_slots` and `AgentPool::total_slots` -/
  freeSlots : ℕ := 0
  totalSlots : ℕ := 0
  /-- which of the completed builds `LIMIT 1` returns -/
  pick : ℕ := 0
  /-- `query_drv_output`, and `nix-store --check-validity` of it -/
  drvOutput : Option String := none
  outputValid : Bool := false
  /-- some builder, agent or the runner itself can take the build -/
  supported : Bool := true
  /-- the locks `start` asks for are to be had -/
  free : Bool := true

/-! ### The runner -/

inductive Checker
  | idle
  /-- before `get_cancelled_among` of the registry's keys -/
  | snapshot (buildIds : List Uuid)
  /-- the cancelled builds whose tokens are still to be cancelled -/
  | removing (ids : List Uuid)
  deriving DecidableEq, Repr

structure State where
  db : Db
  now : Time := 0
  /-- free permits of the worker semaphore -/
  permits : ℕ
  /-- `active_builds`: build id to the token of a task -/
  activeBuilds : AList fun _ : Uuid => ℕ := ∅
  tasks : AList fun _ : ℕ => Task := ∅
  nextTask : ℕ := 0
  loop : Loop := {}
  checker : Checker := .idle
  /-- `restart` calls between the update and `failed_paths_cache::invalidate` -/
  invalidations : List String := []
  draining : Bool := false

namespace State

/-- The task with token `t`. -/
def task (s : State) (t : ℕ) : Option Task := s.tasks.lookup t

def setTask (s : State) (t : ℕ) (task : Task) : State := { s with tasks := s.tasks.insert t task }

/-- The loop goes on at `p`. -/
def setPhase (s : State) (p : LoopPhase) : State := { s with loop := { s.loop with phase := p } }

theorem task_setTask (s : State) (t : ℕ) (task : Task) (t' : ℕ) :
    (s.setTask t task).task t' = if t' = t then some task else s.task t' := by
  unfold State.task setTask
  by_cases h : t' = t
  · subst h; simp
  · rw [AList.lookup_insert_ne h, if_neg h]

theorem setTask_self (s : State) (t : ℕ) (task : Task) : (s.setTask t task).task t = some task := by
  rw [task_setTask, if_pos rfl]

theorem forall_task {s : State} {P : ℕ → Task → Prop} :
    (∀ t task, s.task t = some task → P t task) ↔ ∀ x ∈ s.tasks.entries, P x.1 x.2 :=
  ⟨fun h x hx => h x.1 x.2 (AList.mem_lookup_iff.mpr hx), fun h t task ht => h ⟨t, task⟩ (AList.mem_lookup_iff.mp ht)⟩

instance {s : State} {P : ℕ → Task → Prop} [∀ t task, Decidable (P t task)] :
    Decidable (∀ t task, s.task t = some task → P t task) :=
  decidable_of_iff _ forall_task.symm

/-- Task `t` is between a successful `start` of build `b` and the end of its
`run_build`. -/
def Live (s : State) (t : ℕ) (b : Uuid) : Prop :=
  ∃ task, s.task t = some task ∧ task.build.id = b ∧ task.phase.isLive = true

instance (s : State) (t : ℕ) (b : Uuid) : Decidable (s.Live t b) :=
  decidable_of_iff (∃ task ∈ s.task t, task.build.id = b ∧ task.phase.isLive = true) Iff.rfl

end State

end Circus.Runner
