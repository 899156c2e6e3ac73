/-
# The scheduling queries

The statements of `queries/*.sql` that the queue runner, the operator routes
and the evaluator's supersession issue on builds, each as a function of the
database it reads and, for a write, to the database it leaves. The foreign
keys of the schema are fields of `Db`, so a build without its evaluation or a
dependency edge without its builds cannot be written down.

An `UPDATE builds` is a function on rows (`Build.requeue`, `Build.retry`, …),
with the part of its `WHERE` that reads the row's own columns, applied to the
rows it selects; `get_updateBuild` and `get_updateBuilds` follow one row
through it.
-/
import Circus.Models
import Circus.Table

namespace Circus

/-! ### Rows -/

namespace Build

/-- The `SET` of `start`. -/
def claim (now : Time) (b : Build) : Build :=
  { b with status := .running, startedAt := some now }

/-- `requeue`: only a running build goes back to the queue. -/
def requeue (b : Build) : Build :=
  if b.status = .running then
    { b with status := .pending, startedAt := none, completedAt := none, effectiveFeatures := none }
  else b

/-- `retry`: whatever the status is. -/
def retry (b : Build) : Build :=
  { b with
    status := .pending
    startedAt := none
    retryCount := b.retryCount + 1
    completedAt := none
    effectiveFeatures := none }

/-- `complete`: whatever the status is. -/
def complete (now : Time) (status : BuildStatus) (logPath buildOutputPath errorMessage : Option String)
    (b : Build) : Build :=
  { b with
    status := status
    completedAt := some now
    logPath := logPath
    buildOutputPath := buildOutputPath
    errorMessage := errorMessage }

/-- `cancel`: a pending or running build. -/
def cancel (now : Time) (b : Build) : Build :=
  if b.status = .pending ∨ b.status = .running then
    { b with status := .cancelled, completedAt := some now }
  else b

/-- `cancel_superseded_builds`, on a build of a superseded evaluation. -/
def cancelSuperseded (now : Time) (supersededBy : Uuid) (b : Build) : Build :=
  if b.status = .pending ∨ b.status = .running then
    { b with
      status := .cancelled
      completedAt := some now
      errorMessage := some ("superseded by evaluation " ++ toString supersededBy) }
  else b

/-- The build counts as orphaned: running, since more than `olderThanSecs`. -/
def orphaned (now olderThanSecs : Time) (b : Build) : Bool :=
  decide (b.status = .running) && b.startedAt.any fun t => decide (t + olderThanSecs < now)

def resetOrphaned (b : Build) : Build :=
  { b with status := .pending, startedAt := none, effectiveFeatures := none }

/-- `restart` accepts the build. -/
def restartable (b : Build) : Bool :=
  decide (b.status = .failed ∨ b.status = .succeeded ∨ b.status = .cancelled ∨ b.status = .cachedFailure)

/-- `restart`. It counts as a retry in `retry_count`. -/
def restart (b : Build) : Build :=
  if b.restartable then
    { b with
      status := .pending
      startedAt := none
      completedAt := none
      logPath := none
      buildOutputPath := none
      errorMessage := none
      effectiveFeatures := none
      retryCount := b.retryCount + 1 }
  else b

def setEffectiveFeatures (features : List String) (b : Build) : Build :=
  { b with effectiveFeatures := some features }

theorem toJob_claim (now : Time) (b : Build) : (b.claim now).toJob = b.toJob := rfl

theorem toJob_requeue (b : Build) : b.requeue.toJob = b.toJob := by
  unfold requeue; split_ifs <;> rfl

theorem toJob_retry (b : Build) : b.retry.toJob = b.toJob := rfl

theorem toJob_complete (now : Time) (st : BuildStatus) (l o e : Option String) (b : Build) :
    (b.complete now st l o e).toJob = b.toJob := rfl

theorem toJob_cancel (now : Time) (b : Build) : (b.cancel now).toJob = b.toJob := by
  unfold cancel; split_ifs <;> rfl

theorem toJob_cancelSuperseded (now : Time) (e : Uuid) (b : Build) :
    (b.cancelSuperseded now e).toJob = b.toJob := by
  unfold cancelSuperseded; split_ifs <;> rfl

theorem toJob_resetOrphaned (b : Build) : b.resetOrphaned.toJob = b.toJob := rfl

theorem toJob_restart (b : Build) : b.restart.toJob = b.toJob := by
  unfold restart; split_ifs <;> rfl

theorem toJob_setEffectiveFeatures (fs : List String) (b : Build) :
    (b.setEffectiveFeatures fs).toJob = b.toJob := rfl

end Build

/-! ### The database -/

structure Db where
  jobsets : Table Jobset.id
  evaluations : Table Evaluation.id
  builds : Table fun b : Build => b.id
  /-- Pairs `(build_id, dependency_build_id)`. -/
  buildDependencies : List (Uuid × Uuid)
  channels : Table Channel.id
  failedPathsCache : Table FailedPath.drvPath
  evaluation_fk : ∀ e ∈ evaluations.rows, (jobsets.get e.jobsetId).isSome
  build_fk : ∀ b ∈ builds.rows, (evaluations.get b.evaluationId).isSome
  dependency_fk : ∀ d ∈ buildDependencies, (builds.get d.1).isSome ∧ (builds.get d.2).isSome

namespace Db

/-- `UPDATE builds SET f WHERE p`, for an `f` that keeps the job. -/
def updateBuilds (db : Db) (p : Build → Bool) (f : Build → Build) (hf : ∀ b, (f b).toJob = b.toJob) : Db :=
  { db with
    builds := db.builds.update p f fun b => congrArg Job.id (hf b)
    build_fk := fun b hb => by
      obtain ⟨b₀, hb₀, rfl⟩ := Table.mem_update.mp hb
      have : (if p b₀ then f b₀ else b₀).toJob = b₀.toJob := by split_ifs <;> simp [hf]
      rw [this]
      exact db.build_fk b₀ hb₀
    dependency_fk := fun d hd => by
      rw [Table.get_update, Table.get_update, Option.isSome_map, Option.isSome_map]
      exact db.dependency_fk d hd }

/-- `UPDATE builds SET f WHERE id = :id`. -/
def updateBuild (db : Db) (id : Uuid) (f : Build → Build) (hf : ∀ b, (f b).toJob = b.toJob) : Db :=
  db.updateBuilds (fun b => decide (b.id = id)) f hf

/-- The status of build `id`, if there is such a build. -/
def status (db : Db) (id : Uuid) : Option BuildStatus := (db.builds.get id).map (·.status)

theorem id_of_get {db : Db} {k : Uuid} {b : Build} (h : db.builds.get k = some b) : b.id = k :=
  @Table.key_of_get _ _ (fun b : Build => b.id) _ db.builds k b h

def evaluationOf (db : Db) (b : Build) : Option Evaluation := db.evaluations.get b.evaluationId

def jobsetOf (db : Db) (b : Build) : Option Jobset :=
  (db.evaluationOf b).bind fun e => db.jobsets.get e.jobsetId

theorem get_updateBuild (db : Db) (id : Uuid) (f : Build → Build) (hf : ∀ b, (f b).toJob = b.toJob)
    (k : Uuid) : (db.updateBuild id f hf).builds.get k =
      if k = id then (db.builds.get k).map f else db.builds.get k :=
  Table.get_update_key db.builds id f (fun b => congrArg Job.id (hf b)) k

theorem get_updateBuilds (db : Db) (p : Build → Bool) (f : Build → Build)
    (hf : ∀ b, (f b).toJob = b.toJob) (k : Uuid) :
    (db.updateBuilds p f hf).builds.get k = (db.builds.get k).map fun b => if p b then f b else b :=
  Table.get_update db.builds p f (fun b => congrArg Job.id (hf b)) k

end Db

namespace Db

variable (jobsets : List Jobset) (evaluations : List Evaluation) (builds : List Build) (deps : List (Uuid × Uuid))
  (channels : List Channel)

/-- The rows have keys of their own, and what they refer to is there. -/
def Consistent : Prop :=
  (jobsets.map Jobset.id).Nodup ∧ (evaluations.map Evaluation.id).Nodup ∧ (builds.map fun b => b.id).Nodup ∧
    (channels.map Channel.id).Nodup ∧ (∀ e ∈ evaluations, e.jobsetId ∈ jobsets.map Jobset.id) ∧
    (∀ b ∈ builds, b.evaluationId ∈ evaluations.map Evaluation.id) ∧
    ∀ d ∈ deps, d.1 ∈ builds.map (fun b => b.id) ∧ d.2 ∈ builds.map fun b => b.id

instance : Decidable (Consistent jobsets evaluations builds deps channels) := by
  unfold Consistent; infer_instance

/-- The database of these rows. -/
def ofRows (h : Consistent jobsets evaluations builds deps channels) : Db where
  jobsets := ⟨jobsets, h.1⟩
  evaluations := ⟨evaluations, h.2.1⟩
  builds := ⟨builds, h.2.2.1⟩
  buildDependencies := deps
  channels := ⟨channels, h.2.2.2.1⟩
  failedPathsCache := ⟨[], List.nodup_nil⟩
  evaluation_fk e he := Table.isSome_get (h.2.2.2.2.1 e he)
  build_fk b hb := Table.isSome_get (h.2.2.2.2.2.1 b hb)
  dependency_fk d hd := ⟨Table.isSome_get (h.2.2.2.2.2.2 d hd).1, Table.isSome_get (h.2.2.2.2.2.2 d hd).2⟩

end Db

/-! ### `queries/builds.sql` -/

/-- What the callers of `complete` write. It only ever finishes a build. -/
structure Completion where
  status : BuildStatus
  logPath : Option String := none
  buildOutputPath : Option String := none
  errorMessage : Option String := none
  finished : status.isFinished = true
  deriving DecidableEq

/-- A success with these paths. -/
def succeededBy (logPath buildOutputPath : Option String) : Completion where
  status := .succeeded
  logPath := logPath
  buildOutputPath := buildOutputPath
  finished := rfl

namespace Builds

/-- Some build of this derivation is running. -/
def runningTwin (db : Db) (drvPath : String) : Bool :=
  db.builds.rows.any fun active => decide (active.drvPath = drvPath ∧ active.status = .running)

/-- The row `start` picks: pending, no running twin, and `free`: the advisory
lock of the derivation and the row lock were both to be had. -/
def startable (free : Bool) (db : Db) (b : Build) : Bool :=
  decide (b.status = .pending) && free && !runningTwin db b.drvPath

/-- `start`, as one statement: the row it returns and the database after it. -/
def start (free : Bool) (now : Time) (id : Uuid) (db : Db) : Option Build × Db :=
  match (db.builds.get id).filter (startable free db) with
  | none => (none, db)
  | some b => (some (b.claim now), db.updateBuild id (Build.claim now) (Build.toJob_claim now))

def requeue (id : Uuid) (db : Db) : Db :=
  db.updateBuild id Build.requeue Build.toJob_requeue

def retry (id : Uuid) (db : Db) : Db := db.updateBuild id Build.retry Build.toJob_retry

def complete (now : Time) (id : Uuid) (status : BuildStatus)
    (logPath buildOutputPath errorMessage : Option String) (db : Db) : Db :=
  db.updateBuild id (Build.complete now status logPath buildOutputPath errorMessage)
    (Build.toJob_complete now status logPath buildOutputPath errorMessage)

def cancel (now : Time) (id : Uuid) (db : Db) : Db :=
  db.updateBuild id (Build.cancel now) (Build.toJob_cancel now)

def resetOrphaned (now olderThanSecs : Time) (excludedIds : List Uuid) (db : Db) : Db :=
  db.updateBuilds (fun b => b.orphaned now olderThanSecs && !decide (b.id ∈ excludedIds))
    Build.resetOrphaned Build.toJob_resetOrphaned

def restart (id : Uuid) (db : Db) : Db :=
  db.updateBuild id Build.restart Build.toJob_restart

def setEffectiveFeatures (id : Uuid) (features : List String) (db : Db) : Db :=
  db.updateBuild id (Build.setEffectiveFeatures features) (Build.toJob_setEffectiveFeatures features)

def getCancelledAmong (buildIds : List Uuid) (db : Db) : List Uuid :=
  (db.builds.select fun b => decide (b.id ∈ buildIds ∧ b.status = .cancelled)).map (·.id)

/-- `get_completed_by_drv_path`: `LIMIT 1` without an order, so which of the
succeeded builds comes back is not fixed; `pick` chooses. -/
def getCompletedByDrvPath (pick : ℕ) (drvPath : String) (db : Db) : Option Build :=
  let found := db.builds.select fun b => decide (b.drvPath = drvPath ∧ b.status = .succeeded)
  found[pick % found.length]?

end Builds

def Evaluations.cancelSupersededBuilds (now : Time) (supersededBy jobsetId : Uuid) (sourceScope : String)
    (db : Db) : Db :=
  db.updateBuilds
    (fun b => (db.evaluationOf b).any fun e => decide (e.jobsetId = jobsetId ∧ e.id ≠ supersededBy ∧
      e.triggerKind = .sourceChange ∧ e.sourceScope = some sourceScope))
    (Build.cancelSuperseded now supersededBy) (Build.toJob_cancelSuperseded now supersededBy)

/-! ### `queries/build_dependencies.sql`, `queries/jobsets.sql`, `queries/failed_paths_cache.sql` -/

/-- `all_deps_completed`: no dependency has a status other than succeeded. -/
def BuildDependencies.allDepsCompleted (buildId : Uuid) (db : Db) : Bool :=
  !db.buildDependencies.any fun d =>
    decide (d.1 = buildId) && (db.builds.get d.2).any fun dep => decide (dep.status ≠ .succeeded)

def Jobsets.hasRunningBuilds (jobsetId : Uuid) (db : Db) : Bool :=
  db.builds.rows.any fun b => decide (b.status = .running) &&
    (db.evaluationOf b).any fun e => decide (e.jobsetId = jobsetId)

/-- `has_unfinished_work`: an evaluation of the jobset that is pending or
running, or one of their builds that is. -/
def Jobsets.hasUnfinishedWork (jobsetId : Uuid) (db : Db) : Bool :=
  (db.evaluations.rows.any fun e => decide (e.jobsetId = jobsetId ∧
    (e.status = .pending ∨ e.status = .running))) ||
  db.builds.rows.any fun b => decide (b.status = .pending ∨ b.status = .running) &&
    (db.evaluationOf b).any fun e => decide (e.jobsetId = jobsetId)

namespace FailedPathsCache

def isCachedFailure (drvPath : String) (db : Db) : Bool := (db.failedPathsCache.get drvPath).isSome

def insert (now : Time) (drvPath : String) (failureStatus : BuildStatus) (sourceBuildId : Uuid)
    (db : Db) : Db :=
  { db with failedPathsCache := db.failedPathsCache.upsert ⟨drvPath, sourceBuildId, failureStatus, now⟩ }

def invalidate (drvPath : String) (db : Db) : Db :=
  { db with failedPathsCache := db.failedPathsCache.delete fun f => decide (f.drvPath = drvPath) }

def cleanupExpired (now ttl : Time) (db : Db) : Db :=
  { db with failedPathsCache := db.failedPathsCache.delete fun f => decide (f.failedAt + ttl < now) }

end FailedPathsCache

/-! ### `queries/channels.sql` -/

namespace Channels

/-- `auto_promote_count`: the builds of the evaluation, and those of them that
succeeded. -/
def autoPromoteCount (evaluationId : Uuid) (db : Db) : ℕ × ℕ :=
  ((db.builds.select fun b => decide (b.evaluationId = evaluationId)).length,
   (db.builds.select fun b => decide (b.evaluationId = evaluationId ∧ b.status = .succeeded)).length)

def autoPromoteChannels (jobsetId : Uuid) (db : Db) : List Channel :=
  db.channels.select fun c => decide (c.jobsetId = jobsetId)

def promote (now : Time) (channelId evaluationId : Uuid) (db : Db) : Db :=
  { db with
    channels := db.channels.update (fun c => decide (c.id = channelId))
      (fun c => { c with currentEvaluationId := some evaluationId, updatedAt := now }) fun _ => rfl }

end Channels

/-! ### `list_pending` -/

namespace Builds

/-- The common table expression `eligible_pending`. -/
def eligiblePending (db : Db) : List Build :=
  db.builds.select fun b => decide (b.status = .pending) &&
    BuildDependencies.allDepsCompleted b.id db && !runningTwin db b.drvPath

/-- The common table expression `running_counts`, at a jobset. -/
def runningCount (db : Db) (jobsetId : Uuid) : ℕ :=
  (db.builds.select fun b => decide (b.status = .running) &&
    (db.evaluationOf b).any fun e => decide (e.jobsetId = jobsetId)).length

/-- `total_shares` of the common table expression `active_shares`: the shares
of the jobsets that have an eligible build. -/
def totalShares (db : Db) : ℤ :=
  ((db.jobsets.select fun j => decide (0 < j.schedulingShares) &&
    (eligiblePending db).any fun b => (db.evaluationOf b).any fun e =>
      decide (e.jobsetId = j.id)).map (·.schedulingShares)).sum

/-- The share deficit of a jobset,
`shares / greatest(total, 1) - running / greatest(capacity, 1)`, over the
common denominator: every row of one listing has the same two divisors. -/
def shareDeficit (db : Db) (schedulableCapacity : ℤ) (j : Jobset) : ℤ :=
  j.schedulingShares * max schedulableCapacity 1 - runningCount db j.id * max (totalShares db) 1

/-- The share deficit of a build's jobset. -/
def deficitOf (db : Db) (schedulableCapacity : ℤ) (b : Build) : ℤ :=
  (db.jobsetOf b).elim 0 (shareDeficit db schedulableCapacity)

/-- The `ORDER BY` of `list_pending`: `a` comes no later than `b`. -/
def pendingOrder (db : Db) (schedulableCapacity : ℤ) (a b : Build) : Bool :=
  let da := deficitOf db schedulableCapacity a
  let db' := deficitOf db schedulableCapacity b
  if a.priority ≠ b.priority then decide (b.priority < a.priority)
  else if a.schedulingFeatures.length ≠ b.schedulingFeatures.length then
    decide (b.schedulingFeatures.length < a.schedulingFeatures.length)
  else if da ≠ db' then decide (db' < da)
  else if a.createdAt ≠ b.createdAt then decide (a.createdAt < b.createdAt)
  else decide (a.id ≤ b.id)

/-- `list_pending`. A jobset without scheduling shares is not in
`active_shares`, so its builds are not listed. -/
def listPending (limit : ℕ) (schedulableCapacity : ℤ) (db : Db) : List Build :=
  (((eligiblePending db).filter fun b => (db.jobsetOf b).any fun j => decide (0 < j.schedulingShares)).insertionSort
    fun a b => pendingOrder db schedulableCapacity a b = true).take limit

end Builds

/-! ### What the statements leave alone -/

/-- The job of build `id`, if there is such a build. -/
def Db.job (db : Db) (id : Uuid) : Option Job := (db.builds.get id).map (·.toJob)

/-- The job's evaluation is one of this jobset. -/
def Db.inJobset (db : Db) (jobsetId : Uuid) (j : Job) : Bool :=
  (db.evaluations.get j.evaluationId).any fun e => decide (e.jobsetId = jobsetId)

/-- The part of the database no statement of the queue runner changes. -/
structure Db.Frame (db db' : Db) : Prop where
  job : ∀ k, db'.job k = db.job k
  jobsets : db'.jobsets = db.jobsets
  evaluations : db'.evaluations = db.evaluations
  buildDependencies : db'.buildDependencies = db.buildDependencies

theorem Db.Frame.refl (db : Db) : db.Frame db := ⟨fun _ => rfl, rfl, rfl, rfl⟩

theorem Db.Frame.trans {a b c : Db} (h : a.Frame b) (h' : b.Frame c) : a.Frame c :=
  ⟨fun k => (h'.job k).trans (h.job k), h'.jobsets.trans h.jobsets, h'.evaluations.trans h.evaluations,
    h'.buildDependencies.trans h.buildDependencies⟩

variable {db : Db}

theorem Db.Frame.inJobset {db' : Db} (h : db.Frame db') (jobsetId : Uuid) (j : Job) :
    db'.inJobset jobsetId j = db.inJobset jobsetId j := by
  unfold Db.inJobset
  rw [h.evaluations]

variable {b : Build}

/-- A build is of the jobset it has always been of. -/
theorem Db.Frame.jobsetOf {db' : Db} (h : db.Frame db') {k : Uuid} {b' : Build}
    (hb : db.builds.get k = some b) (hb' : db'.builds.get k = some b') : db'.jobsetOf b' = db.jobsetOf b := by
  have hj : b'.toJob = b.toJob := by simpa [Db.job, hb, hb'] using h.job k
  unfold Db.jobsetOf Db.evaluationOf
  rw [hj, h.evaluations, h.jobsets]

theorem Db.frame_updateBuilds (db : Db) (p : Build → Bool) (f : Build → Build)
    (hf : ∀ b, (f b).toJob = b.toJob) : db.Frame (db.updateBuilds p f hf) := by
  refine ⟨fun k => ?_, rfl, rfl, rfl⟩
  unfold Db.job
  rw [Db.get_updateBuilds, Option.map_map]
  congr 1
  funext b
  by_cases h : p b <;> simp [h, hf]

theorem Db.frame_updateBuild (db : Db) (id : Uuid) (f : Build → Build) (hf : ∀ b, (f b).toJob = b.toJob) :
    db.Frame (db.updateBuild id f hf) :=
  Db.frame_updateBuilds db _ f hf

theorem Db.status_eq_some {k : Uuid} {st : BuildStatus} :
    db.status k = some st ↔ ∃ b, db.builds.get k = some b ∧ b.status = st := by
  simp [Db.status]

theorem Db.status_updateBuild (db : Db) (id : Uuid) (f : Build → Build) (hf : ∀ b, (f b).toJob = b.toJob) :
    (db.updateBuild id f hf).status id = (db.builds.get id).map fun b => (f b).status := by
  unfold Db.status
  rw [Db.get_updateBuild, if_pos rfl, Option.map_map]
  rfl

namespace Builds

theorem start_cases (free : Bool) (now : Time) (id : Uuid) (db : Db) :
    (∃ b, db.builds.get id = some b ∧ startable free db b = true ∧
      start free now id db = (some (b.claim now), db.updateBuild id (Build.claim now) (Build.toJob_claim now))) ∨
    start free now id db = (none, db) := by
  unfold start
  cases hf : (db.builds.get id).filter (startable free db) with
  | none => exact .inr rfl
  | some b =>
    rw [Option.filter_eq_some_iff] at hf
    exact .inl ⟨b, hf.1, hf.2, rfl⟩

theorem start_db (free : Bool) (now : Time) (hb : db.builds.get b.id = some b) : (start free now b.id db).2 =
      if startable free db b then db.updateBuild b.id (Build.claim now) (Build.toJob_claim now) else db := by
  unfold start
  rw [hb, Option.filter_some]
  split_ifs <;> rfl

theorem startable_iff {free : Bool} : startable free db b = true ↔
    b.status = .pending ∧ free = true ∧ runningTwin db b.drvPath = false := by
  simp [startable, and_assoc]

/-- A `start` that returns the row takes it from pending to running. -/
theorem status_of_start {free : Bool} {now : Time} {id : Uuid} (h : (start free now id db).1.isSome = true) :
    db.status id = some .pending ∧ (start free now id db).2.status id = some .running := by
  rcases start_cases free now id db with ⟨b, hb, hs, h'⟩ | h' <;> rw [h'] at h ⊢
  · refine ⟨Db.status_eq_some.mpr ⟨b, hb, (startable_iff.mp hs).1⟩, ?_⟩
    rw [Db.status_updateBuild, hb]
    rfl
  · simp at h

theorem frame_start (free : Bool) (now : Time) (id : Uuid) (db : Db) : db.Frame (start free now id db).2 := by
  rcases start_cases free now id db with ⟨b, -, -, h⟩ | h <;> rw [h]
  · exact db.frame_updateBuild id _ (Build.toJob_claim now)
  · exact Db.Frame.refl db

end Builds

/-! ### What the reads return -/

theorem BuildDependencies.allDepsCompleted_iff {id : Uuid} : allDepsCompleted id db = true ↔
    ∀ d, (id, d) ∈ db.buildDependencies → db.status d = some .succeeded := by
  unfold allDepsCompleted
  simp only [Bool.not_eq_true', List.any_eq_false, Bool.and_eq_true, decide_eq_true_eq, not_and]
  constructor
  · intro h d hd
    obtain ⟨dep, hdep⟩ := Option.isSome_iff_exists.mp (db.dependency_fk (id, d) hd).2
    have := h (id, d) hd rfl
    simp only [hdep, Option.any_some, decide_eq_true_eq, not_not] at this
    simp [Db.status, hdep, this]
  · rintro h ⟨i, d⟩ hd rfl
    obtain ⟨dep, hdep, hs⟩ := Db.status_eq_some.mp (h d hd)
    simp [hdep, hs]

/-- It reads the dependencies and the statuses only. -/
theorem BuildDependencies.allDepsCompleted_congr {db' : Db} (hd : db'.buildDependencies = db.buildDependencies)
    (hs : ∀ k, db'.status k = db.status k) (id : Uuid) : allDepsCompleted id db' = allDepsCompleted id db := by
  rw [Bool.eq_iff_iff, allDepsCompleted_iff, allDepsCompleted_iff, hd]
  simp only [hs]

/-- Build `k` is running, and it is one of the jobset. -/
def Db.RunningIn (db : Db) (jobsetId k : Uuid) : Prop :=
  db.status k = some .running ∧ ∃ j, db.job k = some j ∧ db.inJobset jobsetId j = true

instance (db : Db) (jobsetId k : Uuid) : Decidable (db.RunningIn jobsetId k) :=
  decidable_of_iff (db.status k = some .running ∧ ∃ j ∈ db.job k, db.inJobset jobsetId j = true) Iff.rfl

theorem Jobsets.hasRunningBuilds_eq_false {jobsetId : Uuid} :
    hasRunningBuilds jobsetId db = false ↔ ∀ k, ¬ db.RunningIn jobsetId k := by
  unfold hasRunningBuilds
  rw [List.any_eq_false]
  constructor
  · rintro h k ⟨hs, j, hj, hin⟩
    obtain ⟨b, hb, hs⟩ := Db.status_eq_some.mp hs
    simp only [Db.job, hb, Option.map_some, Option.some.injEq] at hj
    subst hj
    refine h b (Table.mem_of_get hb) ?_
    rw [Bool.and_eq_true]
    exact ⟨by simpa using hs, hin⟩
  · intro h b hb hc
    rw [Bool.and_eq_true] at hc
    have hg := db.builds.get_of_mem hb
    exact h b.id ⟨Db.status_eq_some.mpr ⟨b, hg, of_decide_eq_true hc.1⟩, b.toJob, by simp [Db.job, hg], hc.2⟩

theorem Db.exists_jobsetOf {k : Uuid} (h : db.builds.get k = some b) : ∃ j, db.jobsetOf b = some j := by
  obtain ⟨e, he⟩ := Option.isSome_iff_exists.mp (db.build_fk b (Table.mem_of_get h))
  obtain ⟨j, hj⟩ := Option.isSome_iff_exists.mp (db.evaluation_fk e (Table.mem_of_get he))
  exact ⟨j, Option.bind_eq_some_iff.mpr ⟨e, he, hj⟩⟩

/-- The jobset a build is found in is the one its evaluation names. -/
theorem Db.inJobset_jobsetOf {j : Jobset} (h : db.jobsetOf b = some j) (jobsetId : Uuid)
    (hin : db.inJobset jobsetId b.toJob = true) : j.id = jobsetId ∧ db.jobsets.get jobsetId = some j := by
  obtain ⟨e, he, hj⟩ := Option.bind_eq_some_iff.mp h
  unfold Db.evaluationOf at he
  rw [Db.inJobset, he, Option.any_some, decide_eq_true_eq] at hin
  rw [← hin]
  exact ⟨Table.key_of_get hj, hj⟩

/-- A jobset has no unfinished work if its evaluations are done and none of
its builds is pending or running. -/
theorem Jobsets.hasUnfinishedWork_eq_false {jobsetId : Uuid}
    (he : ∀ e ∈ db.evaluations.rows, e.jobsetId = jobsetId → e.status ≠ .pending ∧ e.status ≠ .running)
    (hb : ∀ b ∈ db.builds.rows, db.inJobset jobsetId b.toJob = true → b.status ≠ .pending ∧ b.status ≠ .running) :
    hasUnfinishedWork jobsetId db = false := by
  unfold hasUnfinishedWork
  rw [Bool.or_eq_false_iff, List.any_eq_false, List.any_eq_false]
  constructor
  · intro e hm hc
    obtain ⟨hj, hs⟩ := of_decide_eq_true hc
    exact hs.elim (he e hm hj).1 (he e hm hj).2
  · intro b hm hc
    rw [Bool.and_eq_true] at hc
    exact (of_decide_eq_true hc.1).elim (hb b hm hc.2).1 (hb b hm hc.2).2

variable {limit : ℕ} {cap : ℤ}

/-- A listed build is an eligible row, in a jobset with shares. -/
theorem Builds.mem_listPending (h : b ∈ listPending limit cap db) :
    b ∈ eligiblePending db ∧ (db.jobsetOf b).any fun j => decide (0 < j.schedulingShares) := by
  have := (List.mem_insertionSort _).mp (List.mem_of_mem_take h)
  exact List.mem_filter.mp this

theorem Builds.mem_eligiblePending : b ∈ eligiblePending db ↔
    b ∈ db.builds.rows ∧ b.status = .pending ∧ BuildDependencies.allDepsCompleted b.id db = true ∧
      runningTwin db b.drvPath = false := by
  simp [eligiblePending, Table.select, and_assoc]

/-- An eligible build of a jobset with shares gets something listed, if not
itself. -/
theorem Builds.listPending_ne_nil {j : Jobset} (hl : 0 < limit) (cap : ℤ)
    (hb : b ∈ eligiblePending db) (hj : db.jobsetOf b = some j) (hs : 0 < j.schedulingShares) :
    listPending limit cap db ≠ [] := by
  intro h
  rcases List.take_eq_nil_iff.mp h with h | h
  · omega
  · have hm : b ∈ (eligiblePending db).filter fun b => (db.jobsetOf b).any fun j => decide (0 < j.schedulingShares) :=
      List.mem_filter.mpr ⟨hb, by simpa [hj] using hs⟩
    have := (List.mem_insertionSort fun a b => pendingOrder db cap a b = true).mpr hm
    rw [h] at this
    cases this

/-- What `list_pending` orders by. -/
def Builds.pendingKey (db : Db) (cap : ℤ) (b : Build) : ℤ ×ₗ ℤ ×ₗ ℤ ×ₗ ℕ ×ₗ ℕ :=
  toLex (-b.priority, toLex (-b.schedulingFeatures.length, toLex (-deficitOf db cap b, toLex (b.createdAt, b.id))))

theorem Builds.pendingOrder_iff {a b : Build} :
    pendingOrder db cap a b = true ↔ pendingKey db cap a ≤ pendingKey db cap b := by
  simp only [pendingOrder, pendingKey, Prod.Lex.toLex_le_toLex]
  grind

/-- In a list that a key puts in order, before an entry stand those with a smaller key. -/
theorem eq_filter_of_append {α κ : Type*} [LinearOrder κ] {key : α → κ} {l pre post : List α} {b : α}
    (hl : l.Pairwise fun x y => key x < key y) (h : l = pre ++ b :: post) :
    pre = l.filter fun x => decide (key x < key b) := by
  subst h
  obtain ⟨-, hpost, hpre⟩ := List.pairwise_append.mp hl
  have hpost' := (List.pairwise_cons.mp hpost).1
  rw [List.filter_append, List.filter_cons_of_neg (by simp),
    List.filter_eq_self.mpr fun x hx => by simpa using hpre x hx b List.mem_cons_self,
    List.filter_eq_nil_iff.mpr fun x hx => by simpa using (hpost' x hx).le, List.append_nil]

/-- The builds `list_pending` lists from. -/
def Builds.queue (db : Db) : List Build :=
  (eligiblePending db).filter fun b => (db.jobsetOf b).any fun j => decide (0 < j.schedulingShares)

/-- **Where a build comes in the listing**: it is listed if fewer than `limit` of the queue come before it in the
order of `list_pending`, and these are listed before it. -/
theorem Builds.listPending_eq_append_iff {b : Build} {P : Build → Prop} :
    (∃ pre post, listPending limit cap db = pre ++ b :: post ∧ ∀ a ∈ pre, P a) ↔
      b ∈ queue db ∧ (queue db).countP (fun a => decide (pendingKey db cap a < pendingKey db cap b)) < limit ∧
        ∀ a ∈ queue db, pendingKey db cap a < pendingKey db cap b → P a := by
  let r : Build → Build → Prop := fun a b => pendingOrder db cap a b = true
  have : Std.Total r := ⟨fun a b => by simp only [r, pendingOrder_iff]; exact le_total _ _⟩
  have : IsTrans Build r := ⟨fun a b c => by simp only [r, pendingOrder_iff]; exact le_trans⟩
  obtain ⟨l, hl, hlist⟩ : ∃ l, l = (queue db).insertionSort r ∧ listPending limit cap db = l.take limit := ⟨_, rfl, rfl⟩
  have hperm : l.Perm (queue db) := hl ▸ List.perm_insertionSort r _
  have hids : (l.map fun b : Build => b.id).Nodup := by
    rw [(hperm.map _).nodup_iff]
    exact db.builds.nodup.sublist ((List.filter_sublist.trans List.filter_sublist).map _)
  -- ids are unique, so that no two builds have one key
  have hsorted : l.Pairwise fun x y => pendingKey db cap x < pendingKey db cap y := by
    refine ((hl ▸ List.pairwise_insertionSort r _).and (List.pairwise_map.mp hids)).imp ?_
    rintro x y ⟨hle, hne⟩
    refine lt_of_le_of_ne (pendingOrder_iff.mp hle) fun heq => hne ?_
    simp only [pendingKey, toLex_inj, Prod.mk.injEq] at heq
    exact heq.2.2.2.2
  have hcount : ∀ {pre post : List Build}, l = pre ++ b :: post →
      (queue db).countP (fun a => decide (pendingKey db cap a < pendingKey db cap b)) = pre.length := by
    intro pre post h
    rw [← hperm.countP_eq, List.countP_eq_length_filter, ← eq_filter_of_append hsorted h]
  have hmem : ∀ {pre post : List Build}, l = pre ++ b :: post → ∀ a,
      a ∈ pre ↔ a ∈ queue db ∧ pendingKey db cap a < pendingKey db cap b := by
    intro pre post h a
    rw [eq_filter_of_append hsorted h, List.mem_filter, hperm.mem_iff, decide_eq_true_eq]
  rw [hlist]
  constructor
  · rintro ⟨pre, post, h, hP⟩
    have hl' : l = pre ++ b :: (post ++ l.drop limit) := by
      rw [← List.cons_append, ← List.append_assoc, ← h, List.take_append_drop]
    refine ⟨hperm.mem_iff.mp (hl' ▸ by simp), ?_, fun a ha hlt => hP a ((hmem hl' a).mpr ⟨ha, hlt⟩)⟩
    rw [hcount hl']
    have hlen := congrArg List.length h
    simp only [List.length_take, List.length_append, List.length_cons] at hlen
    omega
  · rintro ⟨hb, hlt, hP⟩
    obtain ⟨pre, post, hl'⟩ := List.append_of_mem (hperm.mem_iff.mpr hb)
    rw [hcount hl'] at hlt
    refine ⟨pre, post.take (limit - pre.length - 1), ?_, fun a ha => hP a ((hmem hl' a).mp ha).1 ((hmem hl' a).mp ha).2⟩
    rw [hl', List.take_append, List.take_of_length_le hlt.le]
    obtain ⟨k, hk⟩ : ∃ k, limit - pre.length = k + 1 := ⟨limit - pre.length - 1, by omega⟩
    rw [hk, List.take_succ_cons, Nat.add_sub_cancel]

theorem Builds.mem_getCancelledAmong {ids : List Uuid} {id : Uuid} (hid : id ∈ ids)
    (h : db.status id = some .cancelled) : id ∈ getCancelledAmong ids db := by
  obtain ⟨b, hb, hs⟩ := Db.status_eq_some.mp h
  have hk := Db.id_of_get hb
  refine List.mem_map.mpr ⟨b, List.mem_filter.mpr ⟨Table.mem_of_get hb, ?_⟩, hk⟩
  simp [hk, hid, hs]

theorem Db.get_of_mem (h : b ∈ db.builds.rows) : db.builds.get b.id = some b :=
  @Table.get_of_mem _ _ (fun b : Build => b.id) _ db.builds b h

theorem Builds.runningTwin_eq_false {d : String} : runningTwin db d = false ↔
    ∀ k b, db.builds.get k = some b → b.drvPath = d → b.status ≠ .running := by
  unfold runningTwin
  rw [List.any_eq_false]
  constructor
  · intro h k b hb hd hs
    exact h b (Table.mem_of_get hb) (by simp [hd, hs])
  · intro h b hb hc
    obtain ⟨hd, hs⟩ := of_decide_eq_true hc
    exact h b.id b (Db.get_of_mem hb) hd hs

theorem Builds.runningTwin_of_idle (h : ∀ k, db.status k ≠ some .running) (d : String) : runningTwin db d = false :=
  runningTwin_eq_false.mpr fun k b hb _ hr => h k (Db.status_eq_some.mpr ⟨b, hb, hr⟩)

end Circus
