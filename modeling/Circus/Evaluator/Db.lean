/-
# The evaluator's tables and statements

The tables the evaluator and the webhook handlers work on, with the foreign
keys, the unique index on `(jobset_id, commit_hash)` of the non-interval
evaluations and the freshness of ids as fields. A single-table
`UPDATE evaluations` is a `Statement`; the transactions `create_automated`
and `restart` of `crates/common/src/repo/evaluations.rs` are functions of the
whole database. Each has one lemma that says what it leaves
(`Statement.get_run`, `Request.created`).

A new id is the next number: only that it is new matters.
-/
import Circus.Evaluator.Models
import Circus.Queries

namespace Circus.Evaluator

structure SourceHead where
  jobsetId : Uuid
  sourceScope : String
  commitHash : String
  deriving DecidableEq, Repr

def SourceHead.key (h : SourceHead) : Uuid × String := (h.jobsetId, h.sourceScope)

structure Db where
  jobsets : Table fun j : JobsetRow => j.id
  evaluations : Table fun e : EvaluationRow => e.id
  builds : Table fun b : Build => b.id
  /-- Pairs `(build_id, dependency_build_id)`. -/
  buildDependencies : List (Uuid × Uuid)
  sourceHeads : Table SourceHead.key
  nextId : Uuid
  evaluation_fk : ∀ e ∈ evaluations.rows, (jobsets.get e.jobsetId).isSome
  build_fk : ∀ b ∈ builds.rows, (evaluations.get b.evaluationId).isSome
  dependency_fk : ∀ d ∈ buildDependencies, (builds.get d.1).isSome ∧ (builds.get d.2).isSome
  /-- `idx_evaluations_source_unique`. -/
  source_unique : ∀ e ∈ evaluations.rows, ∀ e' ∈ evaluations.rows, e.triggerKind ≠ .interval →
    e'.triggerKind ≠ .interval → e.jobsetId = e'.jobsetId → e.commitHash = e'.commitHash → e.id = e'.id
  evaluation_lt : ∀ e ∈ evaluations.rows, e.id < nextId
  build_lt : ∀ b ∈ builds.rows, b.id < nextId

namespace Db

theorem id_of_get {db : Db} {k : Uuid} {e : EvaluationRow} (h : db.evaluations.get k = some e) : e.id = k :=
  @Table.key_of_get _ _ (fun e : EvaluationRow => e.id) _ db.evaluations k e h

theorem id_of_getJobset {db : Db} {k : Uuid} {j : JobsetRow} (h : db.jobsets.get k = some j) : j.id = k :=
  @Table.key_of_get _ _ (fun j : JobsetRow => j.id) _ db.jobsets k j h

theorem get_of_mem {db : Db} {e : EvaluationRow} (h : e ∈ db.evaluations.rows) :
    db.evaluations.get e.id = some e :=
  @Table.get_of_mem _ _ (fun e : EvaluationRow => e.id) _ db.evaluations e h

theorem get_nextId (db : Db) : db.evaluations.get db.nextId = none := by
  cases h : db.evaluations.get db.nextId with
  | none => rfl
  | some e => exact absurd (id_of_get h) (db.evaluation_lt e (Table.mem_of_get h)).ne

/-- `get_source_head`. -/
def head (db : Db) (jobsetId : Uuid) (sourceScope : String) : Option String :=
  (db.sourceHeads.get (jobsetId, sourceScope)).map (·.commitHash)

def buildsOf (db : Db) (id : Uuid) : List Build := db.builds.select fun b => decide (b.evaluationId = id)

/-- Some build of the evaluation is pending or running. -/
def hasActiveBuild (db : Db) (id : Uuid) : Bool :=
  db.builds.rows.any fun b => decide (b.evaluationId = id ∧ (b.status = .pending ∨ b.status = .running))

/-- The jobs of the build rows: all that a status change leaves of them. -/
def jobs (db : Db) : List Job := db.builds.rows.map fun b => b.toJob

theorem mem_jobs {db : Db} {j : Job} : j ∈ db.jobs ↔ ∃ b ∈ db.builds.rows, b.toJob = j := List.mem_map

/-- The jobset's latest-only policy, as `lock_latest_policy` reads it. -/
def onlyBuildLatest (db : Db) (jobsetId : Uuid) : Bool := (db.jobsets.get jobsetId).any (·.onlyBuildLatest)

/-- The jobset of evaluation `id` is `jobsetId`. -/
def inJobset (db : Db) (jobsetId id : Uuid) : Bool :=
  (db.evaluations.get id).any fun e => decide (e.jobsetId = jobsetId)

def hasUnfinishedWork (db : Db) (jobsetId : Uuid) : Bool :=
  (db.evaluations.rows.any fun e => decide (e.jobsetId = jobsetId) && e.status.isActive) ||
    db.builds.rows.any fun b => decide (b.status = .pending ∨ b.status = .running) &&
      db.inJobset jobsetId b.evaluationId

/-- `get_by_inputs_hash` finds a completed evaluation. -/
def hasInputsHash (db : Db) (jobsetId : Uuid) (inputsHash : String) : Bool :=
  db.evaluations.rows.any fun e =>
    decide (e.jobsetId = jobsetId ∧ e.inputsHash = some inputsHash ∧ e.status = .completed)

def commitOrder (a b : EvaluationRow) : Bool :=
  if decide (a.triggerKind = .interval) = decide (b.triggerKind = .interval) then
    decide (b.evaluationTime ≤ a.evaluationTime)
  else decide (b.triggerKind = .interval)

def getByJobsetAndCommit (db : Db) (jobsetId : Uuid) (commitHash : String) : Option EvaluationRow :=
  ((db.evaluations.select fun e => decide (e.jobsetId = jobsetId ∧ e.commitHash = commitHash)).insertionSort
    fun a b => commitOrder a b = true).head?

theorem mem_of_getByJobsetAndCommit {db : Db} {jobsetId : Uuid} {commitHash : String} {e : EvaluationRow}
    (h : db.getByJobsetAndCommit jobsetId commitHash = some e) :
    db.evaluations.get e.id = some e ∧ e.jobsetId = jobsetId ∧ e.commitHash = commitHash := by
  have hm := List.mem_of_mem_head? (Option.mem_def.mpr h)
  rw [List.mem_insertionSort] at hm
  obtain ⟨hm, hs⟩ := List.mem_filter.mp hm
  exact ⟨get_of_mem hm, decide_eq_true_iff.mp hs⟩

/-- A database with these jobsets and nothing else. -/
def ofJobsets (jobsets : List JobsetRow) (h : (jobsets.map fun j => j.id).Nodup) : Db where
  jobsets := ⟨jobsets, h⟩
  evaluations := ⟨[], List.nodup_nil⟩
  builds := ⟨[], List.nodup_nil⟩
  buildDependencies := []
  sourceHeads := ⟨[], List.nodup_nil⟩
  nextId := 1
  evaluation_fk _ he := absurd he List.not_mem_nil
  build_fk _ hb := absurd hb List.not_mem_nil
  dependency_fk _ hd := absurd hd List.not_mem_nil
  source_unique _ he := absurd he List.not_mem_nil
  evaluation_lt _ he := absurd he List.not_mem_nil
  build_lt _ hb := absurd hb List.not_mem_nil

/-! ### Updates of one table -/

/-- `UPDATE evaluations SET f WHERE p`, for an `f` that keeps the identity. -/
def updateEvaluations (db : Db) (p : EvaluationRow → Bool) (f : EvaluationRow → EvaluationRow)
    (hf : ∀ e, (f e).identity = e.identity) : Db :=
  have hk : ∀ e : EvaluationRow, (if p e then f e else e).identity = e.identity := fun e => by
    split_ifs <;> simp [hf]
  { db with
    evaluations := db.evaluations.update p f fun e => EvaluationRow.id_of_identity (hf e)
    evaluation_fk := fun e he => by
      obtain ⟨e₀, he₀, rfl⟩ := Table.mem_update.mp he
      rw [EvaluationRow.jobsetId_of_identity (hk e₀)]
      exact db.evaluation_fk e₀ he₀
    build_fk := fun b hb => by
      rw [Table.get_update, Option.isSome_map]
      exact db.build_fk b hb
    source_unique := fun e he e' he' hi hi' hj hc => by
      obtain ⟨e₀, he₀, rfl⟩ := Table.mem_update.mp he
      obtain ⟨e₀', he₀', rfl⟩ := Table.mem_update.mp he'
      have h := hk e₀
      have h' := hk e₀'
      rw [Ne, EvaluationRow.interval_of_identity h] at hi
      rw [Ne, EvaluationRow.interval_of_identity h'] at hi'
      rw [EvaluationRow.jobsetId_of_identity h, EvaluationRow.jobsetId_of_identity h'] at hj
      rw [EvaluationRow.commitHash_of_identity h, EvaluationRow.commitHash_of_identity h'] at hc
      rw [EvaluationRow.id_of_identity h, EvaluationRow.id_of_identity h']
      exact db.source_unique e₀ he₀ e₀' he₀' hi hi' hj hc
    evaluation_lt := fun e he => by
      obtain ⟨e₀, he₀, rfl⟩ := Table.mem_update.mp he
      rw [EvaluationRow.id_of_identity (hk e₀)]
      exact db.evaluation_lt e₀ he₀ }

theorem id_of_toJob {f : Build → Build} (hf : ∀ b, (f b).toJob = b.toJob) (b : Build) : (f b).id = b.id :=
  congrArg Job.id (hf b)

/-- `UPDATE builds SET f WHERE p`, for an `f` that keeps the job. -/
def updateBuilds (db : Db) (p : Build → Bool) (f : Build → Build) (hf : ∀ b, (f b).toJob = b.toJob) : Db :=
  have hk : ∀ b : Build, (if p b then f b else b).toJob = b.toJob := fun b => by split_ifs <;> simp [hf]
  { db with
    builds := db.builds.update p f (id_of_toJob hf)
    build_fk := fun b hb => by
      obtain ⟨b₀, hb₀, rfl⟩ := Table.mem_update.mp hb
      rw [hk]
      exact db.build_fk b₀ hb₀
    dependency_fk := fun d hd => by
      rw [Table.get_update, Table.get_update, Option.isSome_map, Option.isSome_map]
      exact db.dependency_fk d hd
    build_lt := fun b hb => by
      obtain ⟨b₀, hb₀, rfl⟩ := Table.mem_update.mp hb
      rw [hk]
      exact db.build_lt b₀ hb₀ }

/-- A jobset is created or rewritten. -/
def configure (db : Db) (j : JobsetRow) : Db :=
  { db with
    jobsets := db.jobsets.upsert j
    evaluation_fk := fun e he => by
      rw [Table.get_upsert]
      split_ifs
      · rfl
      · exact db.evaluation_fk e he }

def setSourceHead (db : Db) (jobsetId : Uuid) (sourceScope commitHash : String) : Db :=
  { db with sourceHeads := db.sourceHeads.upsert ⟨jobsetId, sourceScope, commitHash⟩ }

/-- `restart_delete_builds`, with the dependency rows that go with a build. -/
def deleteBuilds (db : Db) (evaluationId : Uuid) : Db :=
  { db with
    builds := db.builds.delete fun b => decide (b.evaluationId = evaluationId)
    buildDependencies := db.buildDependencies.filter fun d =>
      ((db.builds.delete fun b => decide (b.evaluationId = evaluationId)).get d.1).isSome &&
        ((db.builds.delete fun b => decide (b.evaluationId = evaluationId)).get d.2).isSome
    build_fk := fun b hb => db.build_fk b (List.mem_of_mem_filter hb)
    dependency_fk := fun d hd => by simpa using (List.mem_filter.mp hd).2
    build_lt := fun b hb => db.build_lt b (List.mem_of_mem_filter hb) }

theorem get_updateEvaluations (db : Db) (p : EvaluationRow → Bool) (f : EvaluationRow → EvaluationRow)
    (hf : ∀ e, (f e).identity = e.identity) (k : Uuid) :
    (db.updateEvaluations p f hf).evaluations.get k =
      (db.evaluations.get k).map fun e => if p e then f e else e :=
  Table.get_update db.evaluations p f (fun e => EvaluationRow.id_of_identity (hf e)) k

theorem jobs_updateBuilds (db : Db) (p : Build → Bool) (f : Build → Build) (hf : ∀ b, (f b).toJob = b.toJob) :
    (db.updateBuilds p f hf).jobs = db.jobs := by
  have : ∀ b : Build, (if p b then f b else b).toJob = b.toJob := fun b => by split_ifs <;> simp [hf]
  simp [jobs, updateBuilds, Table.update, this]

theorem head_setSourceHead (db : Db) (i : Uuid) (s c : String) (jobsetId : Uuid) (sourceScope : String) :
    (db.setSourceHead i s c).head jobsetId sourceScope =
      if jobsetId = i ∧ sourceScope = s then some c else db.head jobsetId sourceScope := by
  unfold head setSourceHead
  rw [Table.get_upsert]
  by_cases h : (jobsetId, sourceScope) = (i, s)
  · rw [if_pos (show (jobsetId, sourceScope) = SourceHead.key ⟨i, s, c⟩ from h), if_pos (by simpa using h)]
    rfl
  · rw [if_neg (show ¬ (jobsetId, sourceScope) = SourceHead.key ⟨i, s, c⟩ from h), if_neg (by simpa using h)]

end Db

/-! ### `UPDATE evaluations` -/

/-- The statements on `evaluations` that update a single table, outside the
transactions of creation, restart and recording. -/
inductive Statement
  | tryClaimPending (id : Uuid)
  | updateStatus (id : Uuid) (status : EvaluationStatus) (errorMessage : Option String)
  | finishRunning (id : Uuid) (status : EvaluationStatus) (errorMessage : Option String)
  | setInputsHash (id : Uuid) (inputsHash : String)
  | cancel (id : Uuid)
  | sweepOrphaned (deadlineSecs : Time)
  deriving DecidableEq

namespace Statement

/-- The `WHERE`. -/
def selects (now : Time) (e : EvaluationRow) : Statement → Bool
  | tryClaimPending id => decide (e.id = id ∧ e.status = .pending)
  | updateStatus id _ _ => decide (e.id = id)
  | finishRunning id _ _ => decide (e.id = id ∧ e.status = .running)
  | setInputsHash id _ => decide (e.id = id)
  | cancel id => decide (e.id = id ∧ (e.status = .pending ∨ e.status = .running))
  | sweepOrphaned deadlineSecs => e.orphaned now deadlineSecs

def set (now : Time) (e : EvaluationRow) : Statement → EvaluationRow
  | tryClaimPending _ => e.claim now
  | updateStatus _ status errorMessage => e.setStatus status errorMessage
  | finishRunning _ status errorMessage => e.setStatus status errorMessage
  | setInputsHash _ inputsHash => e.setInputsHash inputsHash
  | cancel _ => e.setStatus .cancelled none
  | sweepOrphaned _ => e.sweepOrphaned now

theorem identity_set (now : Time) (e : EvaluationRow) (q : Statement) : (q.set now e).identity = e.identity := by
  cases q <;> rfl

/-- What the statement makes of a row. -/
def apply (now : Time) (q : Statement) (e : EvaluationRow) : EvaluationRow :=
  if q.selects now e then q.set now e else e

def run (now : Time) (q : Statement) (db : Db) : Db :=
  db.updateEvaluations (fun e => q.selects now e) (fun e => q.set now e) fun e => identity_set now e q

theorem get_run (now : Time) (q : Statement) (db : Db) (k : Uuid) :
    (q.run now db).evaluations.get k = (db.evaluations.get k).map (q.apply now) :=
  Db.get_updateEvaluations db (fun e => q.selects now e) (fun e => q.set now e) (fun e => identity_set now e q) k

end Statement

/-! ### Creating evaluations -/

/-- The errors of `crates/common/src/error.rs` the creation of an evaluation
can end in. -/
inductive CiError
  | notFound (message : String)
  | conflict (message : String)
  | database
  deriving DecidableEq, Repr

inductive SourceOrder
  | unchecked
  | first
  | after (previous : String)
  deriving DecidableEq, Repr

namespace SourceOrder

def accepts (latestCommit : Option String) : SourceOrder → Bool
  | unchecked => true
  | first => latestCommit.isNone
  | after previous => latestCommit.all fun commit => commit = previous

def baseCommit (latestCommit : Option String) : SourceOrder → Option String
  | unchecked => latestCommit
  | first => none
  | after previous => some previous

end SourceOrder

namespace Db

/-- The unique index has an entry for this commit. -/
def sourceTaken (db : Db) (jobsetId : Uuid) (commitHash : String) : Bool :=
  db.evaluations.rows.any fun e =>
    decide (e.triggerKind ≠ .interval ∧ e.jobsetId = jobsetId ∧ e.commitHash = commitHash)

/-- `INSERT INTO evaluations` of a row that violates no constraint. -/
def insertEvaluation (db : Db) (e : EvaluationRow) (hid : e.id = db.nextId)
    (hj : (db.jobsets.get e.jobsetId).isSome)
    (hu : ¬ (e.triggerKind ≠ .interval ∧ db.sourceTaken e.jobsetId e.commitHash = true)) : Db :=
  have hnew : ∀ e' ∈ db.evaluations.rows, e.triggerKind ≠ .interval → e'.triggerKind ≠ .interval →
      e'.jobsetId = e.jobsetId → e'.commitHash ≠ e.commitHash := fun e' he' hi hi' hj' hc =>
    hu ⟨hi, List.any_eq_true.mpr ⟨e', he', by simp [hi', hj', hc]⟩⟩
  { db with
    evaluations := db.evaluations.append [e] (by
      rw [List.map_append, List.nodup_append]
      refine ⟨db.evaluations.nodup, by simp, fun a ha b hb => ?_⟩
      obtain ⟨e', he', rfl⟩ := List.mem_map.mp ha
      obtain rfl : b = e.id := by simpa using hb
      exact hid ▸ (db.evaluation_lt e' he').ne)
    nextId := db.nextId + 1
    evaluation_fk := fun e' he' => by
      rcases List.mem_append.mp he' with he' | he'
      · exact db.evaluation_fk e' he'
      · obtain rfl : e' = e := by simpa using he'
        exact hj
    build_fk := fun b hb => by
      rw [Table.get_append, Option.isSome_or, db.build_fk b hb, Bool.true_or]
    source_unique := fun e₁ h₁ e₂ h₂ hi₁ hi₂ hj' hc => by
      rcases List.mem_append.mp h₁ with m₁ | m₁ <;> rcases List.mem_append.mp h₂ with m₂ | m₂
      · exact db.source_unique e₁ m₁ e₂ m₂ hi₁ hi₂ hj' hc
      · obtain rfl : e₂ = e := by simpa using m₂
        exact absurd hc (hnew e₁ m₁ hi₂ hi₁ hj')
      · obtain rfl : e₁ = e := by simpa using m₁
        exact absurd hc.symm (hnew e₂ m₂ hi₁ hi₂ hj'.symm)
      · obtain rfl : e₁ = e := by simpa using m₁
        obtain rfl : e₂ = e₁ := by simpa using m₂
        rfl
    evaluation_lt := fun e' he' => by
      rcases List.mem_append.mp he' with he' | he'
      · exact (db.evaluation_lt e' he').trans (Nat.lt_succ_self _)
      · obtain rfl : e' = e := by simpa using he'
        exact hid ▸ Nat.lt_succ_self _
    build_lt := fun b hb => (db.build_lt b hb).trans (Nat.lt_succ_self _) }

/-- `create_with_kind`: the `INSERT`, with the two constraints it can violate. -/
def createWithKind (now : Time) (input : CreateEvaluation) (kind : EvaluationTriggerKind) (status : EvaluationStatus)
    (sourceScope sourceBaseCommit : Option String) (db : Db) : Except CiError (EvaluationRow × Db) :=
  let e := EvaluationRow.create db.nextId now input kind status sourceScope sourceBaseCommit
  if hj : (db.jobsets.get input.jobsetId).isSome then
    if hu : kind ≠ .interval ∧ db.sourceTaken input.jobsetId input.commitHash = true then
      .error (.conflict ("Evaluation for commit '" ++ input.commitHash ++ "' already exists in this jobset"))
    else .ok (e, db.insertEvaluation e rfl hj hu)
  else .error .database

def superseded (db : Db) (supersededBy jobsetId : Uuid) (sourceScope : String) (e : EvaluationRow) : Bool :=
  decide (e.InScope jobsetId sourceScope ∧ e.id ≠ supersededBy) && (e.status.isActive || db.hasActiveBuild e.id)

theorem superseded_congr {db db' : Db} (h : db'.builds = db.builds) :
    db'.superseded = db.superseded := by
  funext by' j s e
  simp only [superseded, hasActiveBuild, h]

def supersedeSourceEvaluations (supersededBy jobsetId : Uuid) (sourceScope : String) (db : Db) : Db :=
  db.updateEvaluations (db.superseded supersededBy jobsetId sourceScope) (EvaluationRow.supersede supersededBy)
    (EvaluationRow.identity_supersede supersededBy)

def cancelSupersededBuilds (now : Time) (supersededBy jobsetId : Uuid) (sourceScope : String) (db : Db) : Db :=
  db.updateBuilds
    (fun b => (db.evaluations.get b.evaluationId).any fun e =>
      decide (e.InScope jobsetId sourceScope ∧ e.id ≠ supersededBy))
    (Build.cancelSuperseded now supersededBy) (Build.toJob_cancelSuperseded now supersededBy)

/-- The last part of `create_automated`, for a new evaluation of the stream. -/
def applyLatestOnly (now : Time) (onlyBuildLatest : Bool) (e : EvaluationRow) (sourceScope : String) (db : Db) : Db :=
  if onlyBuildLatest then
    (db.supersedeSourceEvaluations e.id e.jobsetId sourceScope).cancelSupersededBuilds now e.id e.jobsetId sourceScope
  else db

/-- `create_automated`, the transaction behind `enqueue_source` and
`create_running_source_change`. An error rolls it back. -/
def createAutomated (now : Time) (input : CreateEvaluation) (status : EvaluationStatus) (sourceScope : String)
    (sourceOrder : SourceOrder) (db : Db) : Except CiError (EvaluationRow × Db) :=
  match db.jobsets.get input.jobsetId with
  | none => .error (.notFound ("Jobset " ++ toString input.jobsetId ++ " not found"))
  | some j =>
    let latestCommit := db.head input.jobsetId sourceScope
    if j.onlyBuildLatest && !sourceOrder.accepts latestCommit then
      .error (.conflict ("Source update for '" ++ sourceScope ++ "' is older than the current revision"))
    else
      match db.createWithKind now input .sourceChange status (some sourceScope)
        (sourceOrder.baseCommit latestCommit) with
      | .error e => .error e
      | .ok (e, db) =>
        .ok (e, (db.setSourceHead e.jobsetId sourceScope e.commitHash).applyLatestOnly now j.onlyBuildLatest e
          sourceScope)

end Db

/-- A call that creates an evaluation, as running or as pending:
`create_automated` for the scope and order of `source`, else
`create_interval`. -/
structure Request where
  input : CreateEvaluation
  running : Bool
  source : Option (String × SourceOrder)
  deriving DecidableEq

namespace Request

def enqueueSource (input : CreateEvaluation) (sourceScope : String) (sourceOrder : SourceOrder) : Request where
  input := input
  running := false
  source := some (sourceScope, sourceOrder)

def createRunningSourceChange (input : CreateEvaluation) (sourceScope : String) : Request where
  input := input
  running := true
  source := some (sourceScope, .unchecked)

def createInterval (input : CreateEvaluation) : Request where
  input := input
  running := true
  source := none

def status (r : Request) : EvaluationStatus := if r.running then .running else .pending

def run (now : Time) (r : Request) (db : Db) : Except CiError (EvaluationRow × Db) :=
  match r.source with
  | some (sourceScope, sourceOrder) => db.createAutomated now r.input r.status sourceScope sourceOrder
  | none => db.createWithKind now r.input .interval r.status none none

/-- The stream the new evaluation belongs to. -/
def scope (r : Request) : Option String := r.source.map (·.1)

def kind (r : Request) : EvaluationTriggerKind := if r.source.isSome then .sourceChange else .interval

/-- The rows the request supersedes if it goes through. -/
def supersedes (r : Request) (db : Db) (e : EvaluationRow) : Bool :=
  r.scope.any fun s => db.onlyBuildLatest r.input.jobsetId && db.superseded db.nextId r.input.jobsetId s e

/-- What a request that goes through leaves. -/
structure Created (now : Time) (r : Request) (db : Db) (e : EvaluationRow) (db' : Db) : Prop where
  row : ∃ base, e = EvaluationRow.create db.nextId now r.input r.kind r.status r.scope base
  fresh : r.kind ≠ .interval → db.sourceTaken r.input.jobsetId r.input.commitHash = false
  accepted : ∀ scope order, r.source = some (scope, order) → db.onlyBuildLatest r.input.jobsetId = true →
    order.accepts (db.head r.input.jobsetId scope) = true
  get : ∀ k, db'.evaluations.get k = if k = db.nextId then some e else
    (db.evaluations.get k).map fun e' => if r.supersedes db e' then e'.supersede db.nextId else e'
  head : ∀ jobsetId scope, db'.head jobsetId scope =
    if jobsetId = r.input.jobsetId ∧ r.scope = some scope then some r.input.commitHash
    else db.head jobsetId scope
  jobsets : db'.jobsets = db.jobsets
  jobs : db'.jobs = db.jobs
  buildDependencies : db'.buildDependencies = db.buildDependencies

end Request

namespace Db

theorem createWithKind_eq_ok {now : Time} {input : CreateEvaluation} {kind : EvaluationTriggerKind}
    {status : EvaluationStatus} {scope base : Option String} {db db' : Db} {e : EvaluationRow}
    (h : db.createWithKind now input kind status scope base = .ok (e, db')) :
    e = EvaluationRow.create db.nextId now input kind status scope base ∧
    (kind ≠ .interval → db.sourceTaken input.jobsetId input.commitHash = false) ∧
    (∀ k, db'.evaluations.get k = if k = db.nextId then some e else db.evaluations.get k) ∧
    db'.sourceHeads = db.sourceHeads ∧ db'.jobsets = db.jobsets ∧ db'.builds = db.builds ∧
    db'.buildDependencies = db.buildDependencies := by
  simp only [createWithKind] at h
  split_ifs at h with hj hu
  obtain ⟨rfl, rfl⟩ := Prod.mk.inj (Except.ok.inj h)
  refine ⟨rfl, fun hi => by simpa [hi] using hu, fun k => ?_, rfl, rfl, rfl, rfl⟩
  show (db.evaluations.append _ _).get k = _
  rw [Table.get_append]
  by_cases hk : k = db.nextId
  · subst hk
    simp [get_nextId, EvaluationRow.create]
  · simp [hk, EvaluationRow.create, Ne.symm hk]

section ApplyLatestOnly

variable (now : Time) (latest : Bool) (e : EvaluationRow) (scope : String) (db : Db)

theorem get_applyLatestOnly (k : Uuid) : (db.applyLatestOnly now latest e scope).evaluations.get k =
    (db.evaluations.get k).map fun e' =>
      if latest && db.superseded e.id e.jobsetId scope e' then e'.supersede e.id else e' := by
  cases latest with
  | false => simp [applyLatestOnly]
  | true => exact get_updateEvaluations db _ _ (EvaluationRow.identity_supersede e.id) k

theorem jobs_applyLatestOnly : (db.applyLatestOnly now latest e scope).jobs = db.jobs := by
  cases latest with
  | false => rfl
  | true => exact jobs_updateBuilds _ _ _ (Build.toJob_cancelSuperseded now e.id)

theorem sourceHeads_applyLatestOnly : (db.applyLatestOnly now latest e scope).sourceHeads = db.sourceHeads := by
  cases latest <;> rfl

theorem jobsets_applyLatestOnly : (db.applyLatestOnly now latest e scope).jobsets = db.jobsets := by
  cases latest <;> rfl

theorem buildDependencies_applyLatestOnly :
    (db.applyLatestOnly now latest e scope).buildDependencies = db.buildDependencies := by
  cases latest <;> rfl

end ApplyLatestOnly

end Db

namespace Request

theorem created {now : Time} {r : Request} {db db' : Db} {e : EvaluationRow} (h : r.run now db = .ok (e, db')) :
    r.Created now db e db' := by
  obtain ⟨input, running, source⟩ := r
  cases source with
  | none =>
    obtain ⟨hrow, hfresh, hget, hhead, hjobsets, hbuilds, hdeps⟩ := Db.createWithKind_eq_ok h
    refine ⟨⟨none, hrow⟩, hfresh, by simp, fun k => ?_, fun i s => ?_, hjobsets, ?_, hdeps⟩
    · simp [hget, supersedes, scope]
    · simp [Db.head, hhead, scope]
    · rw [Db.jobs, hbuilds]; rfl
  | some source =>
    obtain ⟨scope, order⟩ := source
    simp only [run, Db.createAutomated] at h
    cases hj : db.jobsets.get input.jobsetId with
    | none => simp [hj] at h
    | some j =>
      have hlatest : db.onlyBuildLatest input.jobsetId = j.onlyBuildLatest := by simp [Db.onlyBuildLatest, hj]
      simp only [hj] at h
      split_ifs at h with ha
      cases hc : db.createWithKind now input .sourceChange (status ⟨input, running, some (scope, order)⟩) (some scope)
          (order.baseCommit (db.head input.jobsetId scope)) with
      | error err => simp [hc] at h
      | ok p =>
        obtain ⟨e₁, db₁⟩ := p
        obtain ⟨hrow, hfresh, hget, hhead, hjobsets, hbuilds, hdeps⟩ := Db.createWithKind_eq_ok hc
        simp only [hc] at h
        obtain ⟨rfl, rfl⟩ := Prod.mk.inj (Except.ok.inj h)
        have hid : e₁.id = db.nextId := by rw [hrow]; rfl
        have hjobset : e₁.jobsetId = input.jobsetId := by rw [hrow]; rfl
        have hcommit : e₁.commitHash = input.commitHash := by rw [hrow]; rfl
        refine ⟨⟨_, hrow⟩, hfresh, fun s o hs hl => ?_, fun k => ?_, fun i s => ?_, ?_, ?_, ?_⟩
        · obtain ⟨rfl, rfl⟩ := Prod.mk.inj (Option.some.inj hs)
          rw [hlatest] at hl
          simpa [hl] using ha
        · rw [Db.get_applyLatestOnly]
          show (db₁.evaluations.get k).map _ = _
          rw [hget, hid, hjobset]
          by_cases hk : k = db.nextId
          · -- the new row is not superseded by itself
            simp [hk, Db.superseded, hid]
          · simp only [hk, if_false, supersedes, Request.scope, Option.map_some, Option.any_some, hlatest]
            congr 1
            funext e'
            rw [Db.superseded_congr (show (db₁.setSourceHead _ _ _).builds = db.builds from hbuilds)]
        · have : db₁.head i s = db.head i s := by rw [Db.head, hhead]; rfl
          rw [Db.head, Db.sourceHeads_applyLatestOnly]
          show Db.head (db₁.setSourceHead e₁.jobsetId scope e₁.commitHash) i s = _
          rw [Db.head_setSourceHead, this, hjobset, hcommit]
          simp [Request.scope, eq_comm]
        · rw [Db.jobsets_applyLatestOnly]
          exact hjobsets
        · rw [Db.jobs_applyLatestOnly]
          show db₁.builds.rows.map _ = _
          rw [hbuilds]
          rfl
        · rw [Db.buildDependencies_applyLatestOnly]
          exact hdeps

/-- A request of a stream that is accepted meets the unique index, or goes
through. -/
theorem run_source (now : Time) (r : Request) {db : Db} {scope : String} {order : SourceOrder} {j : JobsetRow}
    (hs : r.source = some (scope, order)) (hj : db.jobsets.get r.input.jobsetId = some j)
    (ha : j.onlyBuildLatest = true → order.accepts (db.head r.input.jobsetId scope) = true)
    (ht : db.sourceTaken r.input.jobsetId r.input.commitHash = false) : ∃ e db', r.run now db = .ok (e, db') := by
  have hacc : (j.onlyBuildLatest && !order.accepts (db.head r.input.jobsetId scope)) = false := by
    cases hl : j.onlyBuildLatest with
    | false => rfl
    | true => simp [ha hl]
  simp [run, hs, Db.createAutomated, hj, hacc, Db.createWithKind, ht]

end Request

/-! ### Restarting -/

namespace Db

def reenableOneShot (db : Db) (jobsetId : Uuid) : Db :=
  (db.jobsets.get jobsetId).elim db fun j => db.configure j.reenableOneShot

/-- `restart`: the three statements of its transaction, if the first finds the
evaluation. -/
def restart (now : Time) (id : Uuid) (db : Db) : Option Db :=
  (db.evaluations.get id).bind fun e =>
    if e.restartable && (db.jobsets.get e.jobsetId).any (·.restartable) then
      some (((db.updateEvaluations (fun e => decide (e.id = id)) (EvaluationRow.restartRequeue now)
        (EvaluationRow.identity_restartRequeue now)).deleteBuilds id).reenableOneShot e.jobsetId)
    else none

structure Restarted (now : Time) (id : Uuid) (db db' : Db) : Prop where
  get : ∀ k, db'.evaluations.get k =
    if k = id then (db.evaluations.get k).map (EvaluationRow.restartRequeue now) else db.evaluations.get k
  restartable : ∃ e, db.evaluations.get id = some e ∧ e.restartable = true
  sourceHeads : db'.sourceHeads = db.sourceHeads
  jobs : db'.jobs = db.jobs.filter fun j => decide (j.evaluationId ≠ id)
  buildDependencies : ∀ d ∈ db'.buildDependencies, d ∈ db.buildDependencies
  jobsets : ∀ j, db'.jobsets.get j = db.jobsets.get j ∨
    ∃ row, db.jobsets.get j = some row ∧ db'.jobsets.get j = some { row with enabled := true }

theorem reenableOneShot_eq (db : Db) (i : Uuid) : (db.reenableOneShot i).evaluations = db.evaluations ∧
    (db.reenableOneShot i).sourceHeads = db.sourceHeads ∧ (db.reenableOneShot i).builds = db.builds ∧
    (db.reenableOneShot i).buildDependencies = db.buildDependencies ∧
    ∀ j, (db.reenableOneShot i).jobsets.get j = db.jobsets.get j ∨ ∃ row, db.jobsets.get j = some row ∧
      (db.reenableOneShot i).jobsets.get j = some { row with enabled := true } := by
  unfold reenableOneShot
  cases hi : db.jobsets.get i with
  | none => exact ⟨rfl, rfl, rfl, rfl, fun _ => .inl rfl⟩
  | some j₀ =>
    refine ⟨rfl, rfl, rfl, rfl, fun j => ?_⟩
    have hid : j₀.id = i := id_of_getJobset hi
    rw [Option.elim_some, configure, Table.get_upsert]
    unfold JobsetRow.reenableOneShot
    split_ifs with hshot hj hj
    · obtain rfl : j = i := hj.trans hid
      exact .inr ⟨j₀, hi, rfl⟩
    · exact .inl rfl
    · obtain rfl : j = i := hj.trans hid
      exact .inl hi.symm
    · exact .inl rfl

theorem Restarted.onlyBuildLatest {now : Time} {id : Uuid} {db db' : Db} (h : Restarted now id db db') (j : Uuid) :
    db'.onlyBuildLatest j = db.onlyBuildLatest j := by
  unfold Db.onlyBuildLatest
  rcases h.jobsets j with h | ⟨row, h, h'⟩
  · rw [h]
  · rw [h, h']
    rfl

theorem restarted {now : Time} {id : Uuid} {db db' : Db} (h : db.restart now id = some db') :
    Restarted now id db db' := by
  unfold restart at h
  obtain ⟨e, he, h⟩ := Option.bind_eq_some_iff.mp h
  split_ifs at h with hr
  obtain ⟨hre, -⟩ := Bool.and_eq_true_iff.mp hr
  obtain rfl := Option.some.inj h
  obtain ⟨h1, h2, h3, h4, h5⟩ := reenableOneShot_eq ((db.updateEvaluations (fun e => decide (e.id = id))
    (EvaluationRow.restartRequeue now) (EvaluationRow.identity_restartRequeue now)).deleteBuilds id) e.jobsetId
  refine ⟨fun k => ?_, ⟨e, he, hre⟩, h2, ?_, fun d hd => ?_, h5⟩
  · rw [h1]
    exact Table.get_update_key db.evaluations id _
      (fun e => EvaluationRow.id_of_identity (EvaluationRow.identity_restartRequeue now e)) k
  · rw [jobs, h3]
    show (db.builds.rows.filter _).map _ = (db.builds.rows.map _).filter _
    rw [List.filter_map]
    congr 2
    funext b
    simp [Function.comp_apply]
  · rw [h4] at hd
    exact List.mem_of_mem_filter hd

end Db

end Circus.Evaluator
