/-
# Schema migrations

`crates/migrations/src/lib.rs`: every service calls `run_migrations` when it
starts. A call takes the session's advisory lock, creates `_sqlx_migrations`,
checks the recorded migrations against its own list and executes the others up
to `max_version`, each in a transaction together with its row. A call can fail
at every statement and its process can die at any time, which ends the session:
the transaction is rolled back and the lock is free.

The schema is an arbitrary type, a migration a partial function on it. The
recorded migrations are at all times the first ones of the list, and the schema
is what they make of the one before them; with a migration recorded that is
unknown or has changed, nothing is executed (`migrations_once_in_order`).
-/
import Circus.Lts

namespace Circus.Migrations

/-! ### The list -/

structure Migration where
  version : ℤ
  name : String
  sql : String
  deriving DecidableEq, Repr

/-- A binary: its migrations, what their SQL does to a schema, and SHA-384. -/
structure Binary (σ : Type) where
  migrations : List Migration
  sorted : migrations.Pairwise fun a b => a.version < b.version
  execute : String → σ → Option σ
  sha384 : String → List UInt8

def migrationNames : List (ℤ × String) :=
  [(1, "0001_tables"), (2, "0002_indexes"), (3, "0003_triggers"), (4, "0004_views"), (5, "0005_builder_cpu_cores"),
    (6, "0006_active_jobsets_enabled_filter"), (7, "0007_news_and_fod"), (8, "0008_service_heartbeats"),
    (9, "0009_audit_log"), (10, "0010_evaluations_notify"), (11, "0011_build_meta"), (12, "0012_builder_sessions"),
    (13, "0013_build_required_features"), (14, "0014_narinfo_cache"), (15, "0015_jobset_trigger_modes"),
    (16, "0016_evaluation_visibility"), (17, "0017_narinfo_cache_url_index"),
    (18, "0018_build_stats_include_pending"), (19, "0019_remove_build_log_url"), (20, "0020_build_agent"),
    (21, "0021_build_started_notified_at"), (22, "0022_build_effective_features"),
    (23, "0023_ephemeral_builder_sessions"), (24, "0024_notification_configs_slack"), (25, "0025_project_caches"),
    (26, "0026_jobset_ref_patterns"), (27, "0027_cache_traffic"), (28, "0028_narinfo_cache_project_owners"),
    (29, "0029_evaluation_cancellation"), (30, "0030_runtime_enum_constraints"), (31, "0031_evaluation_started_at"),
    (32, "0032_jobset_systems"), (33, "0033_jobset_latest_only"), (34, "0034_jobset_path_filters"),
    (35, "0035_declarative_projects"), (36, "0036_project_runtime_mutation"), (37, "0037_drop_build_steps")]

/-- The migrations that are compiled in, with the texts of their files. -/
def MIGRATIONS (file : String → String) : List Migration :=
  migrationNames.map fun m => ⟨m.1, m.2, file (m.2 ++ ".sql")⟩

/-- The binary with these files. -/
def compiledIn {σ : Type} (file : String → String) (execute : String → σ → Option σ) (sha384 : String → List UInt8) :
    Binary σ where
  migrations := MIGRATIONS file
  sorted := List.pairwise_map.mpr (show migrationNames.Pairwise fun a b => a.1 < b.1 by decide)
  execute := execute
  sha384 := sha384

/-! ### One call -/

/-- A row of `_sqlx_migrations`. -/
structure Row where
  version : ℤ
  description : String
  success : Bool := true
  checksum : List UInt8
  executionTime : ℕ
  deriving DecidableEq, Repr

/-- The description `sqlx` stored: without the version, and with spaces. -/
def description (name : String) : String :=
  let rest := match name.toList.dropWhile (· ≠ '_') with
    | [] => name.toList
    | _ :: rest => rest
  String.ofList (rest.map fun c => if c = '_' then ' ' else c)

section

variable {σ : Type} (b : Binary σ)

def migrationChecksum (m : Migration) : List UInt8 := b.sha384 m.sql

def validateRow (r : Row) : Except String ℤ :=
  match b.migrations.find? fun m => decide (m.version = r.version) with
  | none => .error ("applied migration " ++ toString r.version ++ " is missing from this binary")
  | some m =>
    if !r.success then
      .error ("migration " ++ toString r.version ++ " previously failed and needs manual intervention")
    else if r.checksum ≠ migrationChecksum b m then
      .error ("migration " ++ toString r.version ++ " checksum mismatch, the file changed after it was applied")
    else .ok r.version

/-- `validate_applied`: the rows in the order of their versions. -/
def validateApplied (rows : List Row) : Except String (List ℤ) :=
  (rows.insertionSort fun r r' => r.version ≤ r'.version).mapM (validateRow b)

/-- Where the loop of `apply_pending` stops next, and what it has left. -/
def nextPending (maxVersion : ℤ) (applied : List ℤ) : List Migration → Option (Migration × List Migration)
  | [] => none
  | m :: rest =>
    if m.version > maxVersion then none
    else if m.version ∈ applied then nextPending maxVersion applied rest
    else some (m, rest)

/-- Where a call of `run_migrations_up_to` is. -/
inductive Phase (σ : Type)
  /-- Before the advisory lock. -/
  | locking (maxVersion : ℤ)
  /-- Before `bootstrap.sql`. -/
  | bootstrapping (maxVersion : ℤ)
  | validating (maxVersion : ℤ)
  /-- In the loop over the migrations. -/
  | applying (maxVersion : ℤ) (applied : List ℤ) (todo : List Migration)
  /-- In the transaction, before the SQL of `m`. -/
  | executing (maxVersion : ℤ) (applied : List ℤ) (m : Migration) (todo : List Migration)
  /-- Before its row, with the schema as the transaction sees it. -/
  | recording (maxVersion : ℤ) (applied : List ℤ) (m : Migration) (todo : List Migration) (schema : σ)
  | committing (maxVersion : ℤ) (applied : List ℤ) (todo : List Migration) (schema : σ) (row : Row)
  | unlocking (result : Except String Unit)
  | returned (result : Except String Unit)

/-- The call has the lock. -/
def Phase.holds : Phase σ → Bool
  | locking _ | returned _ => false
  | _ => true

structure State (σ : Type) where
  /-- `_sqlx_migrations`, once it exists. -/
  table : Option (List Row) := none
  schema : σ
  /-- The call whose session has the advisory lock. -/
  lock : Option ℕ := none
  calls : ℕ → Option (Phase σ) := fun _ => none

/-- How a statement ends: it is done, it has failed, or it is done and its answer
is lost. -/
inductive Answer
  | done
  | failed
  | lost
  deriving DecidableEq

inductive Action
  /-- `run_migrations_up_to`; `run_migrations` passes the largest version. -/
  | call (p : ℕ) (maxVersion : ℤ)
  /-- The process dies, or its session ends. -/
  | crash (p : ℕ)
  | lock (p : ℕ)
  /-- The next statement of the call. -/
  | next (p : ℕ) (answer : Answer) (elapsed : ℕ)

def State.rows (s : State σ) : List Row := s.table.getD []

def State.goto (s : State σ) (p : ℕ) (phase : Phase σ) : State σ :=
  { s with calls := Function.update s.calls p (some phase) }

/-- The call goes on after a statement that ended with `answer`. -/
def State.proceed (s : State σ) (p : ℕ) (answer : Answer) (phase : Phase σ) (context : String) : State σ :=
  s.goto p (if answer = .done then phase else .unlocking (.error context))

/-- The row of an executed migration, with the nanoseconds it took, or `i64::MAX`. -/
def rowOf (m : Migration) (elapsed : ℕ) : Row where
  version := m.version
  description := description m.name
  checksum := migrationChecksum b m
  executionTime := min elapsed (2 ^ 63 - 1)

def statement (s : State σ) (p : ℕ) (answer : Answer) (elapsed : ℕ) : Phase σ → Option (State σ)
  | .bootstrapping maxVersion => some
      ({ s with table := if answer = Answer.failed then s.table else some s.rows }.proceed p answer
        (.validating maxVersion) "creating _sqlx_migrations table")
  | .validating maxVersion =>
    match validateApplied b s.rows with
    | .ok applied => some (s.proceed p answer (.applying maxVersion applied b.migrations) "reading migration state")
    | .error e => some (s.proceed p answer (.unlocking (.error e)) "reading migration state")
  | .applying maxVersion applied todo =>
    match nextPending maxVersion applied todo with
    | none => some (s.goto p (.unlocking (.ok ())))
    | some (m, todo) =>
      some (s.proceed p answer (.executing maxVersion applied m todo) "starting migration transaction")
  | .executing maxVersion applied m todo =>
    match b.execute m.sql s.schema with
    | some schema => some (s.proceed p answer (.recording maxVersion applied m todo schema)
        ("applying migration " ++ toString m.version))
    | none => some (s.goto p (.unlocking (.error ("applying migration " ++ toString m.version))))
  | .recording maxVersion applied m todo schema =>
    -- the version is the primary key
    if m.version ∈ s.rows.map (·.version) then some (s.goto p (.unlocking (.error "recording applied migration")))
    else some (s.proceed p answer (.committing maxVersion applied todo schema (rowOf b m elapsed))
      "recording applied migration")
  | .committing maxVersion applied todo schema row =>
    let s := if answer = .failed then s else { s with table := some (s.rows ++ [row]), schema := schema }
    some (s.proceed p answer (.applying maxVersion applied todo) "committing migration")
  -- the session ends with the call, whether or not the lock could be given back
  | .unlocking result =>
    let result := match result with
      | .ok () => if answer = .done then .ok () else .error "releasing migration advisory lock"
      | .error e => .error e
    some ({ s with lock := none }.goto p (.returned result))
  | .locking _ | .returned _ => none

def step (s : State σ) : Action → Option (State σ)
  | .call p maxVersion =>
    match s.calls p with
    | none => some (s.goto p (.locking maxVersion))
    | some _ => none
  | .crash p => some { s with
      calls := Function.update s.calls p none, lock := if s.lock = some p then none else s.lock }
  | .lock p =>
    match s.lock, s.calls p with
    | none, some (.locking maxVersion) => some ({ s with lock := some p }.goto p (.bootstrapping maxVersion))
    | _, _ => none
  | .next p answer elapsed => (s.calls p).bind (statement b s p answer elapsed)

/-! ### What the database has to be -/

def Records (m : Migration) (r : Row) : Prop :=
  r.version = m.version ∧ r.success = true ∧ r.checksum = migrationChecksum b m

/-- Execute migrations one after the other. -/
def executeAll : List Migration → σ → Option σ
  | [], schema => some schema
  | m :: ms, schema => (b.execute m.sql schema).bind (executeAll ms)

/-- The first migrations of the list are recorded, and have made the schema of
the one that was there before. -/
def Migrated (schema₀ : σ) (s : State σ) : Prop :=
  ∃ k, List.Forall₂ (Records b) (b.migrations.take k) s.rows ∧
    executeAll b (b.migrations.take k) schema₀ = some s.schema

/-- A row that is not a migration of this binary, or not as it is there. -/
def Tainted (rows : List Row) : Prop := ∃ r ∈ rows, ∀ m ∈ b.migrations, ¬ Records b m r

end

section

variable {σ : Type} {b : Binary σ}

/-! ### Reading the table -/

theorem validateRow_eq_ok {r : Row} {v : ℤ} (h : validateRow b r = .ok v) :
    v = r.version ∧ ∃ m ∈ b.migrations, Records b m r := by
  unfold validateRow at h
  split at h
  next => cases h
  next m hm =>
    have hv : m.version = r.version := by simpa using List.find?_some hm
    split_ifs at h with hs hc
    cases h
    exact ⟨rfl, m, List.mem_of_find?_eq_some hm, hv.symm, by simpa using hs, not_not.mp hc⟩

/-- A check of all rows checks each of them. -/
theorem mapM_validateRow : ∀ {rows : List Row} {vs : List ℤ}, rows.mapM (validateRow b) = .ok vs →
    vs = rows.map (·.version) ∧ ∀ r ∈ rows, ∃ m ∈ b.migrations, Records b m r
  | [], vs, h => by
    rw [List.mapM_nil] at h
    cases h
    exact ⟨rfl, fun r hr => by cases hr⟩
  | r :: rows, vs, h => by
    rw [List.mapM_cons] at h
    cases hr : validateRow b r with
    | error => simp [hr, bind, Except.bind] at h
    | ok =>
      cases hrest : rows.mapM (validateRow b) with
      | error => simp [hr, hrest, bind, Except.bind] at h
      | ok =>
        simp only [hr, hrest, bind, Except.bind, pure, Except.pure, Except.ok.injEq] at h
        obtain ⟨rfl, hm⟩ := validateRow_eq_ok hr
        obtain ⟨rfl, hrows⟩ := mapM_validateRow hrest
        exact ⟨h.symm, List.forall_mem_cons.mpr ⟨hm, hrows⟩⟩

theorem validateApplied_eq_ok {rows : List Row} {applied : List ℤ} (h : validateApplied b rows = .ok applied) :
    (∀ v, v ∈ applied ↔ v ∈ rows.map (·.version)) ∧ ∀ r ∈ rows, ∃ m ∈ b.migrations, Records b m r := by
  have hperm := List.perm_insertionSort (fun r r' : Row => r.version ≤ r'.version) rows
  obtain ⟨rfl, hrows⟩ := mapM_validateRow h
  exact ⟨fun v => (hperm.map _).mem_iff, fun r hr => hrows r (hperm.mem_iff.mpr hr)⟩

/-- The loop stops at the first migration that is not applied. -/
theorem filter_of_nextPending {maxVersion : ℤ} {applied : List ℤ} {m : Migration} {rest : List Migration} :
    ∀ {todo : List Migration}, nextPending maxVersion applied todo = some (m, rest) →
      todo.filter (fun m => decide (m.version ∉ applied)) = m :: rest.filter fun m => decide (m.version ∉ applied)
  | m' :: todo, h => by
    rw [nextPending] at h
    split_ifs at h with hmax hin
    · rw [List.filter_cons_of_neg (by simpa using hin)]
      exact filter_of_nextPending h
    · cases h
      rw [List.filter_cons_of_pos (by simpa using hin)]

theorem Records.versions {ms : List Migration} {rows : List Row} (h : List.Forall₂ (Records b) ms rows) :
    rows.map (·.version) = ms.map (·.version) := by
  induction h with
  | nil => rfl
  | cons hr _ ih => rw [List.map_cons, List.map_cons, hr.1, ih]

/-- What is not among the first `k` is the rest. -/
theorem filter_eq_drop (k : ℕ) {applied : List ℤ}
    (h : ∀ v, v ∈ applied ↔ v ∈ (b.migrations.take k).map (·.version)) :
    b.migrations.filter (fun m => decide (m.version ∉ applied)) = b.migrations.drop k := by
  have hsorted := b.sorted
  rw [← List.take_append_drop k b.migrations, List.pairwise_append] at hsorted
  obtain ⟨-, -, hlt⟩ := hsorted
  conv_lhs => rw [← List.take_append_drop k b.migrations, List.filter_append]
  have htake : (b.migrations.take k).filter (fun m => decide (m.version ∉ applied)) = [] := by
    refine List.filter_eq_nil_iff.mpr fun m hm => ?_
    have : m.version ∈ applied := (h _).mpr (List.mem_map_of_mem hm)
    simpa using this
  have hdrop : (b.migrations.drop k).filter (fun m => decide (m.version ∉ applied)) = b.migrations.drop k := by
    refine List.filter_eq_self.mpr fun m hm => ?_
    have : m.version ∉ applied := by
      rw [h]
      intro hv
      obtain ⟨m', hm', he⟩ := List.mem_map.mp hv
      exact (hlt m' hm' m hm).ne he
    simpa using this
  rw [htake, hdrop, List.nil_append]

theorem executeAll_append (ms : List Migration) (m : Migration) (schema : σ) :
    executeAll b (ms ++ [m]) schema = (executeAll b ms schema).bind (b.execute m.sql) := by
  induction ms generalizing schema with
  | nil =>
    cases hm : b.execute m.sql schema with
    | none | some => simp [executeAll, hm]
  | cons m' ms ih =>
    cases hm : b.execute m'.sql schema with
    | none => simp [executeAll, hm]
    | some => simp [executeAll, hm, ih]

/-! ### Calls in order -/

theorem State.rows_bootstrapped (s : State σ) (answer : Answer) :
    State.rows { s with table := if answer = .failed then s.table else some s.rows } = s.rows := by
  unfold State.rows
  split_ifs <;> rfl

theorem calls_update {calls : ℕ → Option (Phase σ)} {p q : ℕ} {phase : Option (Phase σ)} {x : Phase σ}
    (h : Function.update calls p phase q = some x) : q = p ∧ phase = some x ∨ q ≠ p ∧ calls q = some x := by
  by_cases hqp : q = p
  · subst hqp
    rw [Function.update_self] at h
    exact .inl ⟨rfl, h⟩
  · rw [Function.update_of_ne hqp] at h
    exact .inr ⟨hqp, h⟩

theorem calls_goto {s : State σ} {p q : ℕ} {phase x : Phase σ} (h : (s.goto p phase).calls q = some x) :
    q = p ∧ phase = x ∨ q ≠ p ∧ s.calls q = some x := by
  rcases calls_update h with ⟨hqp, hx⟩ | hne
  · exact .inl ⟨hqp, Option.some.inj hx⟩
  · exact .inr hne

/-- What a call is about to do, with the first `k` migrations recorded. -/
def PhaseInv (b : Binary σ) (schema : σ) (k : ℕ) : Phase σ → Prop
  | .applying _ applied todo => todo.filter (fun m => decide (m.version ∉ applied)) = b.migrations.drop k
  | .executing _ applied m todo =>
    m :: todo.filter (fun m => decide (m.version ∉ applied)) = b.migrations.drop k
  | .recording _ applied m todo schema' =>
    m :: todo.filter (fun m => decide (m.version ∉ applied)) = b.migrations.drop k ∧
      b.execute m.sql schema = some schema'
  | .committing _ applied todo schema' row => ∃ m,
    m :: todo.filter (fun m => decide (m.version ∉ applied)) = b.migrations.drop k ∧
      b.execute m.sql schema = some schema' ∧ Records b m row
  | _ => True

/-- Without the lock a call is about to do nothing. -/
theorem phaseInv_of_not_holds {schema : σ} {k : ℕ} {phase : Phase σ} (h : phase.holds = false) :
    PhaseInv b schema k phase := by
  cases phase with
  | locking | returned | bootstrapping | validating | unlocking => trivial
  | applying | executing | recording | committing => cases h

structure MigrationInv (b : Binary σ) (schema₀ : σ) (k : ℕ) (s : State σ) : Prop where
  exclusive : ∀ p phase, s.calls p = some phase → phase.holds = true → s.lock = some p
  recorded : List.Forall₂ (Records b) (b.migrations.take k) s.rows
  executed : executeAll b (b.migrations.take k) schema₀ = some s.schema
  phases : ∀ p phase, s.calls p = some phase → PhaseInv b s.schema k phase

namespace MigrationInv

variable {schema₀ : σ} {k : ℕ} {s s' : State σ} {p : ℕ} {phase : Phase σ}

theorem goto (hI : MigrationInv b schema₀ k s) (hlock : phase.holds = true → s.lock = some p)
    (hphase : PhaseInv b s.schema k phase) : MigrationInv b schema₀ k (s.goto p phase) := by
  refine ⟨fun q x hq hx => ?_, hI.recorded, hI.executed, fun q x hq => ?_⟩
  · rcases calls_goto hq with ⟨rfl, rfl⟩ | ⟨-, hq⟩
    · exact hlock hx
    · exact hI.exclusive q x hq hx
  · rcases calls_goto hq with ⟨rfl, rfl⟩ | ⟨-, hq⟩
    · exact hphase
    · exact hI.phases q x hq

theorem proceed (hI : MigrationInv b schema₀ k s) (hlock : s.lock = some p) (hphase : PhaseInv b s.schema k phase)
    (answer : Answer) (context : String) : MigrationInv b schema₀ k (s.proceed p answer phase context) := by
  refine hI.goto (fun _ => hlock) ?_
  split_ifs
  · exact hphase
  · trivial

/-- The other calls wait for the lock, or have returned. -/
theorem not_holds (hI : MigrationInv b schema₀ k s) (hlock : s.lock = some p) {q : ℕ} (hq : q ≠ p) {x : Phase σ}
    (hx : s.calls q = some x) : x.holds = false := by
  by_contra hh
  have := hI.exclusive q x hx (by simpa using hh)
  rw [hlock, Option.some.injEq] at this
  exact hq this.symm

/-- A committed migration is the next one of the list. -/
theorem commit {maxVersion : ℤ} {applied : List ℤ} {todo : List Migration} {schema : σ} {row : Row}
    (hI : MigrationInv b schema₀ k s) (hlock : s.lock = some p)
    (hphase : PhaseInv b s.schema k (.committing maxVersion applied todo schema row)) (answer : Answer) :
    MigrationInv b schema₀ (k + 1) (State.proceed { s with table := some (s.rows ++ [row]), schema := schema } p answer
      (.applying maxVersion applied todo) "committing migration") := by
  obtain ⟨m, hdrop, hexec, hrow⟩ := hphase
  have hk : b.migrations[k]? = some m := by
    rw [← List.head?_drop, ← hdrop, List.head?_cons]
  have htake : b.migrations.take (k + 1) = b.migrations.take k ++ [m] := by
    rw [List.take_add_one, hk]
    rfl
  have hrest : b.migrations.drop (k + 1) = todo.filter fun m => decide (m.version ∉ applied) := by
    rw [← List.drop_drop, ← hdrop]
    rfl
  have hrecorded : List.Forall₂ (Records b) (b.migrations.take (k + 1)) (s.rows ++ [row]) := by
    rw [htake]
    exact List.rel_append hI.recorded (.cons hrow .nil)
  have hexecuted : executeAll b (b.migrations.take (k + 1)) schema₀ = some schema := by
    rw [htake, executeAll_append, hI.executed]
    exact hexec
  refine ⟨fun q x hq hx => ?_, hrecorded, hexecuted, fun q x hq => ?_⟩
  · rcases calls_goto hq with ⟨rfl, -⟩ | ⟨-, hq⟩
    · exact hlock
    · exact hI.exclusive q x hq hx
  · rcases calls_goto hq with ⟨-, rfl⟩ | ⟨hqp, hq⟩
    · split_ifs
      · exact hrest.symm
      · trivial
    · exact phaseInv_of_not_holds (hI.not_holds hlock hqp hq)

theorem statement {answer : Answer} {elapsed : ℕ} (hI : MigrationInv b schema₀ k s) (hp : s.calls p = some phase)
    (h : Migrations.statement b s p answer elapsed phase = some s') : ∃ k', MigrationInv b schema₀ k' s' := by
  have hphase := hI.phases p phase hp
  cases phase with
  | locking | returned => cases h
  | bootstrapping =>
    cases h
    have hlock := hI.exclusive p _ hp rfl
    have hrows := s.rows_bootstrapped answer
    have hI' : MigrationInv b schema₀ k { s with table := if answer = Answer.failed then s.table else some s.rows } :=
      ⟨hI.exclusive, by rw [hrows]; exact hI.recorded, hI.executed, hI.phases⟩
    refine ⟨k, hI'.proceed hlock ?_ answer _⟩
    trivial
  | validating maxVersion =>
    have hlock := hI.exclusive p _ hp rfl
    simp only [Migrations.statement] at h
    split at h
    next applied ha =>
      cases h
      obtain ⟨hmem, -⟩ := validateApplied_eq_ok ha
      refine ⟨k, hI.proceed hlock ?_ answer _⟩
      apply filter_eq_drop
      intro v
      rw [hmem, Records.versions hI.recorded]
    next e he =>
      cases h
      refine ⟨k, hI.proceed hlock ?_ answer _⟩
      trivial
  | applying maxVersion applied todo =>
    have hlock := hI.exclusive p _ hp rfl
    simp only [Migrations.statement] at h
    split at h
    next =>
      cases h
      exact ⟨k, hI.goto (fun _ => hlock) trivial⟩
    next m rest hn =>
      cases h
      refine ⟨k, hI.proceed hlock ?_ answer _⟩
      exact (filter_of_nextPending hn).symm.trans hphase
  | executing maxVersion applied m todo =>
    have hlock := hI.exclusive p _ hp rfl
    simp only [Migrations.statement] at h
    split at h
    next schema hs =>
      cases h
      refine ⟨k, hI.proceed hlock ?_ answer _⟩
      exact ⟨hphase, hs⟩
    next =>
      cases h
      exact ⟨k, hI.goto (fun _ => hlock) trivial⟩
  | recording maxVersion applied m =>
    have hlock := hI.exclusive p _ hp rfl
    simp only [Migrations.statement] at h
    split_ifs at h
    · cases h
      exact ⟨k, hI.goto (fun _ => hlock) trivial⟩
    · cases h
      refine ⟨k, hI.proceed hlock ?_ answer _⟩
      exact ⟨m, hphase.1, hphase.2, rfl, rfl, rfl⟩
  | committing =>
    have hlock := hI.exclusive p _ hp rfl
    simp only [Migrations.statement] at h
    by_cases ha : answer = .failed
    · rw [if_pos ha] at h
      cases h
      exact ⟨k, hI.goto (fun _ => hlock) (by simp [ha, PhaseInv])⟩
    · rw [if_neg ha] at h
      cases h
      exact ⟨k + 1, hI.commit hlock hphase answer⟩
  | unlocking =>
    have hlock := hI.exclusive p _ hp rfl
    cases h
    refine ⟨k, fun q x hq hx => ?_, hI.recorded, hI.executed, fun q x hq => ?_⟩
    · rcases calls_goto hq with ⟨-, rfl⟩ | ⟨hqp, hq⟩
      · cases hx
      · rw [hI.not_holds hlock hqp hq] at hx
        cases hx
    · rcases calls_goto hq with ⟨-, rfl⟩ | ⟨-, hq⟩
      · trivial
      · exact hI.phases q x hq

theorem step {a : Action} (hI : MigrationInv b schema₀ k s) (h : Migrations.step b s a = some s') :
    ∃ k', MigrationInv b schema₀ k' s' := by
  cases a with
  | call p maxVersion =>
    simp only [Migrations.step] at h
    split at h
    next =>
      cases h
      exact ⟨k, hI.goto (fun hh => by cases hh) trivial⟩
    next => cases h
  | crash p =>
    cases h
    refine ⟨k, fun q x hq hx => ?_, hI.recorded, hI.executed, fun q x hq => ?_⟩
    · rcases calls_update hq with ⟨-, hn⟩ | ⟨hqp, hq⟩
      · cases hn
      · have hlock := hI.exclusive q x hq hx
        have hne : s.lock ≠ some p := by
          rw [hlock]
          exact fun he => hqp (Option.some.inj he)
        exact (if_neg hne).trans hlock
    · rcases calls_update hq with ⟨-, hn⟩ | ⟨-, hq⟩
      · cases hn
      · exact hI.phases q x hq
  | lock p =>
    simp only [Migrations.step] at h
    split at h
    next maxVersion hlock hp =>
      cases h
      -- nobody has the lock before
      have hI' : MigrationInv b schema₀ k { s with lock := some p } := by
        refine ⟨fun q x hq hx => ?_, hI.recorded, hI.executed, hI.phases⟩
        have := hI.exclusive q x hq hx
        rw [hlock] at this
        cases this
      exact ⟨k, hI'.goto (fun _ => rfl) trivial⟩
    next => cases h
  | next =>
    obtain ⟨phase, hp, hs⟩ := Option.bind_eq_some_iff.mp h
    exact hI.statement hp hs

end MigrationInv

/-! ### Calls that find another history -/

/-- The call has not got past the check of the recorded migrations. -/
def Phase.Refused : Phase σ → Prop
  | locking _ | bootstrapping _ | validating _ => True
  | unlocking result | returned result => ∃ e, result = .error e
  | _ => False

theorem validateApplied_of_tainted {rows : List Row} (h : Tainted b rows) : ∃ e, validateApplied b rows = .error e := by
  cases hv : validateApplied b rows with
  | error e => exact ⟨e, rfl⟩
  | ok =>
    obtain ⟨r, hr, hnone⟩ := h
    obtain ⟨m, hm, hrec⟩ := (validateApplied_eq_ok hv).2 r hr
    exact absurd hrec (hnone m hm)

structure RefusedInv (rows : List Row) (schema : σ) (s : State σ) : Prop where
  rows_eq : s.rows = rows
  schema_eq : s.schema = schema
  refused : ∀ p phase, s.calls p = some phase → phase.Refused

namespace RefusedInv

variable {rows : List Row} {schema : σ} {s s' : State σ} {p : ℕ} {phase : Phase σ}

theorem goto (hI : RefusedInv rows schema s) (hphase : phase.Refused) : RefusedInv rows schema (s.goto p phase) := by
  refine ⟨hI.rows_eq, hI.schema_eq, fun q x hq => ?_⟩
  rcases calls_goto hq with ⟨-, rfl⟩ | ⟨-, hq⟩
  · exact hphase
  · exact hI.refused q x hq

theorem proceed (hI : RefusedInv rows schema s) (hphase : phase.Refused) (answer : Answer) (context : String) :
    RefusedInv rows schema (s.proceed p answer phase context) := by
  apply hI.goto
  split_ifs
  · exact hphase
  · exact ⟨context, rfl⟩

theorem statement {answer : Answer} {elapsed : ℕ} (hI : RefusedInv rows schema s) (htaint : Tainted b rows)
    (hp : s.calls p = some phase) (h : Migrations.statement b s p answer elapsed phase = some s') :
    RefusedInv rows schema s' := by
  have hrefused := hI.refused p phase hp
  cases phase with
  | locking | returned => cases h
  | bootstrapping =>
    cases h
    have hrows := s.rows_bootstrapped answer
    have hI' : RefusedInv rows schema { s with table := if answer = Answer.failed then s.table else some s.rows } :=
      ⟨hrows.trans hI.rows_eq, hI.schema_eq, hI.refused⟩
    refine hI'.proceed ?_ answer _
    trivial
  | validating =>
    obtain ⟨e, he⟩ := validateApplied_of_tainted htaint
    simp only [Migrations.statement, hI.rows_eq, he] at h
    cases h
    refine hI.proceed ?_ answer _
    exact ⟨e, rfl⟩
  | applying | executing | recording | committing => exact hrefused.elim
  | unlocking =>
    obtain ⟨e, rfl⟩ := hrefused
    cases h
    refine RefusedInv.goto ⟨hI.rows_eq, hI.schema_eq, hI.refused⟩ ?_
    exact ⟨e, rfl⟩

theorem step {a : Action} (hI : RefusedInv rows schema s) (htaint : Tainted b rows)
    (h : Migrations.step b s a = some s') : RefusedInv rows schema s' := by
  cases a with
  | call p maxVersion =>
    simp only [Migrations.step] at h
    split at h
    next =>
      cases h
      refine hI.goto ?_
      trivial
    next => cases h
  | crash =>
    cases h
    refine ⟨hI.rows_eq, hI.schema_eq, fun q x hq => ?_⟩
    rcases calls_update hq with ⟨-, hn⟩ | ⟨-, hq⟩
    · cases hn
    · exact hI.refused q x hq
  | lock p =>
    simp only [Migrations.step] at h
    split at h
    next maxVersion hlock hp =>
      cases h
      refine RefusedInv.goto ⟨hI.rows_eq, hI.schema_eq, hI.refused⟩ ?_
      trivial
    next => cases h
  | next =>
    obtain ⟨phase, hp, hs⟩ := Option.bind_eq_some_iff.mp h
    exact hI.statement htaint hp hs

end RefusedInv

end

/-- **Migrations run once and in order**, whatever calls there are and wherever
they fail. From a database that is migrated up to some version, the recorded
migrations are a part of the list from its beginning, and the schema is what they
make, executed once each in the order of the list. From one with a migration
recorded that is unknown or has changed, no call executes anything, and all
return an error. -/
theorem migrations_once_in_order {σ : Type} {b : Binary σ} {schema₀ : σ} {s₀ s : State σ} {as : List Action}
    (hcalls : ∀ p, s₀.calls p = none) (h : Lts.exec (step b) s₀ as = some s) :
    (Migrated b schema₀ s₀ → Migrated b schema₀ s) ∧
    (Tainted b s₀.rows → s.rows = s₀.rows ∧ s.schema = s₀.schema ∧
      ∀ p result, s.calls p = some (.returned result) → ∃ e, result = .error e) := by
  have hall : Lts.Along (step b) (fun _ _ => True) s₀ as := .of_mem fun _ _ _ => trivial
  have hnone : ∀ p phase, s₀.calls p ≠ some phase := fun p phase hp => by
    rw [hcalls p] at hp
    cases hp
  constructor
  · rintro ⟨k, hrec, hexec⟩
    have hI₀ : ∃ k, MigrationInv b schema₀ k s₀ :=
      ⟨k, fun p x hp => absurd hp (hnone p x), hrec, hexec, fun p x hp => absurd hp (hnone p x)⟩
    have hstep : ∀ s a s', (∃ k, MigrationInv b schema₀ k s) → True → step b s a = some s' →
        ∃ k, MigrationInv b schema₀ k s' := fun _ _ _ ⟨_, hI⟩ _ hs => hI.step hs
    obtain ⟨k', hI⟩ := Lts.exec_inv hstep hI₀ hall h
    exact ⟨k', hI.recorded, hI.executed⟩
  · intro htaint
    have hI₀ : RefusedInv s₀.rows s₀.schema s₀ := ⟨rfl, rfl, fun p x hp => absurd hp (hnone p x)⟩
    have hI := Lts.exec_inv (P := fun _ _ => True) (fun _ _ _ hI _ hs => RefusedInv.step hI htaint hs) hI₀ hall h
    exact ⟨hI.rows_eq, hI.schema_eq, fun p result hp => hI.refused p _ hp⟩

/-- Migrations that append the names of their files to the schema, with the name
as its own digest. -/
def appending : Binary String :=
  compiledIn id (fun sql schema => some (schema ++ sql)) fun sql => sql.toList.map fun c => c.toNat.toUInt8

/-- One service dies in the transaction of the first migration, the other one
goes through up to the second. -/
def oneDies : List Action := List.flatten
  [[.call 0 1, .call 1 2, .lock 0], List.replicate 4 (.next 0 .done 3), [.crash 0, .lock 1],
    List.replicate 10 (.next 1 .done 3), [.next 1 .failed 3]]

/-- The first migration is recorded with another text. -/
def changedText : State String where
  table := some [{ version := 1, description := "tables", checksum := [0], executionTime := 3 }]
  schema := "tables, changed;"

theorem migrations_once_in_order_crash :
    (∃ s ∈ Lts.exec (step appending) { schema := "" } oneDies, (s.rows.map fun r => r.version) = [1, 2] ∧
      Migrated appending "" s) ∧
    ∃ s ∈ Lts.exec (step appending) changedText [.call 0 9, .lock 0, .next 0 .done 0, .next 0 .done 0],
      s.schema = "tables, changed;" := by
  refine ⟨?_, ?_⟩
  · obtain ⟨s, hs, hrows⟩ : ∃ s ∈ Lts.exec (step appending) { schema := "" } oneDies,
        (s.rows.map fun r => r.version) = [1, 2] := by decide +kernel
    have hfresh : Migrated appending "" { schema := "" } := ⟨0, .nil, rfl⟩
    exact ⟨s, hs, hrows, (migrations_once_in_order (fun _ => rfl) hs).1 hfresh⟩
  · obtain ⟨s, hs⟩ : ∃ s, Lts.exec (step appending) changedText
        [.call 0 9, .lock 0, .next 0 .done 0, .next 0 .done 0] = some s :=
      Option.isSome_iff_exists.mp (by decide +kernel)
    have hother : ∀ m ∈ appending.migrations, [0] ≠ migrationChecksum appending m := by decide +kernel
    have htaint : Tainted appending changedText.rows :=
      ⟨_, List.mem_cons_self, fun m hm hrec => hother m hm hrec.2.2⟩
    have hboth : (Migrated appending "" changedText → Migrated appending "" s) ∧ _ :=
      migrations_once_in_order (fun _ => rfl) hs
    exact ⟨s, hs, (hboth.2 htaint).2.1⟩

end Circus.Migrations
