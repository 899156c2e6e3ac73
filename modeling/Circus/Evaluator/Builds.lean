/-
# The builds of an evaluation

`crates/evaluator/src/builds.rs`: the build and dependency rows that
`create_builds_from_eval` makes of what Nix found. The rows are written in one
transaction, which also finishes the evaluation; `Db.record` is what its
commit makes visible. Ids are handed out at the commit, where alone they can
be seen.
-/
import Circus.Evaluator.Db

namespace Circus.Evaluator

/-- `nix::NixJob`, with what `detect_fod` and the derivation say about it. -/
structure NixJob where
  name : String
  drvPath : String
  system : Option String := none
  inputDrvs : Option (List String) := none
  constituents : Option (List String) := none
  isFod : Bool := false
  requiredFeatures : List String := []
  deriving DecidableEq, Repr

def systemAllowed (system : Option String) (allowed : Option (List String)) : Bool :=
  match system, allowed with
  | some system, some allowed => allowed.contains system
  | _, _ => true

/-- The entry of a map filled with `insert` in this order. -/
def lastEntry (entries : List (String × Uuid)) (key : String) : Option Uuid :=
  (entries.reverse.find? fun e => decide (e.1 = key)).map (·.2)

/-- One candidate of `resolve_dependency_pairs`. -/
def pushPair (buildId : Uuid) (pairs : List (Uuid × Uuid)) (dep : Option Uuid) : List (Uuid × Uuid) :=
  match dep with
  | some dep => if dep ≠ buildId ∧ (buildId, dep) ∉ pairs then pairs ++ [(buildId, dep)] else pairs
  | none => pairs

def resolveDependencyPairs (jobs : List NixJob) (buildIds : List Uuid) : List (Uuid × Uuid) :=
  let drvToBuild := (jobs.map (·.drvPath)).zip buildIds
  let nameToBuild := (jobs.map (·.name)).zip buildIds
  (jobs.zip buildIds).foldl (fun pairs job =>
    (job.1.constituents.getD []).foldl (fun pairs n => pushPair job.2 pairs (lastEntry nameToBuild n))
      ((job.1.inputDrvs.getD []).foldl (fun pairs d => pushPair job.2 pairs (lastEntry drvToBuild d)) pairs)) []

/-- Both ends of every pair are among `ids`. -/
def PairsIn (ids : List Uuid) (pairs : List (Uuid × Uuid)) : Prop := ∀ d ∈ pairs, d.1 ∈ ids ∧ d.2 ∈ ids

variable {ids : List Uuid}

theorem lastEntry_mem {keys : List String} {key : String} {id : Uuid}
    (h : lastEntry (keys.zip ids) key = some id) : id ∈ ids := by
  obtain ⟨e, he, rfl⟩ := Option.map_eq_some_iff.mp h
  exact (List.of_mem_zip (List.mem_reverse.mp (List.mem_of_find?_eq_some he))).2

/-- The lookups of `resolve_dependency_pairs`, in order, each with the build it is made for. -/
def candidates (jobs : List NixJob) (buildIds : List Uuid) : List (Uuid × Option Uuid) :=
  (jobs.zip buildIds).flatMap fun job =>
    (job.1.inputDrvs.getD []).map (fun d => (job.2, lastEntry ((jobs.map (·.drvPath)).zip buildIds) d)) ++
      (job.1.constituents.getD []).map fun n => (job.2, lastEntry ((jobs.map (·.name)).zip buildIds) n)

theorem resolveDependencyPairs_eq (jobs : List NixJob) (ids : List Uuid) :
    resolveDependencyPairs jobs ids = (candidates jobs ids).foldl (fun pairs c => pushPair c.1 pairs c.2) [] := by
  simp only [resolveDependencyPairs, candidates, List.foldl_flatMap, List.foldl_append, List.foldl_map]

variable {p : Uuid × Uuid}

theorem mem_pushPair {buildId : Uuid} {pairs : List (Uuid × Uuid)} {dep : Option Uuid} :
    p ∈ pushPair buildId pairs dep ↔ p ∈ pairs ∨ (p.1 = buildId ∧ dep = some p.2) ∧ p.2 ≠ p.1 := by
  unfold pushPair
  cases dep with
  | none => simp
  | some d =>
    by_cases h : d ≠ buildId ∧ (buildId, d) ∉ pairs
    · simp only [if_pos h, List.mem_append, List.mem_singleton, Option.some.injEq]
      refine or_congr_right ⟨?_, ?_⟩
      · rintro rfl
        exact ⟨⟨rfl, rfl⟩, h.1⟩
      · rintro ⟨⟨rfl, rfl⟩, -⟩
        rfl
    · simp only [if_neg h, Option.some.injEq]
      refine ⟨.inl, fun hp => hp.elim id ?_⟩
      rintro ⟨⟨rfl, rfl⟩, hne⟩
      by_contra hm
      exact h ⟨hne, hm⟩

theorem mem_foldl_pushPair : ∀ {cs : List (Uuid × Option Uuid)} {pairs : List (Uuid × Uuid)},
    p ∈ cs.foldl (fun pairs c => pushPair c.1 pairs c.2) pairs ↔ p ∈ pairs ∨ (p.1, some p.2) ∈ cs ∧ p.2 ≠ p.1
  | [], pairs => by simp
  | c :: cs, pairs => by
    rw [List.foldl_cons, mem_foldl_pushPair, mem_pushPair, List.mem_cons, or_assoc, or_and_right]
    refine or_congr_right (or_congr_left (and_congr_left fun _ => ?_))
    rw [Prod.ext_iff]
    exact and_congr_right fun _ => eq_comm

variable {jobs : List NixJob}

/-- **The pairs** are what is looked up and found, but for a build with itself. -/
theorem mem_resolveDependencyPairs :
    p ∈ resolveDependencyPairs jobs ids ↔ (p.1, some p.2) ∈ candidates jobs ids ∧ p.2 ≠ p.1 := by
  rw [resolveDependencyPairs_eq, mem_foldl_pushPair]
  simp

theorem mem_candidates {id dep : Uuid} : (id, some dep) ∈ candidates jobs ids ↔
    ∃ job, (job, id) ∈ jobs.zip ids ∧
      ((∃ d ∈ job.inputDrvs.getD [], lastEntry ((jobs.map (·.drvPath)).zip ids) d = some dep) ∨
        ∃ n ∈ job.constituents.getD [], lastEntry ((jobs.map (·.name)).zip ids) n = some dep) := by
  simp only [candidates, List.mem_flatMap, List.mem_append, List.mem_map, Prod.mk.injEq]
  constructor
  · rintro ⟨⟨job, _⟩, hm, ⟨d, hd, rfl, h⟩ | ⟨n, hn, rfl, h⟩⟩
    · exact ⟨job, hm, .inl ⟨d, hd, h⟩⟩
    · exact ⟨job, hm, .inr ⟨n, hn, h⟩⟩
  · rintro ⟨job, hm, ⟨d, hd, h⟩ | ⟨n, hn, h⟩⟩
    · exact ⟨(job, id), hm, .inl ⟨d, hd, rfl, h⟩⟩
    · exact ⟨(job, id), hm, .inr ⟨n, hn, rfl, h⟩⟩

theorem pairsIn_resolveDependencyPairs (jobs : List NixJob) (ids : List Uuid) :
    PairsIn ids (resolveDependencyPairs jobs ids) := by
  intro p hp
  obtain ⟨job, hm, h⟩ := mem_candidates.mp (mem_resolveDependencyPairs.mp hp).1
  refine ⟨(List.of_mem_zip hm).2, ?_⟩
  rcases h with ⟨_, -, h⟩ | ⟨_, -, h⟩ <;> exact lastEntry_mem h

/-- The rows of `create_in_transaction`, with ids from `first` on. -/
def newBuilds (now : Time) (evaluationId : Uuid) : Uuid → List NixJob → List Build
  | _, [] => []
  | first, job :: jobs =>
    { id := first
      evaluationId := evaluationId
      drvPath := job.drvPath
      system := job.system
      createdAt := now
      isAggregate := job.constituents.isSome
      isFod := job.isFod
      requiredFeatures := job.requiredFeatures } :: newBuilds now evaluationId (first + 1) jobs

theorem map_id_newBuilds (now : Time) (evaluationId : Uuid) (first : Uuid) (jobs : List NixJob) :
    (newBuilds now evaluationId first jobs).map (fun b => b.id) = List.range' first jobs.length := by
  induction jobs generalizing first with
  | nil => rfl
  | cons job jobs ih => simp [newBuilds, ih, List.range'_succ]

variable {evaluationId : Uuid}

theorem evaluationId_newBuilds {now : Time} {first : Uuid} {b : Build}
    (h : b ∈ newBuilds now evaluationId first jobs) : b.evaluationId = evaluationId := by
  induction jobs generalizing first with
  | nil => cases h
  | cons job jobs ih =>
    rcases List.mem_cons.mp h with rfl | h
    · rfl
    · exact ih h

theorem id_newBuilds {now : Time} {first : Uuid} {b : Build}
    (h : b ∈ newBuilds now evaluationId first jobs) : first ≤ b.id ∧ b.id < first + jobs.length := by
  have : b.id ∈ (newBuilds now evaluationId first jobs).map (fun b => b.id) := List.mem_map_of_mem h
  rw [map_id_newBuilds, List.mem_range'_1] at this
  exact this

namespace Db

/-- The build and dependency rows of one attempt. -/
def insertBuilds (now : Time) (evaluationId : Uuid) (jobs : List NixJob) (db : Db)
    (h : (db.evaluations.get evaluationId).isSome) : Db :=
  let new := newBuilds now evaluationId db.nextId jobs
  have hnew : ∀ id ∈ List.range' db.nextId jobs.length, id ∈ (db.builds.rows ++ new).map fun b => b.id := fun id hid =>
    List.map_append ▸ List.mem_append_right _ (map_id_newBuilds now evaluationId db.nextId jobs ▸ hid)
  { db with
    builds := db.builds.append new (by
      rw [List.map_append, List.nodup_append, map_id_newBuilds]
      refine ⟨db.builds.nodup, List.nodup_range', fun a ha b hb => ?_⟩
      obtain ⟨x, hx, rfl⟩ := List.mem_map.mp ha
      rw [List.mem_range'_1] at hb
      exact ((db.build_lt x hx).trans_le hb.1).ne)
    buildDependencies := db.buildDependencies ++
      resolveDependencyPairs jobs (List.range' db.nextId jobs.length)
    nextId := db.nextId + jobs.length
    build_fk := fun b hb => by
      rcases List.mem_append.mp hb with hb | hb
      · exact db.build_fk b hb
      · rw [evaluationId_newBuilds hb]
        exact h
    dependency_fk := fun d hd => by
      rcases List.mem_append.mp hd with hd | hd
      · obtain ⟨h1, h2⟩ := db.dependency_fk d hd
        simp only [Table.get_append, Option.isSome_or, h1, h2, Bool.true_or, and_self]
      · obtain ⟨h1, h2⟩ := pairsIn_resolveDependencyPairs jobs _ d hd
        exact ⟨Table.isSome_get (hnew _ h1), Table.isSome_get (hnew _ h2)⟩
    evaluation_lt := fun e he => (db.evaluation_lt e he).trans_le (Nat.le_add_right _ _)
    build_lt := fun b hb => by
      rcases List.mem_append.mp hb with hb | hb
      · exact (db.build_lt b hb).trans_le (Nat.le_add_right _ _)
      · exact (id_newBuilds hb).2 }

/-- What the commit of `create_builds_from_eval` makes visible: the rows of the
attempt and the finished evaluation. -/
def record (now : Time) (evaluationId : Uuid) (jobs : List NixJob) (db : Db) : Db :=
  let db := (Statement.finishRunning evaluationId .completed none).run now db
  if h : (db.evaluations.get evaluationId).isSome then db.insertBuilds now evaluationId jobs h else db

theorem get_record (now : Time) (evaluationId : Uuid) (jobs : List NixJob) (db : Db) (k : Uuid) :
    (db.record now evaluationId jobs).evaluations.get k =
      (db.evaluations.get k).map ((Statement.finishRunning evaluationId .completed none).apply now) := by
  rw [← Statement.get_run]
  unfold record
  dsimp only
  split_ifs <;> rfl

theorem sourceHeads_record (now : Time) (evaluationId : Uuid) (jobs : List NixJob) (db : Db) :
    (db.record now evaluationId jobs).sourceHeads = db.sourceHeads := by
  unfold record
  dsimp only
  split_ifs <;> rfl

theorem jobsets_record (now : Time) (evaluationId : Uuid) (jobs : List NixJob) (db : Db) :
    (db.record now evaluationId jobs).jobsets = db.jobsets := by
  unfold record
  dsimp only
  split_ifs <;> rfl

/-- All rows of the attempt become visible at once. -/
theorem builds_record (now : Time) (jobs : List NixJob) {db : Db} (h : (db.evaluations.get evaluationId).isSome) :
    (db.record now evaluationId jobs).builds.rows =
      db.builds.rows ++ newBuilds now evaluationId db.nextId jobs ∧
    (db.record now evaluationId jobs).buildDependencies = db.buildDependencies ++
      resolveDependencyPairs jobs (List.range' db.nextId jobs.length) := by
  have h' : (((Statement.finishRunning evaluationId .completed none).run now db).evaluations.get
      evaluationId).isSome := by
    rw [Statement.get_run, Option.isSome_map]
    exact h
  unfold record
  dsimp only
  rw [dif_pos h']
  exact ⟨rfl, rfl⟩

theorem mem_jobs_record {now : Time} {db : Db} {j : Job}
    (h : j ∈ (db.record now evaluationId jobs).jobs) : j ∈ db.jobs ∨ j.evaluationId = evaluationId := by
  obtain ⟨b, hb, rfl⟩ := mem_jobs.mp h
  by_cases hs : (db.evaluations.get evaluationId).isSome
  · rw [(builds_record now jobs hs).1] at hb
    rcases List.mem_append.mp hb with hb | hb
    · exact .inl (mem_jobs.mpr ⟨b, hb, rfl⟩)
    · exact .inr (evaluationId_newBuilds hb)
  · refine .inl (mem_jobs.mpr ⟨b, ?_, rfl⟩)
    unfold record at hb
    dsimp only at hb
    rw [dif_neg (by rwa [Statement.get_run, Option.isSome_map])] at hb
    exact hb

end Db

end Circus.Evaluator
