/-
# Results are all or nothing

`create_builds_from_eval` writes the builds of an evaluation, their
dependencies and the status `completed` in one transaction, under the lock
that `lock_running` takes. `results_all_or_nothing`: whatever cancellations,
supersessions, sweeps, restarts and other attempts interleave with it, a step
makes no build or dependency row visible, or it is the commit of such a
transaction, on an evaluation that is running, and shows all its rows.
-/
import Circus.Evaluator.Tasks

namespace Circus.Evaluator

/-- Nothing but a commit of results adds build or dependency rows. -/
theorem jobs_subset_effect {cfg : Config} {s : State} {a : Action} {db : Db} (h : Effect cfg s a db)
    (hc : commitOf cfg s a = none) :
    (∀ j ∈ db.jobs, j ∈ s.db.jobs) ∧ ∀ d ∈ db.buildDependencies, d ∈ s.db.buildDependencies := by
  cases h with
  | none | statement => exact ⟨fun _ h => h, fun _ h => h⟩
  | create r e db hr hcr =>
    rw [hcr.jobs, hcr.buildDependencies]
    exact ⟨fun _ h => h, fun _ h => h⟩
  | restart id db hr hres =>
    rw [hres.jobs]
    exact ⟨fun _ h => List.mem_of_mem_filter h, hres.buildDependencies⟩
  | record id jobs hcommit =>
    rw [hc] at hcommit
    cases hcommit
  | configure => exact ⟨fun _ h => h, fun _ h => h⟩
  | report =>
    rw [Db.jobs_updateBuilds]
    exact ⟨fun _ h => h, fun _ h => h⟩

/-- The step is the commit of the attempt `x`, on a running evaluation: all its
build and dependency rows become visible, and the evaluation is completed. -/
def Commits (s : State) (a : Action) (s' : State) (x : Attempt) : Prop :=
  ∃ t flow e, a = .task t .next ∧ s.phase t = .recording flow x ∧
    s.db.evaluations.get x.id = some e ∧ e.status = .running ∧
    s'.db.evaluations.get x.id = some (e.setStatus .completed none) ∧
    s'.db.builds.rows = s.db.builds.rows ++ newBuilds s.now x.id s.db.nextId x.jobs ∧
    s'.db.buildDependencies = s.db.buildDependencies ++
      resolveDependencyPairs x.jobs (List.range' s.db.nextId x.jobs.length)

theorem commits_of_step {cfg : Config} {s s' : State} {a : Action} (hI : LockInv s) (h : step cfg s a = some s')
    {id : Uuid} {jobs : List NixJob} (hc : commitOf cfg s a = some (id, jobs)) :
    ∃ x, x.id = id ∧ Commits s a s' x := by
  obtain ⟨t, flow, x, rfl, hp, rfl, rfl, -⟩ := commitOf_eq hc
  obtain ⟨e, he, hr⟩ := hI.running t x.id (by simp [hp, Phase.locks])
  have hdb : s'.db = s.db.record s.now x.id x.jobs := by
    obtain ⟨m, hm, hperf⟩ := Option.bind_eq_some_iff.mp h
    cases m with
    | commit id' jobs' =>
      obtain ⟨rfl, rfl⟩ : id' = x.id ∧ jobs' = x.jobs := by simpa [commitOf, hm] using hc
      cases performed hperf with
      | committed => rfl
    | _ => simp [commitOf, hm] at hc
  have hid := Db.id_of_get he
  have hrows := Db.builds_record s.now x.jobs (show (s.db.evaluations.get x.id).isSome from he ▸ rfl)
  refine ⟨x, rfl, t, flow, e, rfl, hp, he, hr, ?_, hdb ▸ hrows.1, hdb ▸ hrows.2⟩
  rw [hdb, Db.get_record, he]
  simp [Statement.apply, Statement.selects, hid, hr, Statement.set]

/-- **Evaluation results are all-or-nothing.** In every step of every run, an
evaluation that is cancelled, failed or timed out gains no build row; and a
step that makes any build or dependency row visible is the commit of an
attempt on a running evaluation, and shows all rows of that attempt. -/
theorem results_all_or_nothing {cfg : Config} {s₀ s s' : State} {as : List Action} {a : Action} (h₀ : s₀.Idle)
    (h : exec cfg s₀ as = some s) (hs : step cfg s a = some s') :
    (∀ id e, s.db.evaluations.get id = some e →
      e.status = .cancelled ∨ e.status = .failed ∨ e.status = .timedOut →
      ∀ j ∈ s'.db.jobs, j.evaluationId = id → j ∈ s.db.jobs) ∧
    ((∀ j ∈ s'.db.jobs, j ∈ s.db.jobs) ∧ (∀ d ∈ s'.db.buildDependencies, d ∈ s.db.buildDependencies) ∨
      ∃ x, Commits s a s' x) := by
  have hI := (LockInv.of_idle h₀).exec h
  cases hc : commitOf cfg s a with
  | none =>
    have hsub := jobs_subset_effect (step_effect hs) hc
    exact ⟨fun _ _ _ _ j hj _ => hsub.1 j hj, .inl hsub⟩
  | some =>
    obtain ⟨x, hx, hcommit⟩ := commits_of_step hI hs hc
    refine ⟨fun id e he hst j hj hid => ?_, .inr ⟨x, hcommit⟩⟩
    obtain ⟨t, flow, e', -, -, he', hr, -, hrows, -⟩ := hcommit
    obtain ⟨b, hb, rfl⟩ := Db.mem_jobs.mp hj
    rw [hrows] at hb
    rcases List.mem_append.mp hb with hb | hb
    · exact Db.mem_jobs.mpr ⟨b, hb, rfl⟩
    · -- a row of the attempt: its evaluation is running, not one of these
      rw [← hid, evaluationId_newBuilds hb, he'] at he
      cases he
      simp [hr] at hst

/-- A poll of `main` has evaluated it to a job and a dependency of it, and is
about to commit. -/
def aboutToCommit : List Action :=
  [.gitPush 0 "main" (some "a"), .poll 1 0] ++ nexts 1 5 ++
    [.task 1 (.evaluated [{ name := "lib", drvPath := "lib.drv" },
      { name := "app", drvPath := "app.drv", inputDrvs := some ["lib.drv"] }] none)] ++ nexts 1 4

theorem results_all_or_nothing_aboutToCommit : ∃ s ∈ exec small (withJobset mainJobset) aboutToCommit,
    ∃ s' ∈ step small s (.task 1 .next), s.db.jobs = [] ∧ s'.db.buildDependencies = [(3, 2)] ∧
      ∃ x, Commits s (.task 1 .next) s' x := by
  obtain ⟨s, hs, s', hs', hj, hd, hd'⟩ : ∃ s ∈ exec small (withJobset mainJobset) aboutToCommit,
      ∃ s' ∈ step small s (.task 1 .next), s.db.jobs = [] ∧ s.db.buildDependencies = [] ∧
        s'.db.buildDependencies = [(3, 2)] := by decide
  refine ⟨s, hs, s', hs', hj, hd', ?_⟩
  rcases (results_all_or_nothing (idle_withJobset mainJobset) hs hs').2 with ⟨-, h⟩ | h
  · have := h (3, 2) (by simp [hd'])
    simp [hd] at this
  · exact h

/-- **Recording is isolated.** In every run, while a task records the results of
an evaluation the evaluation is running, no other task records for it, and no
step but the commit changes its row. -/
theorem recording_isolated {cfg : Config} {s₀ s s' : State} {as : List Action} {a : Action} {t : ℕ} {id : Uuid}
    (h₀ : s₀.Idle) (h : exec cfg s₀ as = some s) (hs : step cfg s a = some s') (ht : (s.phase t).locks id = true) :
    (∃ e, s.db.evaluations.get id = some e ∧ e.status = .running) ∧ (∀ t', (s.phase t').locks id = true → t' = t) ∧
      ((∀ jobs, commitOf cfg s a ≠ some (id, jobs)) → s'.db.evaluations.get id = s.db.evaluations.get id) := by
  have hI := (LockInv.of_idle h₀).exec h
  exact ⟨hI.running t id ht, fun t' ht' => hI.one t' t id ht' ht,
    hI.get_effect (step_effect hs) (State.locked_iff.mpr ⟨t, ht⟩)⟩

theorem recording_isolated_swept : ∃ s ∈ exec small (withJobset mainJobset) aboutToCommit,
    ∃ s' ∈ step small s .sweep, s'.db.evaluations.get 1 = s.db.evaluations.get 1 := by
  obtain ⟨s, hs, s', hs', hl⟩ : ∃ s ∈ exec small (withJobset mainJobset) aboutToCommit,
      ∃ s' ∈ step small s .sweep, (s.phase 1).locks 1 = true := by decide
  exact ⟨s, hs, s', hs', (recording_isolated (idle_withJobset _) hs hs' hl).2.2 nofun⟩

end Circus.Evaluator
