/-
# Mutual exclusion per build

At most one worker task is between its `start` of a build and the end of its
`run_build`, as long as nobody hands the row back under a task that is still
there: `mutual_exclusion`. Three steps can do that, and none of them looks at
the tasks: a `restart` (of a build cancelled under its worker), the orphan
sweep (which knows the registry, not the tasks), and a `claim` of a build
another task has given back and not yet left. `restart_breaks_exclusion` is a
run with the first.

The invariant (`Exclusive`) is that a task which has not given its build back
keeps the row away from `pending`, which is where `start` takes it from.
-/
import Circus.Runner.Tasks

namespace Circus.Runner

open Lts

/-- No task is live on build `b`. -/
def State.Idle (s : State) (b : Uuid) : Prop :=
  ∀ t task, s.task t = some task → task.build.id = b → task.phase.isLive = false

instance (s : State) (b : Uuid) : Decidable (s.Idle b) := by
  unfold State.Idle; infer_instance

/-- The sweep of the builds outside `ids` resets no build with a live task. -/
def State.SweepSpares (s : State) (ids : List Uuid) : Prop :=
  ∀ t task, s.task t = some task → task.phase.isLive = true →
    (s.db.builds.get task.build.id).any (Build.orphaned s.now 300) = true → task.build.id ∈ ids

instance (s : State) (ids : List Uuid) : Decidable (s.SweepSpares ids) := by
  unfold State.SweepSpares; infer_instance

/-- Every task that has given build `b` back has left. -/
def State.Settled (s : State) (b : Uuid) : Prop :=
  ∀ t task, s.task t = some task → task.build.id = b → task.phase ≠ .returning

instance (s : State) (b : Uuid) : Decidable (s.Settled b) := by
  unfold State.Settled; infer_instance

/-- The step hands no row over under a live task. -/
def NoHandOver (s : State) : Action → Prop
  | .restart b => s.Idle b
  | .loop _ => ∀ ids ∈ s.loop.phase.sweptIds, s.SweepSpares ids
  | .task t (.claim _) => ∀ task ∈ s.task t, s.Settled task.build.id
  | _ => True

structure Exclusive (s : State) : Prop where
  one : ∀ b t t', s.Live t b → s.Live t' b → t = t'
  /-- A live task that has not given its build back holds it. -/
  held : ∀ t task, s.task t = some task → task.phase.isLive = true → task.phase ≠ .returning →
    s.db.status task.build.id ≠ some .pending

theorem Fresh.exclusive {cfg : Config} {s : State} (h : Fresh cfg s) : Exclusive s where
  one b t t' := by
    rintro ⟨task, ht, -⟩
    simp [State.task, h.tasks] at ht
  held t task ht := by simp [State.task, h.tasks] at ht

section Step

variable {cfg : Config} {s s' : State} {a : Action}

/-- A task that goes on without giving its build back leaves it where it is,
claims it or finishes it. -/
theorem Move.held {task : Task} {ev : TaskEvent} {db : Db} {p : Phase} (h : Move cfg s task ev db p)
    (hp : p.isLive = true) (hr : p ≠ .returning) :
    db.status task.build.id = some .pending → s.db.status task.build.id = some .pending ∧
      task.phase.isLive = true ∧ task.phase ≠ .returning := by
  intro hpend
  cases h with
  | wait _ _ _ _ hw => rw [Phase.not_live_of_waiting hw] at hp; cases hp
  | finish => cases hp
  | giveBack => exact absurd rfl hr
  | claim free _ hs => rw [(Builds.status_of_start hs).2] at hpend; cases hpend
  | report o h =>
    rcases report_cases cfg s.now task.build o with ⟨-, h⟩ | ⟨-, -, h⟩ | ⟨st, l, out, e, p, hf, h, -⟩ <;>
      rw [h] at hr hpend
    · exact absurd rfl hr
    · exact absurd rfl hr
    · simp only [Builds.complete, Db.status_updateBuild, Build.complete, Option.map_eq_some_iff] at hpend
      obtain ⟨_, _, rfl⟩ := hpend
      cases hf
  | cacheFailure _ _ _ h hdb => rcases hdb with rfl | rfl <;> exact ⟨hpend, by rw [h]; rfl, by rw [h]; simp⟩
  | fallback h | reload h _ | loadEvaluation _ h _ | count _ _ h _ _ | channels _ _ h | promote _ _ _ h
  | promoteFails _ _ _ h => exact ⟨hpend, by rw [h]; rfl, by rw [h]; simp⟩

/-- A task that is live after a step was so before, or has just claimed its
build. -/
theorem live_of_step (h : step cfg s a = some s') {t : ℕ} {b : Uuid} (hl : s'.Live t b) :
    s.Live t b ∨ ∃ free task, a = .task t (.claim free) ∧ s.task t = some task ∧ task.build.id = b ∧
      s.db.status b = some .pending ∧ s'.db.status b = some .running := by
  obtain ⟨task', ht', hb, hl⟩ := hl
  rcases task_of_step h ht' with ⟨task, ht, hj, -, ⟨hp, -⟩ | ⟨ev, ha, hm⟩⟩ | ⟨_, _, _, _, _, rfl⟩
  · exact .inl ⟨task, ht, by rw [← hj, hb], by rw [← hp, hl]⟩
  · rw [hj] at hb
    rcases hm.to_live hl with ⟨free, rfl, -, h1, h2⟩ | hl
    · exact .inr ⟨free, task, ha, ht, hb, hb ▸ h1, hb ▸ h2⟩
    · exact .inl ⟨task, ht, hb, hl⟩
  · cases hl

/-- A build leaves the hands of a task only by the task's own move, by a sweep
or by a restart. -/
theorem pending_of_step (hI : Exclusive s) (h : step cfg s a = some s') {t : ℕ} {task : Task}
    (ht : s.task t = some task) (hl : task.phase.isLive = true) (hr : task.phase ≠ .returning)
    (hpend : s'.db.status task.build.id = some .pending) :
    (∃ ev, a = .task t ev) ∨ a = .restart task.build.id ∨
      ∃ env, a = .loop env ∧ ∃ ids ∈ s.loop.phase.sweptIds, task.build.id ∉ ids ∧
        (s.db.builds.get task.build.id).any (Build.orphaned s.now 300) = true := by
  have hown : ∀ {t₀ : ℕ} {task₀ : Task}, s.task t₀ = some task₀ → task₀.phase = .executing →
      task₀.build.id = task.build.id → t₀ = t := fun ht₀ hp hk =>
    hI.one _ _ _ ⟨_, ht₀, hk, by rw [hp]; rfl⟩ ⟨task, ht, rfl, hl⟩
  rcases step_status h task.build.id with heq | ⟨st, st', -, h2, hm⟩
  · exact absurd (heq ▸ hpend) (hI.held t task ht hl hr)
  · obtain rfl : st' = .pending := Option.some.inj (h2.symm.trans hpend)
    generalize hq : BuildStatus.pending = q at hm
    cases hm with
    | claim | doneStart | cancel => cases hq
    | complete _ _ _ _ _ _ _ _ _ hf => subst hq; cases hf
    | doneComplete _ _ c => have := c.finished; rw [← hq] at this; cases this
    | requeue t₀ task₀ ev ha ht₀ hp hk => exact .inl ⟨ev, hown ht₀ hp hk ▸ ha⟩
    | retry t₀ task₀ _ c e l ha ht₀ hp hk => exact .inl ⟨_, hown ht₀ hp hk ▸ ha⟩
    | restart _ ha => exact .inr (.inl ha)
    | sweep env ids atBoot ha hp hk ho =>
      exact .inr (.inr ⟨env, ha, ids, by rw [hp]; rfl, hk, ho⟩)

theorem step_exclusive (hI : Exclusive s) (hG : NoHandOver s a) (h : step cfg s a = some s') : Exclusive s' where
  one b t t' hl hl' := by
    -- a claim finds the row pending, so whoever was live on the build had given it back
    have hnew : ∀ {t t' free task}, a = .task t (.claim free) → s.task t = some task → task.build.id = b →
        s.db.status b = some .pending → ¬ s.Live t' b := by
      rintro t t' free task rfl ht hb hpend ⟨task', ht', hb', hl'⟩
      have hr := hG task ht t' task' ht' (hb'.trans hb.symm)
      exact hI.held t' task' ht' hl' hr (hb' ▸ hpend)
    rcases live_of_step h hl with hl | ⟨free, task, ha, ht, hb, hpend, -⟩
    · rcases live_of_step h hl' with hl' | ⟨free', task', ha', ht', hb', hpend', -⟩
      · exact hI.one b t t' hl hl'
      · exact absurd hl (hnew ha' ht' hb' hpend')
    · rcases live_of_step h hl' with hl' | ⟨free', task', ha', -⟩
      · exact absurd hl' (hnew ha ht hb hpend)
      · rw [ha] at ha'
        cases ha'
        rfl
  held t task' ht' hl hr hpend := by
    rcases task_of_step h ht' with ⟨task, ht, hj, -, ⟨hp, ha⟩ | ⟨ev, ha, hm⟩⟩ | ⟨_, _, _, _, _, rfl⟩
    · rw [hp] at hl hr
      rw [hj] at hpend
      rcases pending_of_step hI h ht hl hr hpend with ⟨ev, ha'⟩ | rfl | ⟨env, rfl, ids, hids, hid, ho⟩
      · exact ha ev ha'
      · have := hG t task ht rfl
        rw [hl] at this
        cases this
      · exact hid (hG ids hids t task ht hl ho)
    · rw [hj] at hpend
      obtain ⟨h1, h2, h3⟩ := hm.held hl hr hpend
      exact hI.held t task ht h2 h3 h1
    · cases hl

end Step

/-- **Mutual exclusion.** In every state of a run in which no step hands a row
over under a live task, at most one task is live on each build. -/
theorem mutual_exclusion {cfg : Config} {s₀ s : State} {as : List Action} (h₀ : Fresh cfg s₀)
    (hG : Along (step cfg) NoHandOver s₀ as) (h : exec (step cfg) s₀ as = some s) (b : Uuid) (t t' : ℕ)
    (ht : s.Live t b) (ht' : s.Live t' b) : t = t' :=
  (exec_inv (fun _ _ _ hI hG h => step_exclusive hI hG h) h₀.exclusive hG h).one b t t' ht ht'

instance (s : State) (a : Action) : Decidable (NoHandOver s a) := by
  unfold NoHandOver
  split <;> infer_instance

/-- The build is restarted once its first task has ended. -/
def restartedAfter : List Action := loops 12 ++ claims 0 ++ succeeds 0 5 ++ [.restart 1] ++ loops 11 ++ claims 1

theorem mutual_exclusion_restartedAfter : ∃ s ∈ exec (step {}) (.start {} oneBuild) restartedAfter,
    s.Live 1 1 ∧ ∀ t, s.Live t 1 → t = 1 := by
  obtain ⟨s, hs, hl⟩ : ∃ s ∈ exec (step {}) (.start {} oneBuild) restartedAfter, s.Live 1 1 := by decide
  exact ⟨s, hs, hl, fun t ht => mutual_exclusion (fresh_start {} oneBuild) (by decide) hs 1 t 1 ht hl⟩

/-- The build is cancelled and restarted under its task, and the next poll
dispatches another: two tasks are live on it. -/
theorem restart_breaks_exclusion : Fresh {} (.start {} oneBuild) ∧
    ∃ s ∈ exec (step {}) (.start {} oneBuild)
      (loops 12 ++ claims 0 ++ [.cancel 1, .restart 1] ++ loops 11 ++ claims 1), s.Live 0 1 ∧ s.Live 1 1 :=
  ⟨fresh_start {} oneBuild, by decide⟩

end Circus.Runner
