/-
# One-at-a-time jobsets

The loop asks `has_running_builds` before it dispatches a build of a
one-at-a-time jobset, and the build starts to run later, in its task.
`one_at_a_time`: at most one build of the jobset is running, in every run in
which that question is asked only when no task of the jobset is on its way to
`start`, and `mark_build_done` starts a build of the jobset only when none of
it is running or on its way (`OneByOne`).

The loop sees neither the tasks it has dispatched nor, in `mark_build_done`,
the builds that run: `poll_dispatches_two` is one poll over two pending
builds.
-/
import Circus.Runner.Tasks

namespace Circus.Runner

open Lts

/-- No task of the jobset is on its way to `start`. -/
def State.NoneWaiting (jobsetId : Uuid) (s : State) : Prop :=
  ∀ t task, s.task t = some task → s.db.inJobset jobsetId task.build.toJob = true → task.phase.isWaiting = false

instance (jobsetId : Uuid) (s : State) : Decidable (s.NoneWaiting jobsetId) := by
  unfold State.NoneWaiting; infer_instance

theorem State.NoneWaiting.not_waiting {jobsetId : Uuid} {s : State} (h : s.NoneWaiting jobsetId) {t : ℕ} {task : Task}
    (ht : s.task t = some task) (hj : s.db.inJobset jobsetId task.build.toJob = true) :
    task.phase.isWaiting ≠ true := by
  rw [h t task ht hj]
  decide

theorem LoopPhase.not_marked {p : LoopPhase} {b b' : Build} (h : b ∈ p.dispatched) : b' ∉ p.marked := by
  cases p <;> simp_all [LoopPhase.marked, LoopPhase.dispatched]

/-- The loop checks, and `mark_build_done` starts, a build of the jobset only
when nothing of it is on its way. -/
def OneByOne (jobsetId : Uuid) (s : State) : Action → Prop
  | .loop _ =>
    (∀ b ∈ s.loop.phase.checked, s.db.inJobset jobsetId b.toJob = true → s.NoneWaiting jobsetId) ∧
    ∀ b ∈ s.loop.phase.marked, s.db.inJobset jobsetId b.toJob = true →
      s.NoneWaiting jobsetId ∧ Jobsets.hasRunningBuilds jobsetId s.db = false
  | _ => True

instance (jobsetId : Uuid) (s : State) (a : Action) : Decidable (OneByOne jobsetId s a) := by
  induction a using Action.casesOn <;> dsimp only [OneByOne] <;> infer_instance

/-- At most one build of the jobset is running, or on its way to `start`. -/
structure Single (jobsetId : Uuid) (s : State) : Prop where
  copies : Copies s
  jobset : ∃ j, s.db.jobsets.get jobsetId = some j ∧ j.state = .oneAtATime
  running : ∀ k k', s.db.RunningIn jobsetId k → s.db.RunningIn jobsetId k' → k = k'
  waiting : ∀ t t' task task', s.task t = some task → s.task t' = some task' →
    s.db.inJobset jobsetId task.build.toJob = true → s.db.inJobset jobsetId task'.build.toJob = true →
    task.phase.isWaiting = true → task'.phase.isWaiting = true → t = t'
  either : s.NoneWaiting jobsetId ∨ ∀ k, ¬ s.db.RunningIn jobsetId k
  dispatch : ∀ b ∈ s.loop.phase.dispatched, s.db.inJobset jobsetId b.toJob = true →
    s.NoneWaiting jobsetId ∧ ∀ k, ¬ s.db.RunningIn jobsetId k

section Step

variable {cfg : Config} {jobsetId : Uuid} {s s' : State} {a : Action}

/-- A build that is running after a step was so before, or has just been
started, by a task or by the loop. -/
theorem running_of_step (hc : Copies s) (h : step cfg s a = some s') {k : Uuid} (hk : s'.db.RunningIn jobsetId k) :
    s.db.RunningIn jobsetId k ∨ s'.db.status k ≠ s.db.status k ∧
      ((∃ t task free, a = .task t (.claim free) ∧ s.task t = some task ∧ task.phase.isWaiting = true ∧
        task.build.id = k ∧ s.db.inJobset jobsetId task.build.toJob = true) ∨
      ∃ env, a = .loop env ∧ ∃ b ∈ s.loop.phase.marked, b.id = k ∧ s.db.inJobset jobsetId b.toJob = true) := by
  obtain ⟨hs, j, hj, hin⟩ := hk
  have hf := step_frame h
  rw [hf.job] at hj
  rw [hf.inJobset] at hin
  have hcopy : ∀ {b : Build}, IsCopy s.db b → b.id = k → s.db.inJobset jobsetId b.toJob = true := by
    rintro b hb rfl
    rw [← Option.some.inj (hj.symm.trans hb)]
    exact hin
  rcases step_status h k with heq | ⟨st, st', h1, h2, hm⟩
  · exact .inl ⟨heq ▸ hs, j, hj, hin⟩
  · obtain rfl : st' = .running := Option.some.inj (h2.symm.trans hs)
    generalize hq : BuildStatus.running = q at hm
    cases hm with
    | claim t task free ha ht hp hk =>
      exact .inr ⟨by simp [h1, h2],
        Or.inl ⟨t, task, free, ha, ht, by rw [hp]; rfl, hk, hcopy (hc.tasks t task ht) hk⟩⟩
    | doneStart env b c ha hp hk =>
      exact .inr ⟨by simp [h1, h2],
        Or.inr ⟨env, ha, b, by rw [hp]; rfl, hk, hcopy (hc.current b (by rw [hp]; rfl)) hk⟩⟩
    | requeue | retry | cancel | sweep | restart => cases hq
    | complete _ _ _ _ _ _ _ _ _ hf => subst hq; cases hf
    | doneComplete _ _ c => have := c.finished; rw [← hq] at this; cases this

/-- A task that is on its way after a step was so before, or has just been
dispatched. If the step was its own claim, the claim found nothing. -/
theorem waiting_of_step (h : step cfg s a = some s') {t : ℕ} {task' : Task} (ht' : s'.task t = some task')
    (hw : task'.phase.isWaiting = true) :
    (∃ task, s.task t = some task ∧ task'.build.toJob = task.build.toJob ∧ task.phase.isWaiting = true ∧
      ∀ free, a = .task t (.claim free) → s'.db = s.db) ∨
    ∃ env, a = .loop env ∧ task'.build ∈ s.loop.phase.dispatched ∧ t = s.nextTask := by
  rcases task_of_step h ht' with ⟨task, ht, hj, -, ⟨hp, ha⟩ | ⟨ev, ha, hm⟩⟩ | ⟨env, b, ha, hp, hn, rfl⟩
  · exact .inl ⟨task, ht, hj, by rw [← hp, hw], fun free hf => absurd hf (ha _)⟩
  · obtain ⟨hw₀, hdb⟩ := hm.to_waiting hw
    refine .inl ⟨task, ht, hj, hw₀, fun free hf => ?_⟩
    rcases hdb with hdb | ⟨_, _, _, rfl, -⟩
    · exact hdb
    · rw [ha] at hf
      cases hf
  · exact .inr ⟨env, ha, by rw [hp]; rfl, hn⟩

/-- The loop is about to dispatch a build after a step only if it was before,
or has just passed the check. -/
theorem dispatched_of_step (h : step cfg s a = some s') {b : Build} (hb : b ∈ s'.loop.phase.dispatched) :
    b ∈ s.loop.phase.dispatched ∧ a.isLoop = false ∨
    (∃ env, a = .loop env) ∧ b ∈ s.loop.phase.checked ∧ s'.tasks = s.tasks ∧ s'.db = s.db ∧
      ∃ j, s.db.jobsetOf b = some j ∧ ¬ (j.state = .oneAtATime ∧ Jobsets.hasRunningBuilds j.id s.db = true) := by
  rcases step_loop h with ⟨-, ha⟩ | ⟨hl, ha⟩
  · cases step_cases h with
    | loop env _ hm =>
      refine .inr ⟨⟨env, rfl⟩, ?_⟩
      cases hm with
      | quiet _ hq =>
        cases hq with
        | pass l _ hp =>
          simp only at hb
          generalize hq : s.loop.phase = q at hp
          generalize hr : l.phase = r at hp hb
          cases hp with
          | free b' j hj hn =>
            cases hb
            exact ⟨rfl, rfl, rfl, j, hj, hn⟩
          | _ => cases hb
        | take l b' iv _ _ hp =>
          simp only [hp, firstFilter] at hb
          split_ifs at hb <;> cases hb
      | list l _ _ _ hp => simp only [hp] at hb; cases hb
      | sweep _ _ l _ _ hp => rcases hp with hp | hp <;> simp only [hp] at hb <;> cases hb
      | dispatch | doneStart | doneComplete => cases hb
    | loopError _ _ hd => rw [hd] at hb; cases hb
    | _ => cases ha
  · exact .inl ⟨hl ▸ hb, ha⟩

/-- A build of the jobset that starts to run finds nothing of it running or,
afterwards, on its way. -/
theorem Single.starts (hI : Single jobsetId s) (hG : OneByOne jobsetId s a) (h : step cfg s a = some s') {k : Uuid}
    (hk : s'.db.RunningIn jobsetId k) (hnew : ¬ s.db.RunningIn jobsetId k) :
    (∀ k', ¬ s.db.RunningIn jobsetId k') ∧ (∀ k', s'.db.RunningIn jobsetId k' → k' = k) ∧
      s'.NoneWaiting jobsetId := by
  have hin := (step_frame h).inJobset jobsetId
  rcases Runner.running_of_step hI.copies h hk with
    hr | ⟨hne, ⟨t, task, free, rfl, ht, hw, rfl, hj⟩ | ⟨env, rfl, b, hb, rfl, hj⟩⟩
  · exact absurd hr hnew
  · -- the task that claims was the one on its way
    have hnone : ∀ k', ¬ s.db.RunningIn jobsetId k' := by
      rcases hI.either with hn | hn
      · exact absurd hw (hn.not_waiting ht hj)
      · exact hn
    refine ⟨hnone, fun k' hk' => ?_, fun t' task' ht' hj' => ?_⟩
    · rcases Runner.running_of_step hI.copies h hk' with hr | ⟨-, ⟨t₁, task₁, _, ha, ht₁, -, rfl, -⟩ | ⟨_, ha, -⟩⟩
      · exact absurd hr (hnone k')
      · cases ha
        rw [ht] at ht₁
        cases ht₁
        rfl
      · cases ha
    · by_contra hw'
      rcases Runner.waiting_of_step h ht' (by simpa using hw') with ⟨task₁, ht₁, hj₁, hw₁, hdb⟩ | ⟨_, ha, -⟩
      · rw [hin, hj₁] at hj'
        obtain rfl := hI.waiting t t' task task₁ ht ht₁ hj hj' hw hw₁
        exact hne (by rw [hdb free rfl])
      · cases ha
  · obtain ⟨hnw, hnr⟩ := hG.2 b hb hj
    rw [Jobsets.hasRunningBuilds_eq_false] at hnr
    refine ⟨hnr, fun k' hk' => ?_, fun t' task' ht' hj' => ?_⟩
    · rcases Runner.running_of_step hI.copies h hk' with hr | ⟨-, ⟨_, _, _, ha, -⟩ | ⟨_, -, b', hb', rfl, -⟩⟩
      · exact absurd hr (hnr k')
      · cases ha
      · rw [hb] at hb'
        cases hb'
        rfl
    · by_contra hw'
      rcases Runner.waiting_of_step h ht' (by simpa using hw') with ⟨task₁, ht₁, hj₁, hw₁, -⟩ | ⟨_, -, hd, -⟩
      · rw [hin, hj₁] at hj'
        exact hnw.not_waiting ht₁ hj' hw₁
      · exact LoopPhase.not_marked hd hb

/-- A task of the jobset that is dispatched is the only one on its way, and
nothing of the jobset is running. -/
theorem Single.dispatches (hI : Single jobsetId s) (h : step cfg s a = some s') {t : ℕ} {task' : Task}
    (ht' : s'.task t = some task') (hj : s'.db.inJobset jobsetId task'.build.toJob = true)
    (hw : task'.phase.isWaiting = true) : (∃ task, s.task t = some task ∧ task'.build.toJob = task.build.toJob ∧
      task.phase.isWaiting = true) ∨
    t = s.nextTask ∧ s.NoneWaiting jobsetId ∧ ∀ k, ¬ s'.db.RunningIn jobsetId k := by
  rcases Runner.waiting_of_step h ht' hw with ⟨task, ht, hj', hw', -⟩ | ⟨env, rfl, hd, hn⟩
  · exact .inl ⟨task, ht, hj', hw'⟩
  · rw [(step_frame h).inJobset] at hj
    obtain ⟨hnw, hnr⟩ := hI.dispatch _ hd hj
    refine .inr ⟨hn, hnw, fun k hk => ?_⟩
    rcases Runner.running_of_step hI.copies h hk with hr | ⟨-, ⟨_, _, _, ha, -⟩ | ⟨_, -, b, hb, -⟩⟩
    · exact hnr k hr
    · cases ha
    · exact LoopPhase.not_marked hd hb

theorem Single.running_of_step (hI : Single jobsetId s) (hG : OneByOne jobsetId s a) (h : step cfg s a = some s')
    (k k' : Uuid) (hk : s'.db.RunningIn jobsetId k) (hk' : s'.db.RunningIn jobsetId k') : k = k' := by
  by_cases hr : s.db.RunningIn jobsetId k
  · by_cases hr' : s.db.RunningIn jobsetId k'
    · exact hI.running k k' hr hr'
    · exact (hI.starts hG h hk' hr').2.1 k hk
  · exact ((hI.starts hG h hk hr).2.1 k' hk').symm

theorem Single.waiting_of_step (hI : Single jobsetId s) (h : step cfg s a = some s') (t t' : ℕ) (task task' : Task)
    (ht : s'.task t = some task) (ht' : s'.task t' = some task')
    (hj : s'.db.inJobset jobsetId task.build.toJob = true) (hj' : s'.db.inJobset jobsetId task'.build.toJob = true)
    (hw : task.phase.isWaiting = true) (hw' : task'.phase.isWaiting = true) : t = t' := by
  have hin := (step_frame h).inJobset jobsetId
  rcases hI.dispatches h ht hj hw with ⟨task₀, ht₀, hj₀, hw₀⟩ | ⟨hn, hnw, -⟩ <;>
    rcases hI.dispatches h ht' hj' hw' with ⟨task₁, ht₁, hj₁, hw₁⟩ | ⟨hn', hnw', -⟩
  · exact hI.waiting t t' task₀ task₁ ht₀ ht₁ (by rw [← hj₀, ← hin, hj]) (by rw [← hj₁, ← hin, hj']) hw₀ hw₁
  · exact absurd hw₀ (hnw'.not_waiting ht₀ (by rw [← hj₀, ← hin, hj]))
  · exact absurd hw₁ (hnw.not_waiting ht₁ (by rw [← hj₁, ← hin, hj']))
  · exact hn.trans hn'.symm

theorem Single.either_of_step (hI : Single jobsetId s) (hG : OneByOne jobsetId s a) (h : step cfg s a = some s') :
    s'.NoneWaiting jobsetId ∨ ∀ k, ¬ s'.db.RunningIn jobsetId k := by
  by_cases hr : ∃ k, s'.db.RunningIn jobsetId k
  · obtain ⟨k, hk⟩ := hr
    left
    by_cases hold : s.db.RunningIn jobsetId k
    · intro t task ht hj
      by_contra hw
      rcases hI.dispatches h ht hj (by simpa using hw) with ⟨task₀, ht₀, hj₀, hw₀⟩ | ⟨-, -, hnr⟩
      · rcases hI.either with hn | hn
        · exact hn.not_waiting ht₀ (by rw [← hj₀, ← (step_frame h).inJobset, hj]) hw₀
        · exact hn k hold
      · exact hnr k hk
    · exact (hI.starts hG h hk hold).2.2
  · exact .inr fun k hk => hr ⟨k, hk⟩

/-- The build the loop is about to dispatch has nothing of its jobset before it:
not since the check, by any step of the others, and not at the check itself. -/
theorem Single.dispatch_of_step (hI : Single jobsetId s) (hG : OneByOne jobsetId s a) (h : step cfg s a = some s')
    (b : Build) (hb : b ∈ s'.loop.phase.dispatched) (hbj : s'.db.inJobset jobsetId b.toJob = true) :
    s'.NoneWaiting jobsetId ∧ ∀ k, ¬ s'.db.RunningIn jobsetId k := by
  have hin := (step_frame h).inJobset jobsetId
  rw [hin] at hbj
  rcases dispatched_of_step h hb with ⟨hb, ha⟩ | ⟨⟨env, rfl⟩, hb, hts, hdb, j', hj', hnr⟩
  · obtain ⟨hnw, hnr⟩ := hI.dispatch b hb hbj
    refine ⟨fun t task ht hjt => ?_, fun k hk => ?_⟩
    · by_contra hw
      rcases Runner.waiting_of_step h ht (by simpa using hw) with ⟨task₀, ht₀, hj₀, hw₀, -⟩ | ⟨_, rfl, -⟩
      · exact hnw.not_waiting ht₀ (by rw [← hj₀, ← hin, hjt]) hw₀
      · cases ha
    · rcases Runner.running_of_step hI.copies h hk with hr | ⟨-, ⟨t, task, _, -, ht, hw, -, hjt⟩ | ⟨_, rfl, -⟩⟩
      · exact hnr k hr
      · exact hnw.not_waiting ht hjt hw
      · cases ha
  · obtain ⟨j, hj, hstate⟩ := hI.jobset
    obtain ⟨rfl, hget⟩ := Db.inJobset_jobsetOf hj' jobsetId hbj
    rw [hj] at hget
    cases hget
    refine ⟨fun t task ht hjt => ?_, ?_⟩
    · unfold State.task at ht
      rw [hts] at ht
      exact hG.1 b hb hbj t task ht (hin _ ▸ hjt)
    · rw [hdb]
      exact Jobsets.hasRunningBuilds_eq_false.mp (by simpa [hstate] using hnr)

theorem step_single (hI : Single jobsetId s) (hG : OneByOne jobsetId s a) (h : step cfg s a = some s') :
    Single jobsetId s' where
  copies := step_copies hI.copies h
  jobset := by rw [(step_frame h).jobsets]; exact hI.jobset
  running := hI.running_of_step hG h
  waiting := hI.waiting_of_step h
  either := hI.either_of_step hG h
  dispatch := hI.dispatch_of_step hG h

end Step

theorem Fresh.single {cfg : Config} {jobsetId : Uuid} {s : State} (h : Fresh cfg s) {j : Jobset}
    (hj : s.db.jobsets.get jobsetId = some j) (hs : j.state = .oneAtATime)
    (hr : ∀ k k', s.db.RunningIn jobsetId k → s.db.RunningIn jobsetId k' → k = k') : Single jobsetId s := by
  have ht : ∀ t, s.task t = none := fun t => by simp [State.task, h.tasks]
  refine ⟨h.copies, ⟨j, hj, hs⟩, hr, ?_, Or.inl ?_, ?_⟩
  · intro t t' task task' h₀
    simp [ht] at h₀
  · intro t task h₀
    simp [ht] at h₀
  · simp [h.loop, LoopPhase.dispatched]

/-- **One build at a time.** In every state of a run in which a build of the
one-at-a-time jobset is checked or settled only when nothing of it is on its
way, at most one build of the jobset is running. -/
theorem one_at_a_time {cfg : Config} {jobsetId : Uuid} {s₀ s : State} {as : List Action} {j : Jobset}
    (h₀ : Fresh cfg s₀) (hj : s₀.db.jobsets.get jobsetId = some j) (hs : j.state = .oneAtATime)
    (hr : ∀ k k', s₀.db.RunningIn jobsetId k → s₀.db.RunningIn jobsetId k' → k = k')
    (hG : Along (step cfg) (OneByOne jobsetId) s₀ as) (h : exec (step cfg) s₀ as = some s) (k k' : Uuid)
    (hk : s.db.RunningIn jobsetId k) (hk' : s.db.RunningIn jobsetId k') : k = k' :=
  (exec_inv (fun _ _ _ hI hG h => step_single hI hG h) (h₀.single hj hs hr) hG h).running k k' hk hk'

/-- Two pending builds of a one-at-a-time jobset. -/
def twoBuilds : Db :=
  .ofRows [{ id := 1, state := .oneAtATime }] [{ id := 1, jobsetId := 1 }]
    [{ id := 1, evaluationId := 1, drvPath := "a.drv" }, { id := 2, evaluationId := 1, drvPath := "b.drv" }] [] []
    (by decide)

theorem twoBuilds_idle (k : Uuid) : ¬ twoBuilds.RunningIn 1 k :=
  Jobsets.hasRunningBuilds_eq_false.mp (by decide) k

/-- The first build claims before the second is checked, which is skipped and
dispatched on the next poll. -/
def inTurn : List Action := loops 12 ++ claims 0 ++ loops 7 ++ succeeds 0 3 ++ loops 11 ++ claims 1

theorem one_at_a_time_inTurn : ∃ s ∈ exec (step {}) (.start {} twoBuilds) inTurn,
    s.db.RunningIn 1 2 ∧ ∀ k, s.db.RunningIn 1 k → k = 2 := by
  obtain ⟨s, hs, hr⟩ : ∃ s ∈ exec (step {}) (.start {} twoBuilds) inTurn, s.db.RunningIn 1 2 := by decide
  exact ⟨s, hs, hr, fun k hk => one_at_a_time (fresh_start {} twoBuilds) rfl rfl
    (fun k _ hk => absurd hk (twoBuilds_idle k)) (by decide) hs k 2 hk hr⟩

/-- One poll dispatches both builds, since neither is running yet. -/
theorem poll_dispatches_two : Fresh {} (.start {} twoBuilds) ∧ (∀ k, ¬ twoBuilds.RunningIn 1 k) ∧
    ∃ s ∈ exec (step {}) (.start {} twoBuilds) (loops 20 ++ claims 0 ++ claims 1),
      s.db.RunningIn 1 1 ∧ s.db.RunningIn 1 2 :=
  ⟨fresh_start {} twoBuilds, twoBuilds_idle, by decide⟩

end Circus.Runner
