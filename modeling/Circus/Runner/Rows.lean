/-
# What a step does to one build

`step_row`: a step leaves the row of build `k` alone, or it is one of the
statements that move it, issued by the party that may issue it (`RowMove`);
`step_status` is the same for the status. Everything that follows a build
through a run is a case analysis on one of the two.

`step_frame`: no step changes the job of a build, its dependencies, its
evaluation or its jobset.
-/
import Circus.Runner.System

namespace Circus.Runner

/-- The row of build `k` goes from one to another by a step `a` from `s`. -/
inductive RowMove (cfg : Config) (s : State) (a : Action) (k : Uuid) : Build → Build → Prop
  | features (t : ℕ) (task : Task) (computed : Option (List String)) (persisted : Bool) (fs : List String)
      (b : Build) (ha : a = .task t (.features computed persisted)) (ht : s.task t = some task)
      (hp : task.phase.isWaiting = true) (hk : task.build.id = k) : RowMove cfg s a k b (b.setEffectiveFeatures fs)
  | claim (t : ℕ) (task : Task) (free : Bool) (b : Build) (ha : a = .task t (.claim free))
      (ht : s.task t = some task) (hp : task.phase = .claiming) (hk : task.build.id = k)
      (hb : b.status = .pending) (hf : Builds.startable free s.db b = true) : RowMove cfg s a k b (b.claim s.now)
  | doneStart (env : LoopEnv) (b₀ : Build) (c : Completion) (free : Bool) (b : Build) (ha : a = .loop env)
      (hp : s.loop.phase = .doneStart b₀ c) (hk : b₀.id = k) (hb : b.status = .pending)
      (hf : Builds.startable free s.db b = true) : RowMove cfg s a k b (b.claim s.now)
  | requeue (t : ℕ) (task : Task) (ev : TaskEvent) (b : Build) (ha : a = .task t ev) (ht : s.task t = some task)
      (hp : task.phase = .executing) (hk : task.build.id = k) (hb : b.status = .running) :
      RowMove cfg s a k b b.requeue
  | retry (t : ℕ) (task : Task) (exitCode : Option ℤ) (stderr : String) (logPath : Option String) (b : Build)
      (ha : a = .task t (.report (.failure exitCode stderr logPath))) (ht : s.task t = some task)
      (hp : task.phase = .executing) (hk : task.build.id = k)
      (hr : task.build.retryCount < task.build.maxRetries) : RowMove cfg s a k b b.retry
  | complete (t : ℕ) (task : Task) (o : Outcome) (st : BuildStatus) (l out e : Option String) (b : Build)
      (ha : a = .task t (.report o)) (ht : s.task t = some task) (hp : task.phase = .executing)
      (hk : task.build.id = k) (hf : st.isFinished = true) : RowMove cfg s a k b (b.complete s.now st l out e)
  | doneComplete (env : LoopEnv) (b₀ : Build) (c : Completion) (b : Build) (ha : a = .loop env)
      (hp : s.loop.phase = .doneComplete b₀ c) (hk : b₀.id = k) :
      RowMove cfg s a k b (b.complete s.now c.status c.logPath c.buildOutputPath c.errorMessage)
  | cancel (b : Build) (ha : a = .cancel k) (hb : b.status = .pending ∨ b.status = .running) :
      RowMove cfg s a k b (b.cancel s.now)
  | supersede (e j : Uuid) (sc : String) (b : Build) (ha : a = .cancelSuperseded e j sc)
      (hb : b.status = .pending ∨ b.status = .running) : RowMove cfg s a k b (b.cancelSuperseded s.now e)
  | sweep (env : LoopEnv) (ids : List Uuid) (atBoot : Bool) (b : Build) (ha : a = .loop env)
      (hp : s.loop.phase = .sweeping ids atBoot) (hk : k ∉ ids) (hb : b.orphaned s.now 300 = true) :
      RowMove cfg s a k b b.resetOrphaned
  | restart (b : Build) (ha : a = .restart k) (hb : b.restartable = true) : RowMove cfg s a k b b.restart

/-- Build `k` keeps its row, or it moves by a `RowMove`. -/
def RowStep (cfg : Config) (s : State) (a : Action) (k : Uuid) (s' : State) : Prop :=
  s'.db.builds.get k = s.db.builds.get k ∨
    ∃ b b', s.db.builds.get k = some b ∧ s'.db.builds.get k = some b' ∧ RowMove cfg s a k b b'

section Report

variable (cfg : Config) (now : Time) (b : Build) (db : Db)

/-- A report is a `requeue`, a `retry` while retries are left, or a `complete`
with a finished status. -/
theorem report_cases (o : Outcome) :
    (o = .noVenue ∧ report cfg now b o = (Builds.requeue b.id, .returning)) ∨
    ((∃ c e l, o = .failure c e l) ∧ b.retryCount < b.maxRetries ∧
      report cfg now b o = (Builds.retry b.id, .returning)) ∨
    ∃ st l out e p, st.isFinished = true ∧ report cfg now b o = (Builds.complete now b.id st l out e, p) ∧
      (p = .returning ∨ p = .reloading ∨ p = .cachingFailure st) ∧ (st = .succeeded → p ≠ .returning) := by
  cases o with
  | success =>
    right; right
    simp only [report]
    split
    · exact ⟨_, _, _, _, _, rfl, rfl, Or.inl rfl, by simp⟩
    · exact ⟨_, _, _, _, _, rfl, rfl, Or.inr (.inl rfl), by simp⟩
  | failure c e l =>
    right
    simp only [report]
    split
    · rename_i hr
      exact .inl ⟨⟨c, e, l, rfl⟩, hr, rfl⟩
    · refine .inr ⟨_, _, _, _, _, ?_, rfl, Or.inr (.inr rfl), by simp⟩
      cases c with
      | none => rfl
      | some c => exact BuildStatus.isFinished_fromExitCode c
  | error =>
    right; right
    exact ⟨_, _, _, _, _, rfl, rfl, Or.inr (.inl rfl), by simp⟩
  | noVenue => exact .inl ⟨rfl, rfl⟩

theorem frame_report (o : Outcome) : db.Frame ((report cfg now b o).1 db) := by
  rcases report_cases cfg now b o with ⟨-, h⟩ | ⟨-, -, h⟩ | ⟨st, l, out, e, p, -, h, -⟩ <;> rw [h]
  · exact db.frame_updateBuild b.id _ Build.toJob_requeue
  · exact db.frame_updateBuild b.id _ Build.toJob_retry
  · exact db.frame_updateBuild b.id _ (Build.toJob_complete now st l out e)

end Report

/-! ### The frame -/

variable {cfg : Config} {s : State} {task : Task}

theorem frame_move {ev : TaskEvent} {db : Db} {p : Phase} (h : Move cfg s task ev db p) : s.db.Frame db := by
  cases h with
  | wait _ _ _ _ _ hdb =>
    rcases hdb with rfl | ⟨_, _, fs, -, rfl⟩
    · exact .refl _
    · exact s.db.frame_updateBuild task.build.id _ (Build.toJob_setEffectiveFeatures fs)
  | claim free => exact Builds.frame_start free s.now task.build.id s.db
  | giveBack => exact s.db.frame_updateBuild task.build.id _ Build.toJob_requeue
  | report o => exact frame_report cfg s.now task.build s.db o
  | cacheFailure _ _ _ _ hdb => rcases hdb with rfl | rfl <;> exact ⟨fun _ => rfl, rfl, rfl, rfl⟩
  | promote => exact ⟨fun _ => rfl, rfl, rfl, rfl⟩
  | finish | fallback | reload | loadEvaluation | count | channels | promoteFails => exact .refl _

variable {s' : State}

theorem quiet_db (h : QuietMove s s') : s'.db = s.db := by
  cases h <;> rfl

theorem dispatch_db (s : State) (b : Build) : (s.dispatch b).db = s.db := by
  unfold State.dispatch
  split <;> rfl

theorem frame_loop (h : LoopMove s s') : s.db.Frame s'.db := by
  cases h with
  | quiet _ h => rw [quiet_db h]; exact .refl _
  | list => exact .refl _
  | sweep => exact s.db.frame_updateBuilds _ _ Build.toJob_resetOrphaned
  | dispatch => rw [State.setPhase, dispatch_db]; exact .refl _
  | doneStart b c free => exact Builds.frame_start free s.now b.id s.db
  | doneComplete b c =>
    exact s.db.frame_updateBuild b.id _
      (Build.toJob_complete s.now c.status c.logPath c.buildOutputPath c.errorMessage)

theorem checkerStep_db (s : State) : s.checkerStep.db = s.db := by
  obtain ⟨_, _, _, h⟩ := s.checkerStep_eq
  rw [h]

variable {a : Action}

/-- No step changes a job, a dependency, an evaluation or a jobset. -/
theorem step_frame (h : step cfg s a = some s') : s.db.Frame s'.db := by
  cases step_cases h with
  | loop env _ h => exact frame_loop h
  | loopError _ h => rw [quiet_db h]; exact .refl _
  | task t ev task _ _ h =>
    cases h with
    | move _ _ _ hm => exact frame_move hm
    | remove => exact .refl _
  | checker => rw [checkerStep_db]; exact .refl _
  | cancel id => exact s.db.frame_updateBuild id _ (Build.toJob_cancel s.now)
  | cancelSuperseded e => exact s.db.frame_updateBuilds _ _ (Build.toJob_cancelSuperseded s.now e)
  | restart id => exact s.db.frame_updateBuild id _ Build.toJob_restart
  | invalidate | cleanupExpired => exact ⟨fun _ => rfl, rfl, rfl, rfl⟩
  | tick | checkerError | drain => exact .refl _

/-! ### The rows -/

section Row

variable {cfg : Config} {s s' : State} {a : Action} {k : Uuid}

theorem RowStep.of_builds (h : s'.db.builds = s.db.builds) : RowStep cfg s a k s' :=
  Or.inl (by rw [h])

/-- An update moves each row it selects and changes. -/
theorem RowStep.of_updateBuilds {p : Build → Bool} {f : Build → Build} (hf : ∀ b, (f b).toJob = b.toJob)
    (hdb : s'.db = s.db.updateBuilds p f hf)
    (hm : ∀ b, b.id = k → p b = true → f b = b ∨ RowMove cfg s a k b (f b)) : RowStep cfg s a k s' := by
  have hg := s.db.get_updateBuilds p f hf k
  rw [← hdb] at hg
  cases hb : s.db.builds.get k with
  | none => exact .inl (by rw [hg, hb]; rfl)
  | some b =>
    rw [hb, Option.map_some] at hg
    by_cases hp : p b = true
    · rw [if_pos hp] at hg
      rcases hm b (Db.id_of_get hb) hp with h | h
      · exact .inl (by rw [hg, hb, h])
      · exact .inr ⟨b, f b, hb, hg, h⟩
    · rw [if_neg hp] at hg
      exact .inl (hg.trans hb.symm)

theorem RowStep.of_updateBuild {id : Uuid} {f : Build → Build} (hf : ∀ b, (f b).toJob = b.toJob)
    (hdb : s'.db = s.db.updateBuild id f hf) (hm : ∀ b, id = k → f b = b ∨ RowMove cfg s a k b (f b)) :
    RowStep cfg s a k s' :=
  .of_updateBuilds hf hdb fun b hb hp => hm b ((of_decide_eq_true hp).symm.trans hb)

/-- A `start` moves only its build, from pending. -/
theorem rowStep_start {id : Uuid} {free : Bool} (hdb : s'.db = (Builds.start free s.now id s.db).2)
    (hm : ∀ b, id = k → b.status = .pending → Builds.startable free s.db b = true →
      RowMove cfg s a k b (b.claim s.now)) : RowStep cfg s a k s' := by
  rcases Builds.start_cases free s.now id s.db with ⟨b, hb, hs, h⟩ | h <;> rw [h] at hdb
  · have hg := s.db.get_updateBuild id _ (Build.toJob_claim s.now) k
    simp only at hdb
    rw [← hdb] at hg
    by_cases hk : k = id
    · rw [if_pos hk, hk, hb, Option.map_some] at hg
      exact .inr ⟨b, _, hk ▸ hb, hk ▸ hg, hm b hk.symm (Builds.startable_iff.mp hs).1 hs⟩
    · rw [if_neg hk] at hg
      exact .inl hg
  · exact .of_builds (by rw [hdb])

theorem rowStep_requeue {t : ℕ} {ev : TaskEvent} (ht : s.task t = some task)
    (hp : task.phase = .executing) (hdb : s'.db = Builds.requeue task.build.id s.db) :
    RowStep cfg s (.task t ev) k s' := by
  refine .of_updateBuild Build.toJob_requeue hdb fun b hk => ?_
  by_cases hb : b.status = .running
  · exact .inr (.requeue t task ev b rfl ht hp hk hb)
  · exact .inl (by simp [Build.requeue, hb])

theorem rowStep_task {t : ℕ} {ev : TaskEvent} {p : Phase} (ht : s.task t = some task)
    (hm : Move cfg s task ev s'.db p) : RowStep cfg s (.task t ev) k s' := by
  generalize hdb : s'.db = db at hm
  cases hm with
  | wait _ _ _ hw _ h =>
    rcases h with h | ⟨computed, persisted, fs, rfl, h⟩
    · exact .of_builds (by rw [hdb, h])
    · exact .of_updateBuild (Build.toJob_setEffectiveFeatures fs) (hdb.trans h) fun b hk =>
        Or.inr (.features t task computed persisted fs b rfl ht hw hk)
  | claim free hp => exact rowStep_start hdb fun b hk hb hf => .claim t task free b rfl ht hp hk hb hf
  | giveBack hp => exact rowStep_requeue ht hp hdb
  | report o hp =>
    rcases report_cases cfg s.now task.build o with ⟨-, h⟩ | ⟨⟨c, e, l, rfl⟩, hr, h⟩ | ⟨st, l, out, e, p, hf, h, -⟩ <;>
      rw [h] at hdb
    · exact rowStep_requeue ht hp hdb
    · exact .of_updateBuild Build.toJob_retry hdb fun b hk => Or.inr (.retry t task c e l b rfl ht hp hk hr)
    · exact .of_updateBuild (Build.toJob_complete s.now st l out e) hdb fun b hk =>
        Or.inr (.complete t task o st l out e b rfl ht hp hk hf)
  | cacheFailure _ _ _ _ h =>
    rcases h with h | h
    · exact .of_builds (by rw [hdb, h])
    · exact .of_builds (by rw [hdb, h]; rfl)
  | promote => exact .of_builds (by rw [hdb]; rfl)
  | finish | fallback | reload | loadEvaluation | count | channels | promoteFails => exact .of_builds (by rw [hdb])

theorem rowStep_loop {env : LoopEnv} (h : LoopMove s s') : RowStep cfg s (.loop env) k s' := by
  cases h with
  | quiet _ h => exact .of_builds (by rw [quiet_db h])
  | list => exact .of_builds rfl
  | sweep ids atBoot l hp =>
    refine .of_updateBuilds Build.toJob_resetOrphaned rfl fun b hk hs => Or.inr ?_
    simp only [Bool.and_eq_true, Bool.not_eq_true', decide_eq_false_iff_not, hk] at hs
    exact .sweep env ids atBoot b rfl hp hs.2 hs.1
  | dispatch => exact .of_builds (by rw [State.setPhase, dispatch_db])
  | doneStart b₀ c free hp => exact rowStep_start rfl fun b hk hb hf => .doneStart env b₀ c free b rfl hp hk hb hf
  | doneComplete b₀ c hp =>
    exact .of_updateBuild (Build.toJob_complete s.now c.status c.logPath c.buildOutputPath c.errorMessage) rfl
      fun b hk => Or.inr (.doneComplete env b₀ c b rfl hp hk)

/-- **What a step does to one row.** -/
theorem step_row (h : step cfg s a = some s') (k : Uuid) : RowStep cfg s a k s' := by
  cases step_cases h with
  | loop env _ h => exact rowStep_loop h
  | loopError _ h => exact .of_builds (by rw [quiet_db h])
  | task t ev task _ ht h =>
    cases h with
    | move _ _ _ hm => exact rowStep_task ht hm
    | remove => exact .of_builds rfl
  | checker => exact .of_builds (by rw [checkerStep_db])
  | cancel =>
    refine .of_updateBuild (Build.toJob_cancel s.now) rfl fun b hk => ?_
    by_cases hb : b.status = .pending ∨ b.status = .running
    · exact .inr (.cancel b (by rw [hk]) hb)
    · exact .inl (by simp [Build.cancel, hb])
  | cancelSuperseded e j sc =>
    refine .of_updateBuilds (Build.toJob_cancelSuperseded s.now e) rfl fun b _ _ => ?_
    by_cases hb : b.status = .pending ∨ b.status = .running
    · exact .inr (.supersede e j sc b rfl hb)
    · exact .inl (by simp [Build.cancelSuperseded, hb])
  | restart =>
    refine .of_updateBuild Build.toJob_restart rfl fun b hk => ?_
    by_cases hb : b.restartable = true
    · exact .inr (.restart b (by rw [hk]) hb)
    · exact .inl (by simp [Build.restart, hb])
  | tick | checkerError | invalidate | cleanupExpired | drain => exact .of_builds rfl

end Row

/-! ### The statuses -/

/-- The status of build `k` goes from one to another by a step `a` from `s`. -/
inductive StatusMove (cfg : Config) (s : State) (a : Action) (k : Uuid) : BuildStatus → BuildStatus → Prop
  | claim (t : ℕ) (task : Task) (free : Bool) (ha : a = .task t (.claim free)) (ht : s.task t = some task)
      (hp : task.phase = .claiming) (hk : task.build.id = k) : StatusMove cfg s a k .pending .running
  | doneStart (env : LoopEnv) (b : Build) (c : Completion) (ha : a = .loop env)
      (hp : s.loop.phase = .doneStart b c) (hk : b.id = k) : StatusMove cfg s a k .pending .running
  | requeue (t : ℕ) (task : Task) (ev : TaskEvent) (ha : a = .task t ev) (ht : s.task t = some task)
      (hp : task.phase = .executing) (hk : task.build.id = k) : StatusMove cfg s a k .running .pending
  | retry (t : ℕ) (task : Task) (st : BuildStatus) (exitCode : Option ℤ) (stderr : String)
      (logPath : Option String) (ha : a = .task t (.report (.failure exitCode stderr logPath)))
      (ht : s.task t = some task) (hp : task.phase = .executing) (hk : task.build.id = k)
      (hr : task.build.retryCount < task.build.maxRetries) : StatusMove cfg s a k st .pending
  | complete (t : ℕ) (task : Task) (o : Outcome) (st st' : BuildStatus) (ha : a = .task t (.report o))
      (ht : s.task t = some task) (hp : task.phase = .executing) (hk : task.build.id = k)
      (hf : st'.isFinished = true) : StatusMove cfg s a k st st'
  | doneComplete (env : LoopEnv) (b : Build) (c : Completion) (st : BuildStatus) (ha : a = .loop env)
      (hp : s.loop.phase = .doneComplete b c) (hk : b.id = k) : StatusMove cfg s a k st c.status
  | cancel (st : BuildStatus) (ha : a = .cancel k ∨ ∃ e j sc, a = .cancelSuperseded e j sc)
      (hst : st = .pending ∨ st = .running) : StatusMove cfg s a k st .cancelled
  | sweep (env : LoopEnv) (ids : List Uuid) (atBoot : Bool) (ha : a = .loop env)
      (hp : s.loop.phase = .sweeping ids atBoot) (hk : k ∉ ids)
      (ho : (s.db.builds.get k).any (Build.orphaned s.now 300) = true) : StatusMove cfg s a k .running .pending
  | restart (st : BuildStatus) (ha : a = .restart k)
      (hst : st = .failed ∨ st = .succeeded ∨ st = .cancelled ∨ st = .cachedFailure) :
      StatusMove cfg s a k st .pending

theorem RowMove.status {k : Uuid} {b b' : Build} (h : RowMove cfg s a k b b') (hget : s.db.builds.get k = some b) :
    b'.status = b.status ∨ StatusMove cfg s a k b.status b'.status := by
  cases h with
  | features => exact .inl rfl
  | claim t task free b ha ht hp hk hb => exact .inr (hb ▸ .claim t task free ha ht hp hk)
  | doneStart env b₀ c _ b ha hp hk hb => exact .inr (hb ▸ .doneStart env b₀ c ha hp hk)
  | requeue t task ev b ha ht hp hk hb =>
    have : b.requeue.status = .pending := by simp [Build.requeue, hb]
    exact .inr (this ▸ hb ▸ .requeue t task ev ha ht hp hk)
  | retry t task c e l b ha ht hp hk hr => exact .inr (.retry t task _ c e l ha ht hp hk hr)
  | complete t task o st _ _ _ b ha ht hp hk hf => exact .inr (.complete t task o _ st ha ht hp hk hf)
  | doneComplete env b₀ c b ha hp hk => exact .inr (.doneComplete env b₀ c _ ha hp hk)
  | cancel b ha hb =>
    have : (b.cancel s.now).status = .cancelled := by simp [Build.cancel, hb]
    exact .inr (this ▸ .cancel _ (Or.inl ha) hb)
  | supersede e j sc b ha hb =>
    have : (b.cancelSuperseded s.now e).status = .cancelled := by simp [Build.cancelSuperseded, hb]
    exact .inr (this ▸ .cancel _ (Or.inr ⟨e, j, sc, ha⟩) hb)
  | sweep env ids atBoot b ha hp hk hb =>
    have hst : b.status = .running := of_decide_eq_true (Bool.and_eq_true _ _ ▸ hb).1
    exact .inr (hst ▸ .sweep env ids atBoot ha hp hk (by rw [hget]; exact hb))
  | restart b ha hb =>
    have : b.restart.status = .pending := by simp [Build.restart, hb]
    exact .inr (this ▸ .restart _ ha (of_decide_eq_true hb))

/-- **What a step does to one status.** -/
theorem step_status (h : step cfg s a = some s') (k : Uuid) : s'.db.status k = s.db.status k ∨
      ∃ st st', s.db.status k = some st ∧ s'.db.status k = some st' ∧ StatusMove cfg s a k st st' := by
  unfold Db.status
  rcases step_row h k with heq | ⟨b, b', hb, hb', hm⟩
  · exact .inl (by rw [heq])
  · rw [hb, hb']
    rcases hm.status hb with heq | hm
    · exact .inl (congrArg some heq)
    · exact .inr ⟨_, _, rfl, rfl, hm⟩

/-- A statement that writes other statuses leaves a build out of this one. -/
theorem status_updateBuild_ne {db : Db} {id k : Uuid} {f : Build → Build} (hf : ∀ b, (f b).toJob = b.toJob)
    {st : BuildStatus} (hst : ∀ b, (f b).status = st → b.status = st) (hk : db.status k ≠ some st) :
    (db.updateBuild id f hf).status k ≠ some st := by
  intro h
  rw [Db.status, db.get_updateBuild id f hf k] at h
  split_ifs at h with hid
  · subst hid
    obtain ⟨b', hb', hs⟩ := Option.map_eq_some_iff.mp h
    obtain ⟨b, hb, rfl⟩ := Option.map_eq_some_iff.mp hb'
    exact hk (by rw [Db.status, hb, Option.map_some, hst b hs])
  · exact hk h

/-- A worker's report is its statement, and one of those its venue can end in. -/
theorem report_of_step {t : ℕ} {o : Outcome}
    (h : step cfg s (.task t (.report o)) = some s') (ht : s.task t = some task) :
    s'.db = (report cfg s.now task.build o).1 s.db ∧ o.possible task.venue = true := by
  simp only [step, ht, Option.bind_some, State.taskStep] at h
  split_ifs at h with ho
  cases h
  exact ⟨rfl, ho.2⟩

/-- The build whose status the step writes whatever it was: the one of a worker's
report, of the loop's `complete`, of a restart. -/
def overwritten (s : State) : Action → Option Uuid
  | .restart k => some k
  | .task t (.report _) => (s.task t).map (·.build.id)
  | .loop _ => s.loop.phase.completed.map (·.id)
  | _ => none

/-- Nothing else takes a build out of its success. -/
theorem succeeded_of_step (h : step cfg s a = some s') {k : Uuid}
    (hk : s.db.status k = some .succeeded) : s'.db.status k = some .succeeded ∨ overwritten s a = some k := by
  rcases step_status h k with heq | ⟨st, st', h1, -, hm⟩
  · exact .inl (heq.trans hk)
  · right
    obtain rfl : st = .succeeded := Option.some.inj (h1.symm.trans hk)
    generalize hq : BuildStatus.succeeded = q at hm
    cases hm with
    | claim | doneStart | requeue | sweep => cases hq
    | cancel _ _ hst => subst hq; simp at hst
    | retry _ _ _ _ _ _ ha ht _ hid _ | complete _ _ _ _ _ ha ht _ hid _ =>
      rw [ha, overwritten, ht, Option.map_some, hid]
    | doneComplete _ _ _ _ ha hp hid => rw [ha, overwritten, hp, LoopPhase.completed, Option.map_some, hid]
    | restart _ ha => rw [ha, overwritten]

/-- A finished build is finished after any step but a restart of it or a report
of a worker that executes it. -/
theorem finished_of_step (h : step cfg s a = some s') {b : Uuid}
    {st : BuildStatus} (hst : s.db.status b = some st) (hf : st.isFinished = true) (hr : a ≠ .restart b)
    (hw : ∀ t task o, a = .task t (.report o) → s.task t = some task → task.phase = .executing →
      task.build.id ≠ b) : ∃ st', s'.db.status b = some st' ∧ st'.isFinished = true := by
  rcases step_status h b with heq | ⟨st₀, st', h₀, h', hm⟩
  · exact ⟨st, heq.trans hst, hf⟩
  · obtain rfl : st₀ = st := Option.some.inj (h₀.symm.trans hst)
    refine ⟨st', h', ?_⟩
    cases hm with
    | claim | doneStart | requeue | sweep => cases hf
    | cancel => rfl
    | doneComplete _ _ c => exact c.finished
    | retry t task _ _ _ _ ha ht hp hid => exact absurd hid (hw t task _ ha ht hp)
    | complete _ _ _ _ _ _ _ _ _ hf' => exact hf'
    | restart _ ha => exact absurd ha hr

end Circus.Runner
