/-
# Quiescence

When nothing the loop and the workers can do changes a status any more, what
is still pending? `quiescent_pending`: over an acyclic dependency graph, with
the loop running, a permit free and shares in every jobset, each pending
build then has a transitive dependency that finished without success.

Nothing moves such a build: `list_pending` and the loop look only at builds
whose dependencies have all succeeded, and no statement of the runner writes
`dependency_failed`. `Stuck.quiescent` says when a runner has come to rest,
and `stranded` is a run that comes to rest with a pending build behind a
failed one.

For the first: a pending build whose dependencies have succeeded is listed
(`reaches_list`: the loop gets to its listing from wherever it is), and the
build at the head of the listing starts to run, in `mark_build_done` or in a
task (`canStart`).
-/
import Circus.Runner.Tasks

namespace Circus.Runner

open Lts

/-- A step of the loop or of a worker in which no statement fails, with a
venue and a builder for every build. -/
def Action.works : Action → Bool
  | .loop env => env.supported && env.free
  | .task _ (.reserve venue) => venue.isSome
  | .task _ (.claim free) => free
  | .task _ .error | .task _ .abort => false
  | .task _ _ => true
  | _ => false

/-- No build is running, and the loop and the workers change no status. -/
structure Quiescent (cfg : Config) (s : State) : Prop where
  idle : ∀ k, s.db.status k ≠ some .running
  still : ∀ s', Reaches (step cfg) (·.works = true) s s' → ∀ k, s'.db.status k = s.db.status k

/-- The loop is there to poll and a worker to build. -/
structure Available (s : State) : Prop where
  loop : s.loop.phase ≠ .stopped
  permits : 0 < s.permits
  draining : s.draining = false

/-! ### The loop gets to its listing -/

/-- A bound on the loop's steps to its next listing, with `n` builds to come. -/
def LoopPhase.distance (n : ℕ) : LoopPhase → ℕ
  | list | stopped => 0
  | sweeping _ atBoot => if atBoot then 3 else 1
  | top => 2
  | boot => 4
  | next => 3 + 8 * n
  | dispatch _ | doneComplete _ _ => 4 + 8 * n
  | oneAtATime _ | doneStart _ _ => 5 + 8 * n
  | aggregate _ | unsupported _ => 6 + 8 * n
  | deps _ => 7 + 8 * n
  | cachedFailure _ => 8 + 8 * n
  | fod _ _ => 9 + 8 * n
  | dedup _ => 10 + 8 * n

section Drive

variable {cfg : Config} {s s' : State}

/-- The loop is there in `s'`, and closer to its listing than in `s`. -/
structure Closer (s s' : State) : Prop where
  running : s'.loop.phase ≠ .stopped
  lt : s'.loop.phase.distance s'.loop.rest.length < s.loop.phase.distance s.loop.rest.length

theorem Closer.withLoop {p : LoopPhase} {l : Loop} (hp : s.loop.phase = p) (hr : l.rest = s.loop.rest)
    (hl : l.phase ≠ .stopped) (h : ∀ n, l.phase.distance n < p.distance n) : Closer s { s with loop := l } where
  running := hl
  lt := by
    rw [hp, hr]
    exact h _

theorem Closer.setPhase {p q : LoopPhase} (hp : s.loop.phase = p) (hq : q ≠ .stopped)
    (h : ∀ n, q.distance n < p.distance n) : Closer s (s.setPhase q) :=
  .withLoop hp rfl hq h

theorem firstFilter_distance (iv : Bool) (b : Build) (n : ℕ) :
    firstFilter iv b ≠ .stopped ∧ (firstFilter iv b).distance n < LoopPhase.next.distance (n + 1) := by
  unfold firstFilter
  split_ifs <;> simp only [LoopPhase.distance] <;> exact ⟨by simp, by omega⟩

theorem afterFod_distance (cfg : Config) (iv : Bool) (b : Build) :
    afterFod cfg iv b ≠ .stopped ∧ ∀ n, (afterFod cfg iv b).distance n < (LoopPhase.fod b iv).distance n := by
  unfold afterFod
  split <;> exact ⟨by simp, by simp [LoopPhase.distance]⟩

/-- Short of its listing the loop has a step, and it brings the listing closer. -/
theorem loopStep_closer (cfg : Config) (hl : s.loop.phase ≠ .list) (hs : s.loop.phase ≠ .stopped) :
    ∃ s', step cfg s (.loop {}) = some s' ∧ Closer s s' := by
  simp only [step, State.loopStep]
  split
  · rename_i hp
    exact ⟨_, rfl, .withLoop hp rfl (by simp) (by simp [LoopPhase.distance])⟩
  · rename_i hp
    split <;> exact ⟨_, rfl, .setPhase hp (by simp) (by simp [LoopPhase.distance])⟩
  · rename_i ids atBoot hp
    cases atBoot
    · exact ⟨_, rfl, by simp [State.sweepDone], by simp [State.sweepDone, hp, LoopPhase.distance]⟩
    · exact ⟨_, rfl, by simp [State.sweepDone, State.setPhase],
        by simp [State.sweepDone, State.setPhase, hp, LoopPhase.distance]⟩
  · rename_i hp
    exact absurd hp hl
  · rename_i hp
    split
    · rename_i hr
      exact ⟨_, rfl, by simp [State.setPhase], by simp [State.setPhase, hp, hr, LoopPhase.distance]⟩
    · rename_i b rest hr
      obtain ⟨h1, h2⟩ := firstFilter_distance (isIntervalRebuild s.db b) b rest.length
      exact ⟨_, rfl, h1, by rw [hp, hr]; exact h2⟩
  · rename_i b hp
    split <;> exact ⟨_, rfl, .setPhase hp (by simp) (by simp [LoopPhase.distance])⟩
  · rename_i b hp
    split
    · split <;> exact ⟨_, rfl, .setPhase hp (by simp) (by simp [LoopPhase.distance])⟩
    · exact ⟨_, rfl, .setPhase hp (by simp) (by simp [LoopPhase.distance])⟩
  · rename_i b iv hp
    obtain ⟨h1, h2⟩ := afterFod_distance cfg iv b
    split
    · split
      · exact ⟨_, rfl, .withLoop hp rfl (by simp) (by simp [LoopPhase.distance])⟩
      · exact ⟨_, rfl, .withLoop hp rfl h1 h2⟩
    · exact ⟨_, rfl, .setPhase hp h1 h2⟩
  · rename_i b hp
    split <;> exact ⟨_, rfl, .setPhase hp (by simp) (by simp [LoopPhase.distance])⟩
  · rename_i b hp
    split <;> exact ⟨_, rfl, .setPhase hp (by simp) (by simp [LoopPhase.distance])⟩
  · rename_i b hp
    split <;> exact ⟨_, rfl, .setPhase hp (by simp) (by simp [LoopPhase.distance])⟩
  · rename_i b hp
    split
    · exact ⟨_, rfl, .setPhase hp (by simp) (by simp [LoopPhase.distance])⟩
    · split <;> exact ⟨_, rfl, .setPhase hp (by simp) (by simp [LoopPhase.distance])⟩
  · rename_i b hp
    have hr : (s.dispatch b).loop.rest = s.loop.rest := by
      unfold State.dispatch
      split <;> rfl
    exact ⟨_, rfl, by simp [State.setPhase], by simp [State.setPhase, hr, hp, LoopPhase.distance]⟩
  · rename_i b c hp
    exact ⟨_, rfl, by simp [State.setPhase], by simp [State.setPhase, hp, LoopPhase.distance]⟩
  · rename_i b c hp
    exact ⟨_, rfl, by simp [State.setPhase], by simp [State.setPhase, hp, LoopPhase.distance]⟩
  · rename_i hp
    exact absurd hp hs

/-- **The loop gets to its listing from wherever it is.** -/
theorem reaches_list (cfg : Config) (h : Available s) :
    ∃ s', Reaches (step cfg) (·.works = true) s s' ∧ Available s' ∧ s'.loop.phase = .list := by
  refine reaches_of_measure (fun s => s.loop.phase.distance s.loop.rest.length) (fun s h hl => ?_) h
  obtain ⟨s', hs', hc⟩ := loopStep_closer cfg hl h.loop
  have hf := (loopStep_cases hs').frame
  exact ⟨.loop {}, s', rfl, hs', ⟨hc.running, hf.permits ▸ h.permits, hf.draining ▸ h.draining⟩, hc.lt⟩

end Drive

/-! ### A listed build starts to run -/

/-- Build `b` is as the loop listed it, and nothing is running. -/
structure Ready (s : State) (b : Build) : Prop where
  row : s.db.builds.get b.id = some b
  pending : b.status = .pending
  deps : BuildDependencies.allDepsCompleted b.id s.db = true
  idle : ∀ k, s.db.status k ≠ some .running
  permits : 0 < s.permits
  draining : s.draining = false

/-- Some steps of the loop and the workers make `b` running. -/
def CanStart (cfg : Config) (s : State) (b : Build) : Prop :=
  ∃ s', Reaches (step cfg) (·.works = true) s s' ∧ s'.db.status b.id = some .running

section CanStart

variable {cfg : Config} {s s' : State} {b : Build}

theorem CanStart.cons {a : Action} (ha : a.works = true) (hs : step cfg s a = some s') (h : CanStart cfg s' b) :
    CanStart cfg s b := by
  obtain ⟨s'', hr, hb⟩ := h
  exact ⟨s'', hr.cons ha hs, hb⟩

theorem CanStart.of_running (h : s.db.status b.id = some .running) : CanStart cfg s b :=
  ⟨s, .refl _ s, h⟩

/-- The loop goes on at `q`. -/
theorem CanStart.setPhase {q : LoopPhase} (hs : step cfg s (.loop {}) = some (s.setPhase q))
    (h : CanStart cfg (s.setPhase q) b) : CanStart cfg s b :=
  h.cons rfl hs

theorem Ready.withLoop (h : Ready s b) (l : Loop) : Ready { s with loop := l } b :=
  ⟨h.row, h.pending, h.deps, h.idle, h.permits, h.draining⟩

theorem Ready.setPhase (h : Ready s b) (q : LoopPhase) : Ready (s.setPhase q) b := h.withLoop _

theorem Ready.startable (h : Ready s b) : Builds.startable true s.db b = true := by
  exact Builds.startable_iff.mpr ⟨h.pending, rfl, Builds.runningTwin_of_idle h.idle b.drvPath⟩

theorem Ready.start (h : Ready s b) : (Builds.start true s.now b.id s.db).1.isSome = true := by
  unfold Builds.start
  rw [h.row, Option.filter_some, if_pos h.startable]
  rfl

/-- `mark_build_done` makes the build running before it completes it. -/
theorem Ready.canStart_doneStart (h : Ready s b) {c : Completion} (hp : s.loop.phase = .doneStart b c) :
    CanStart cfg s b := by
  have hs : step cfg s (.loop {}) = some ({ s with
      db := (Builds.start true s.now b.id s.db).2 }.setPhase (.doneComplete b c)) := by
    simp [step, State.loopStep, hp]
  exact .cons rfl hs (.of_running (Builds.status_of_start h.start).2)

/-- Task `t` takes a step that leaves `s'`. -/
theorem CanStart.task {t : ℕ} {ev : TaskEvent} {task : Task} (hw : (Action.task t ev).works = true)
    (ht : s.task t = some task) (hs : s.taskStep cfg t task ev = some s') (h : CanStart cfg s' b) :
    CanStart cfg s b :=
  h.cons hw (by rw [step, ht]; exact hs)

/-- A task that has reserved its venue claims the build. -/
theorem CanStart.of_claiming {t : ℕ} {task : Task} (ht : s.task t = some task) (hp : task.phase = .claiming)
    (hs : (Builds.start true s.now task.build.id s.db).1.isSome = true) : CanStart cfg s task.build := by
  have hc : s.taskStep cfg t task (.claim true) = some ({ s with
      db := (Builds.start true s.now task.build.id s.db).2 }.setTask t { task with phase := .executing }) := by
    rw [State.taskStep, if_pos hp]
    exact if_pos hs
  exact .task rfl ht hc (.of_running (Builds.status_of_start hs).2)

/-- A spawned task reserves a permit and claims the build. -/
theorem Ready.canStart_spawned (h : Ready s b) {t : ℕ} (ht : s.task t = some { build := b }) :
    CanStart cfg s b := by
  have h1 : s.taskStep cfg t { build := b } (.features none true) =
      some (s.setTask t { build := b, phase := .reserving }) := by
    rw [State.taskStep, if_pos rfl]
    split <;> rfl
  have h2 : (s.setTask t { build := b, phase := .reserving }).taskStep cfg t { build := b, phase := .reserving }
      (.reserve (some .runner)) =
      some ({ s.setTask t { build := b, phase := .reserving } with permits := s.permits - 1 }.setTask t
        { build := b, phase := .claiming, venue := some .runner }) := by
    rw [State.taskStep, if_pos rfl]
    exact if_pos h.permits
  exact .task rfl ht h1 (.task rfl (State.setTask_self s t _) h2
    (.of_claiming (State.setTask_self _ t _) rfl h.start))

/-- A dispatched build is claimed by its task. -/
theorem Ready.canStart_dispatch (h : Ready s b) (hp : s.loop.phase = .dispatch b) : CanStart cfg s b := by
  have hs : step cfg s (.loop {}) = some ((s.dispatch b).setPhase .next) := by simp [step, State.loopStep, hp]
  have hd : s.dispatch b = { s with
      activeBuilds := s.activeBuilds.insert b.id s.nextTask
      tasks := s.tasks.insert s.nextTask { build := b }
      nextTask := s.nextTask + 1 } := by simp [State.dispatch, h.draining]
  rw [hd] at hs
  exact .cons rfl hs (Ready.canStart_spawned ⟨h.row, h.pending, h.deps, h.idle, h.permits, h.draining⟩
    (AList.lookup_insert _))

/-! The filters, from the last to the first: each passes the build on, or has
it settled by `mark_build_done`. -/

theorem Ready.canStart_oneAtATime (h : Ready s b) (hp : s.loop.phase = .oneAtATime b) : CanStart cfg s b := by
  obtain ⟨j, hj⟩ := Db.exists_jobsetOf h.row
  have hr : Jobsets.hasRunningBuilds j.id s.db = false :=
    Jobsets.hasRunningBuilds_eq_false.mpr fun k hk => h.idle k hk.1
  refine .setPhase (q := .dispatch b) ?_ ((h.setPhase _).canStart_dispatch rfl)
  simp [step, State.loopStep, hp, hj, hr]

theorem Ready.canStart_unsupported (h : Ready s b) (hp : s.loop.phase = .unsupported b) : CanStart cfg s b := by
  refine .setPhase (q := .oneAtATime b) ?_ ((h.setPhase _).canStart_oneAtATime rfl)
  simp only [step, State.loopStep, hp]
  split <;> rfl

theorem Ready.canStart_deps (h : Ready s b) (hp : s.loop.phase = .deps b) : CanStart cfg s b := by
  refine .setPhase (q := .unsupported b) ?_ ((h.setPhase _).canStart_unsupported rfl)
  simp only [step, State.loopStep, hp, h.deps, if_true]

theorem Ready.canStart_cachedFailure (h : Ready s b) (hp : s.loop.phase = .cachedFailure b) : CanStart cfg s b := by
  by_cases hc : FailedPathsCache.isCachedFailure b.drvPath s.db = true
  · refine .setPhase (q := .doneStart b cachedFailureCompletion) ?_ ((h.setPhase _).canStart_doneStart rfl)
    simp only [step, State.loopStep, hp, hc, if_true]
  · refine .setPhase (q := .deps b) ?_ ((h.setPhase _).canStart_deps rfl)
    simp [step, State.loopStep, hp, hc]

theorem Ready.canStart_afterFod (h : Ready s b) {iv : Bool} (hp : s.loop.phase = afterFod cfg iv b) :
    CanStart cfg s b := by
  unfold afterFod at hp
  split at hp
  · exact h.canStart_cachedFailure hp
  · exact h.canStart_deps hp

theorem Ready.canStart_fod (h : Ready s b) {iv : Bool} (hp : s.loop.phase = .fod b iv) : CanStart cfg s b := by
  by_cases hf : b.isFod && !iv
  · have hs : step cfg s (.loop {}) = some { s with loop := { s.loop with
        phase := afterFod cfg iv b
        fodOutputCache := if (s.loop.fodOutputCache.lookup b.drvPath).isSome then s.loop.fodOutputCache
          else (b.drvPath, none) :: s.loop.fodOutputCache } } := by
      simp only [step, State.loopStep, hp, hf, Bool.and_false, if_true, Bool.false_eq_true, if_false]
    exact .cons rfl hs ((h.withLoop _).canStart_afterFod rfl)
  · refine .setPhase (q := afterFod cfg iv b) ?_ ((h.setPhase _).canStart_afterFod rfl)
    simp [step, State.loopStep, hp, hf]

theorem Ready.canStart_dedup (h : Ready s b) (hp : s.loop.phase = .dedup b) : CanStart cfg s b := by
  have hl : step cfg s (.loop {}) = s.loopStep cfg {} := rfl
  simp only [State.loopStep, hp] at hl
  split at hl
  · split at hl
    · exact .setPhase hl ((h.setPhase _).canStart_doneStart rfl)
    · exact .setPhase hl ((h.setPhase _).canStart_fod rfl)
  · exact .setPhase hl ((h.setPhase _).canStart_fod rfl)

theorem Ready.canStart_aggregate (h : Ready s b) (hp : s.loop.phase = .aggregate b) : CanStart cfg s b := by
  refine .setPhase (q := .doneStart b (succeededBy none none)) ?_ ((h.setPhase _).canStart_doneStart rfl)
  simp only [step, State.loopStep, hp, h.deps, if_true]

/-- **A build taken from the listing starts to run.** -/
theorem Ready.canStart (h : Ready s b) {iv : Bool} (hp : s.loop.phase = firstFilter iv b) : CanStart cfg s b := by
  unfold firstFilter at hp
  split_ifs at hp
  · exact h.canStart_aggregate hp
  · exact h.canStart_fod hp
  · exact h.canStart_dedup hp

end CanStart

/-! ### What a quiescent runner leaves pending -/

/-- No build depends on itself, however indirectly. -/
def Acyclic (db : Db) : Prop := ∀ k, ¬ Relation.TransGen (fun k d => (k, d) ∈ db.buildDependencies) k k

/-- An induction along the dependencies. -/
theorem Acyclic.induction {db : Db} (h : Acyclic db) {P : Uuid → Prop}
    (hP : ∀ k, (∀ d, (k, d) ∈ db.buildDependencies → P d) → P k) (k : Uuid) : P k := by
  let below (d k : Uuid) := Relation.TransGen (fun k d => (k, d) ∈ db.buildDependencies) k d
  have : IsStrictOrder Uuid below :=
    { irrefl := h, trans := fun _ _ _ h1 h2 => h2.trans h1 }
  have hfin : {k | k ∈ db.builds.rows.map (·.id)}.Finite := List.finite_toSet _
  have hmem : ∀ k, (db.builds.get k).isSome = true → k ∈ db.builds.rows.map (·.id) := by
    intro k hk
    obtain ⟨b, hb⟩ := Option.isSome_iff_exists.mp hk
    exact List.mem_map.mpr ⟨b, Table.mem_of_get hb, Db.id_of_get hb⟩
  have hin : ∀ k ∈ db.builds.rows.map (·.id), P k := fun k hk =>
    (hfin.wellFoundedOn (r := below)).induction hk fun k _ ih =>
      hP k fun d hd => ih d (hmem d (db.dependency_fk (k, d) hd).2) (.single hd)
  exact hP k fun d hd => hin d (hmem d (db.dependency_fk (k, d) hd).2)

/-- Build `k` has nothing to wait for but what does not come: a dependency that
finished without success, shares for its jobset, or a pending dependency
that is blocked itself. -/
inductive Blocked (db : Db) : Uuid → Prop
  | failed (k d : Uuid) (st : BuildStatus) (hd : (k, d) ∈ db.buildDependencies) (hs : db.status d = some st)
      (hf : st.isFinished = true) (hn : st ≠ .succeeded) : Blocked db k
  | noShares (b : Build) (j : Jobset) (hb : db.builds.get b.id = some b) (hj : db.jobsetOf b = some j)
      (h : j.schedulingShares ≤ 0) : Blocked db b.id
  | pending (k d : Uuid) (hd : (k, d) ∈ db.buildDependencies) (hs : db.status d = some .pending)
      (h : Blocked db d) : Blocked db k

section Quiescent

variable {cfg : Config} {s s' : State}

theorem Quiescent.of_reaches (h : Quiescent cfg s) (hr : Reaches (step cfg) (·.works = true) s s') :
    Quiescent cfg s' where
  idle k := by rw [h.still s' hr k]; exact h.idle k
  still s'' hr' k := by rw [h.still s' hr k]; exact h.still s'' (hr.trans hr') k

theorem Quiescent.not_canStart (h : Quiescent cfg s) (b : Build) : ¬ CanStart cfg s b := by
  rintro ⟨s', hr, hb⟩
  exact h.idle b.id (h.still s' hr b.id ▸ hb)

theorem reaches_frame (h : Reaches (step cfg) (·.works = true) s s') : s.db.Frame s'.db :=
  Reaches.inv (fun _ _ _ hf _ hs => Db.Frame.trans hf (step_frame hs)) h (.refl s.db)

/-- A listing that is not empty has its first build start. -/
theorem Quiescent.listPending_eq_nil (h : Quiescent cfg s) (hv : Available s) (hl : s.loop.phase = .list) :
    Builds.listPending (fetchLimit cfg {}) (schedulableCapacity cfg {}) s.db = [] := by
  cases hb : Builds.listPending (fetchLimit cfg {}) (schedulableCapacity cfg {}) s.db with
  | nil => rfl
  | cons b rest =>
    obtain ⟨hrow, hpend, hdeps, -⟩ :=
      Builds.mem_eligiblePending.mp (Builds.mem_listPending (hb ▸ List.mem_cons_self)).1
    let l : Loop := { s.loop with phase := .next, rest := b :: rest, fodOutputCache := [] }
    have h1 : step cfg s (.loop {}) = some { s with loop := l } := by
      simp [step, State.loopStep, hl, hb, l]
    have h2 : step cfg { s with loop := l } (.loop {}) = some { s with loop := { l with
        phase := firstFilter (isIntervalRebuild s.db b) b, rest := rest } } := rfl
    have hr : Ready s b := ⟨Db.get_of_mem hrow, hpend, hdeps, h.idle, hv.permits, hv.draining⟩
    exact absurd (.cons rfl h1 (.cons rfl h2 ((hr.withLoop _).canStart rfl))) (h.not_canStart b)

/-- A pending build with all its dependencies has no shares. -/
theorem Quiescent.noShares (h : Quiescent cfg s) (hv : Available s) {b : Build} {j : Jobset}
    (hb : s.db.builds.get b.id = some b) (hp : b.status = .pending)
    (hd : BuildDependencies.allDepsCompleted b.id s.db = true) (hj : s.db.jobsetOf b = some j) :
    j.schedulingShares ≤ 0 := by
  by_contra hs
  obtain ⟨s₁, hr, hv₁, hl₁⟩ := reaches_list cfg hv
  have hst := h.still s₁ hr
  have hf := reaches_frame hr
  have hq₁ := h.of_reaches hr
  -- the row may have moved on, but not its status and its job
  obtain ⟨b₁, hb₁, hp₁⟩ : ∃ b₁, s₁.db.builds.get b.id = some b₁ ∧ b₁.status = .pending :=
    Db.status_eq_some.mp ((hst b.id).trans (Db.status_eq_some.mpr ⟨b, hb, hp⟩))
  have hd₁ : BuildDependencies.allDepsCompleted b₁.id s₁.db = true := by
    rw [BuildDependencies.allDepsCompleted_congr hf.buildDependencies hst, Db.id_of_get hb₁, hd]
  have he : b₁ ∈ Builds.eligiblePending s₁.db := Builds.mem_eligiblePending.mpr
    ⟨Table.mem_of_get hb₁, hp₁, hd₁, Builds.runningTwin_of_idle hq₁.idle b₁.drvPath⟩
  refine Builds.listPending_ne_nil ?_ _ he ((hf.jobsetOf hb hb₁).trans hj) (not_le.mp hs)
    (hq₁.listPending_eq_nil hv₁ hl₁)
  unfold fetchLimit
  omega

theorem Quiescent.blocked (h : Quiescent cfg s) (hv : Available s) (ha : Acyclic s.db) (k : Uuid)
    (hk : s.db.status k = some .pending) : Blocked s.db k := by
  induction k using ha.induction with
  | hP k ih =>
    by_cases hd : BuildDependencies.allDepsCompleted k s.db = true
    · obtain ⟨b, hb, hp⟩ := Db.status_eq_some.mp hk
      obtain rfl := Db.id_of_get hb
      obtain ⟨j, hj⟩ := Db.exists_jobsetOf hb
      exact .noShares b j hb hj (h.noShares hv hb hp hd hj)
    · rw [BuildDependencies.allDepsCompleted_iff] at hd
      push Not at hd
      obtain ⟨d, hd, hs⟩ := hd
      obtain ⟨bd, hbd⟩ := Option.isSome_iff_exists.mp (s.db.dependency_fk (k, d) hd).2
      have hst : s.db.status d = some bd.status := Db.status_eq_some.mpr ⟨bd, hbd, rfl⟩
      by_cases hp : bd.status = .pending
      · rw [hp] at hst
        exact .pending k d hd hst (ih d hd hst)
      · refine .failed k d bd.status hd hst ?_ fun hn => hs (hn ▸ hst)
        exact BuildStatus.isFinished_iff.mpr ⟨hp, fun hr => h.idle d (hr ▸ hst)⟩

/-- **What a quiescent runner leaves pending.** A pending build is blocked, and a
jobset none of whose builds is blocked has no unfinished work. -/
theorem quiescent_pending (h : Quiescent cfg s) (hv : Available s) (ha : Acyclic s.db) :
    (∀ k, s.db.status k = some .pending → Blocked s.db k) ∧
    ∀ jobsetId, (∀ e ∈ s.db.evaluations.rows, e.jobsetId = jobsetId → e.status ≠ .pending ∧ e.status ≠ .running) →
      (∀ b ∈ s.db.builds.rows, s.db.inJobset jobsetId b.toJob = true → ¬ Blocked s.db b.id) →
      Jobsets.hasUnfinishedWork jobsetId s.db = false := by
  refine ⟨h.blocked hv ha, fun jobsetId he hb => Jobsets.hasUnfinishedWork_eq_false he fun b hm hj => ?_⟩
  have hs : s.db.status b.id = some b.status := Db.status_eq_some.mpr ⟨b, Db.get_of_mem hm, rfl⟩
  exact ⟨fun hp => hb b hm hj (h.blocked hv ha b.id (hp ▸ hs)), fun hr => h.idle b.id (hr ▸ hs)⟩

end Quiescent

/-! ### A runner at rest -/

/-- The operator or the evaluator takes the step. -/
def Action.byOperator : Action → Bool
  | cancel _ | cancelSuperseded _ _ _ | restart _ => true
  | _ => false

/-- The loop has no build in hand, there is no task, and each pending build
misses a dependency. -/
structure Stuck (s : State) : Prop where
  tasks : ∀ t task, s.task t = some task → False
  rest : s.loop.rest = []
  current : s.loop.phase.current = none
  idle : ∀ k, s.db.status k ≠ some .running
  missing : ∀ k, s.db.status k = some .pending → BuildDependencies.allDepsCompleted k s.db = false

section Stuck

variable {cfg : Config} {s s' : State} {a : Action}

theorem Stuck.status (h : Stuck s) (ha : a.byOperator = false) (hs : step cfg s a = some s') (k : Uuid) :
    s'.db.status k = s.db.status k := by
  rcases step_status hs k with heq | ⟨st, st', h1, -, hm⟩
  · exact heq
  · exfalso
    have hc := h.current
    cases hm with
    | claim t task _ _ ht | requeue t task _ _ ht | retry t task _ _ _ _ _ ht | complete t task _ _ _ _ ht =>
      exact h.tasks t task ht
    | doneStart _ _ _ _ hp | doneComplete _ _ _ _ _ hp => rw [hp] at hc; cases hc
    | sweep => exact h.idle k h1
    | cancel _ ha' => rcases ha' with rfl | ⟨_, _, _, rfl⟩ <;> cases ha
    | restart _ ha' => rw [ha'] at ha; cases ha

/-- Only the operator gets it going again. -/
theorem Stuck.step (h : Stuck s) (ha : a.byOperator = false) (hs : step cfg s a = some s') : Stuck s' := by
  have hst := h.status ha hs
  refine ⟨fun t task ht => ?_, ?_, ?_, fun k => by rw [hst k]; exact h.idle k, fun k hk => ?_⟩
  · rcases task_of_step hs ht with ⟨task₀, ht₀, -⟩ | ⟨_, b, _, hp, -⟩
    · exact h.tasks t task₀ ht₀
    · have hc := h.current
      rw [hp] at hc
      cases hc
  · rcases step_loop hs with ⟨hl, -⟩ | ⟨hl, -⟩
    · refine List.eq_nil_iff_forall_not_mem.mpr fun b hb => ?_
      rcases (loop_builds hl).1 b hb with hb | ⟨hb, -⟩
      · rw [h.rest] at hb
        cases hb
      · obtain ⟨hrow, hp, hd, -⟩ := Builds.mem_eligiblePending.mp hb
        have := h.missing b.id (Db.status_eq_some.mpr ⟨b, Db.get_of_mem hrow, hp⟩)
        rw [hd] at this
        cases this
    · rw [hl, h.rest]
  · rcases step_loop hs with ⟨hl, -⟩ | ⟨hl, -⟩
    · refine Option.eq_none_iff_forall_ne_some.mpr fun b hb => ?_
      rcases (loop_builds hl).2 b hb with hb | hb
      · rw [h.current] at hb
        cases hb
      · rw [h.rest] at hb
        cases hb
    · rw [hl, h.current]
  · rw [BuildDependencies.allDepsCompleted_congr (step_frame hs).buildDependencies hst]
    exact h.missing k (hst k ▸ hk)

/-- **A stuck runner stays as it is until the operator acts.** -/
theorem Stuck.still (h : Stuck s) (hr : Reaches (Runner.step cfg) (·.byOperator = false) s s') (k : Uuid) :
    s'.db.status k = s.db.status k := by
  have hstep : ∀ s₁ a s₂, (Stuck s₁ ∧ s₁.db.status k = s.db.status k) → a.byOperator = false →
      Runner.step cfg s₁ a = some s₂ → Stuck s₂ ∧ s₂.db.status k = s.db.status k :=
    fun s₁ a s₂ ⟨h₁, hk⟩ ha hs => ⟨h₁.step ha hs, (h₁.status ha hs k).trans hk⟩
  exact (hr.inv hstep ⟨h, rfl⟩).2

theorem Action.byOperator_of_works (h : a.works = true) : a.byOperator = false := by
  cases a <;> simp_all [Action.works, Action.byOperator]

theorem Stuck.quiescent (h : Stuck s) : Quiescent cfg s where
  idle := h.idle
  still _ hr := h.still (hr.mono fun _ => Action.byOperator_of_works)

end Stuck

/-- Build 1 is executed and fails. -/
def firstFails : List Action :=
  loops 12 ++ claims 0 ++ [.task 0 (.report (.error "builder died")), .task 0 .proceed, .task 0 .remove]

theorem firstFails_stuck : ∃ s ∈ exec (step {}) (.start {} chain) firstFails, Stuck s ∧ Available s ∧
    s.db.status 1 = some .failed ∧ s.db.status 2 = some .pending ∧ s.db.buildDependencies = [(2, 1)] ∧
      Jobsets.hasUnfinishedWork 1 s.db = true := by
  obtain ⟨s, hs, ht, hr, hp, hrun, hmiss, hpermits, hd, h⟩ : ∃ s ∈ exec (step {}) (.start {} chain) firstFails,
      (∀ t task, s.task t = some task → False) ∧ s.loop.rest = [] ∧ s.loop.phase = .next ∧
      (∀ b ∈ s.db.builds.rows, b.status ≠ .running) ∧
      (∀ b ∈ s.db.builds.rows, b.status = .pending → BuildDependencies.allDepsCompleted b.id s.db = false) ∧
      0 < s.permits ∧ s.draining = false ∧ s.db.status 1 = some .failed ∧ s.db.status 2 = some .pending ∧
      s.db.buildDependencies = [(2, 1)] ∧ Jobsets.hasUnfinishedWork 1 s.db = true := by decide
  refine ⟨s, hs, ⟨ht, hr, by rw [hp]; rfl, fun k hk => ?_, fun k hk => ?_⟩, ⟨by rw [hp]; simp, hpermits, hd⟩, h⟩
  · obtain ⟨b, hb, hk⟩ := Db.status_eq_some.mp hk
    exact hrun b (Table.mem_of_get hb) hk
  · obtain ⟨b, hb, hk⟩ := Db.status_eq_some.mp hk
    exact Db.id_of_get hb ▸ hmiss b (Table.mem_of_get hb) hk

theorem acyclic_of_lt {db : Db} (h : ∀ k d, (k, d) ∈ db.buildDependencies → d < k) : Acyclic db := by
  have hlt : ∀ k d, Relation.TransGen (fun k d => (k, d) ∈ db.buildDependencies) k d → d < k := by
    intro k d hkd
    induction hkd with
    | single hd => exact h _ _ hd
    | tail _ hd ih => exact (h _ _ hd).trans ih
  exact fun k hk => lt_irrefl k (hlt k k hk)

theorem acyclic_chain : Acyclic chain :=
  acyclic_of_lt fun k d h => by
    obtain ⟨rfl, rfl⟩ : k = 2 ∧ d = 1 := by simpa [chain, Db.ofRows] using h
    decide

/-- The build left pending behind the failed one. -/
theorem quiescent_pending_firstFails :
    ∃ s ∈ exec (step {}) (.start {} chain) firstFails,
      Quiescent {} s ∧ s.db.status 2 = some .pending ∧ Blocked s.db 2 := by
  obtain ⟨s, hs, hst, hv, -, h2, hd, -⟩ := firstFails_stuck
  have ha : Acyclic s.db := fun k => by rw [hd]; exact acyclic_chain k
  have hq : Quiescent {} s := hst.quiescent
  exact ⟨s, hs, hq, h2, (quiescent_pending hq hv ha).1 2 h2⟩

/-- Build 1 fails, and with every builder at hand build 2 stays pending, whatever
the loop and the workers do. -/
theorem stranded : Fresh {} (.start {} chain) ∧ Acyclic chain ∧ (∀ a ∈ firstFails, a.works = true) ∧
    ∃ s ∈ exec (step {}) (.start {} chain) firstFails, Quiescent {} s ∧ Available s ∧
      (2, 1) ∈ s.db.buildDependencies ∧ s.db.status 1 = some .failed ∧
      (∀ s', Reaches (step {}) (·.byOperator = false) s s' → s'.db.status 2 = some .pending) ∧
      Jobsets.hasUnfinishedWork 1 s.db = true := by
  obtain ⟨s, hs, hst, hv, h1, h2, hd, hw⟩ := firstFails_stuck
  refine ⟨fresh_start {} chain, acyclic_chain, by decide, s, hs, hst.quiescent, hv, by rw [hd]; decide, h1, ?_, hw⟩
  exact fun s' hr => (hst.still hr 2).trans h2

end Circus.Runner
