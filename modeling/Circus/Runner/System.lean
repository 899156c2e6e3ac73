/-
# The runner as a transition system

`step` interleaves the parties around one database: the scheduler loop, the
worker tasks, the cancel checker (`cancel_checker_loop` of
`crates/queue-runner/src/cli.rs`), and from outside the runner the operator's
`cancel` and `restart`, the evaluator's supersession and the clean-up of the
failed paths cache. `cancel_cascade` is a sequence of `cancel` steps.

The inversion lemmas (`loopStep_cases`, `taskStep_cases`, …) say once what a
step of each party can do to the database, the tasks, the registry and the
loop; the invariants are read off them.
-/
import Circus.Lts
import Circus.Runner.Loop

namespace Circus.Runner

inductive Action
  /-- time passes -/
  | tick (secs : Time)
  | loop (env : LoopEnv)
  | loopError
  | task (t : ℕ) (ev : TaskEvent)
  | checker
  | checkerError
  | cancel (id : Uuid)
  | cancelSuperseded (supersededBy jobsetId : Uuid) (sourceScope : String)
  | restart (id : Uuid)
  /-- the second statement of a `restart`, of any that is on its way -/
  | invalidate (drvPath : String)
  | cleanupExpired (ttl : Time)
  /-- shutdown: no further dispatch -/
  | drain

/-- The loop takes the step. -/
def Action.isLoop : Action → Bool
  | loop _ | loopError => true
  | _ => false

namespace State

/-- The registry's entry for `id` is removed and its token cancelled. -/
def cancelActive (s : State) (id : Uuid) : State :=
  match s.activeBuilds.lookup id with
  | none => s
  | some t =>
    let s' := { s with activeBuilds := s.activeBuilds.erase id }
    match s.task t with
    | none => s'
    | some task => s'.setTask t { task with cancelled := true }

/-- It touches the registry and the tasks only. -/
theorem cancelActive_eq (s : State) (id : Uuid) :
    ∃ active tasks, s.cancelActive id = { s with activeBuilds := active, tasks := tasks } := by
  unfold cancelActive
  split
  · exact ⟨_, _, rfl⟩
  · simp only
    split <;> exact ⟨_, _, rfl⟩

def checkerStep (s : State) : State :=
  match s.checker with
  | .idle => if s.activeBuilds.keys = [] then s else { s with checker := .snapshot s.activeBuilds.keys }
  | .snapshot ids => { s with checker := .removing (Builds.getCancelledAmong ids s.db) }
  | .removing [] => { s with checker := .idle }
  | .removing (id :: ids) => { s.cancelActive id with checker := .removing ids }

theorem checkerStep_eq (s : State) :
    ∃ active tasks c, s.checkerStep = { s with activeBuilds := active, tasks := tasks, checker := c } := by
  unfold checkerStep
  split
  · split <;> exact ⟨_, _, _, rfl⟩
  · exact ⟨_, _, _, rfl⟩
  · exact ⟨_, _, _, rfl⟩
  · rename_i id ids _
    obtain ⟨active, tasks, h⟩ := s.cancelActive_eq id
    exact ⟨active, tasks, _, by rw [h]⟩

end State

def step (cfg : Config) (s : State) : Action → Option State
  | .tick secs => some { s with now := s.now + secs }
  | .loop env => s.loopStep cfg env
  | .loopError => s.loopFail cfg
  | .task t ev => (s.task t).bind fun task => s.taskStep cfg t task ev
  | .checker => some s.checkerStep
  | .checkerError =>
    match s.checker with
    | .snapshot _ => some { s with checker := .idle }
    | _ => none
  | .cancel id => some { s with db := Builds.cancel s.now id s.db }
  | .cancelSuperseded e j sc => some { s with db := Evaluations.cancelSupersededBuilds s.now e j sc s.db }
  | .restart id =>
    match s.db.builds.get id with
    | some b =>
      if b.restartable then
        some { s with db := Builds.restart id s.db, invalidations := b.drvPath :: s.invalidations }
      else none
    | none => none
  | .invalidate drvPath =>
    if drvPath ∈ s.invalidations then
      some { s with
        db := FailedPathsCache.invalidate drvPath s.db
        invalidations := s.invalidations.erase drvPath }
    else none
  | .cleanupExpired ttl => some { s with db := FailedPathsCache.cleanupExpired s.now ttl s.db }
  | .drain => some { s with draining := true }

/-- A runner that has just started: its loop has not swept yet, no task and no
registered build. -/
structure Fresh (cfg : Config) (s : State) : Prop where
  permits : s.permits = cfg.workers
  tasks : s.tasks = ∅
  activeBuilds : s.activeBuilds = ∅
  loop : s.loop.phase = .boot
  rest : s.loop.rest = []
  checker : s.checker = .idle
  invalidations : s.invalidations = []
  draining : s.draining = false

/-- A runner that has just started on `db`. -/
def State.start (cfg : Config) (db : Db) : State := { db := db, permits := cfg.workers }

theorem fresh_start (cfg : Config) (db : Db) : Fresh cfg (.start cfg db) :=
  ⟨rfl, rfl, rfl, rfl, rfl, rfl, rfl, rfl⟩

/-! ### Runs on fixed databases

The runs that break a property below start from small databases and follow
the loop through a poll, a task through its claim, and so on. -/

def oneBuild : Db :=
  .ofRows [{ id := 1 }] [{ id := 1, jobsetId := 1 }] [{ id := 1, evaluationId := 1, drvPath := "a.drv" }] [] []
    (by decide)

/-- Build 2 depends on build 1. -/
def chain : Db :=
  .ofRows [{ id := 1 }] [{ id := 1, jobsetId := 1 }]
    [{ id := 1, evaluationId := 1, drvPath := "a.drv" }, { id := 2, evaluationId := 1, drvPath := "b.drv" }] [(2, 1)] []
    (by decide)

/-- `n` steps of the loop. -/
def loops (n : ℕ) : List Action := List.replicate n (.loop {})

/-- Task `t` reserves a permit and claims its build. -/
def claims (t : ℕ) : List Action :=
  [.task t (.features none true), .task t (.reserve (some .runner)), .task t (.claim true)]

/-- Task `t` succeeds, takes `n` more statements and ends. -/
def succeeds (t n : ℕ) : List Action :=
  .task t (.report (.success none ["out"] [])) :: List.replicate n (.task t .proceed) ++ [.task t .remove]

/-! ### What a step of a task can do -/

/-- The statement a task issues and the phase it goes to. `Move cfg s task ev
db p`: from `s`, on event `ev`, the database becomes `db` and the task goes
to `p`. -/
inductive Move (cfg : Config) (s : State) (task : Task) : TaskEvent → Db → Phase → Prop
  /-- one more step before `start`; at most the effective features are written -/
  | wait (ev : TaskEvent) (db : Db) (p : Phase) (h : task.phase.isWaiting = true) (hp : p.isWaiting = true)
      (hdb : db = s.db ∨ ∃ computed persisted fs, ev = .features computed persisted ∧
        db = Builds.setEffectiveFeatures task.build.id fs s.db) : Move cfg s task ev db p
  /-- `run_build` returns, fails or is dropped -/
  | finish (ev : TaskEvent) (h : task.phase ≠ .returned) : Move cfg s task ev s.db .returned
  | claim (free : Bool) (h : task.phase = .claiming)
      (hs : (Builds.start free s.now task.build.id s.db).1.isSome = true) :
      Move cfg s task (.claim free) (Builds.start free s.now task.build.id s.db).2 .executing
  /-- the execution moves from an agent to the runner -/
  | fallback (h : task.phase = .executing) : Move cfg s task .agentLost s.db .executing
  | giveBack (h : task.phase = .executing) :
      Move cfg s task .agentLost (Builds.requeue task.build.id s.db) .returning
  | report (o : Outcome) (h : task.phase = .executing) (ho : o.possible task.venue = true) :
      Move cfg s task (.report o) ((Runner.report cfg s.now task.build o).1 s.db)
        (Runner.report cfg s.now task.build o).2
  | cacheFailure (ev : TaskEvent) (st : BuildStatus) (db : Db) (h : task.phase = .cachingFailure st)
      (hdb : db = s.db ∨ db = FailedPathsCache.insert s.now task.build.drvPath st task.build.id s.db) :
      Move cfg s task ev db .reloading
  | reload (h : task.phase = .reloading) (hs : s.db.status task.build.id = some .succeeded) :
      Move cfg s task .proceed s.db .loadingEvaluation
  | loadEvaluation (e : Evaluation) (h : task.phase = .loadingEvaluation)
      (he : s.db.evaluationOf task.build = some e) :
      Move cfg s task .proceed s.db (.promoteCount e.jobsetId e.id)
  | count (j e : Uuid) (h : task.phase = .promoteCount j e)
      (h0 : (Channels.autoPromoteCount e s.db).1 ≠ 0)
      (he : (Channels.autoPromoteCount e s.db).1 = (Channels.autoPromoteCount e s.db).2) :
      Move cfg s task .proceed s.db (.promoteChannels j e)
  | channels (j e : Uuid) (h : task.phase = .promoteChannels j e) :
      Move cfg s task .proceed s.db (.promoting e ((Channels.autoPromoteChannels j s.db).map (·.id)))
  | promote (e c : Uuid) (cs : List Uuid) (h : task.phase = .promoting e (c :: cs)) :
      Move cfg s task .proceed (Channels.promote s.now c e s.db) (.promoting e cs)
  | promoteFails (e c : Uuid) (cs : List Uuid) (h : task.phase = .promoting e (c :: cs)) :
      Move cfg s task .error s.db (.promoting e cs)

/-- A task keeps its job, its retry count and its token as it goes on. -/
structure Task.Kept (task task' : Task) : Prop where
  job : task'.build.toJob = task.build.toJob
  retryCount : task'.build.retryCount = task.build.retryCount
  cancelled : task'.cancelled = task.cancelled

variable {task : Task}

theorem Task.Kept.id {task' : Task} (h : task.Kept task') : task'.build.id = task.build.id := by
  rw [h.job]

/-- A task's step leaves everything but the database, the permits and the
task itself. -/
structure TaskFrame (s s' : State) : Prop where
  now : s'.now = s.now
  activeBuilds : s'.activeBuilds = s.activeBuilds
  nextTask : s'.nextTask = s.nextTask
  loop : s'.loop = s.loop
  checker : s'.checker = s.checker
  invalidations : s'.invalidations = s.invalidations
  draining : s'.draining = s.draining

/-- What a step of task `t` leaves: the task after one `Move`, or its end. -/
inductive TaskStep (cfg : Config) (s : State) (t : ℕ) (task : Task) (ev : TaskEvent) : State → Prop
  | move (s' : State) (task' : Task) (hk : task.Kept task') (hm : Move cfg s task ev s'.db task'.phase)
      (ht : s'.tasks = s.tasks.insert t task') (hf : TaskFrame s s') : TaskStep cfg s t task ev s'
  | remove (he : ev = .remove) (h : task.phase = .returned) : TaskStep cfg s t task ev
      { s with activeBuilds := s.activeBuilds.erase task.build.id, tasks := s.tasks.erase t }

namespace TaskStep

variable {cfg : Config} {s : State} {t : ℕ} {task : Task} {ev : TaskEvent}

theorem of_setTask {db : Db} {n : ℕ} {task' : Task} (hk : task.Kept task')
    (hm : Move cfg s task ev db task'.phase) :
    TaskStep cfg s t task ev ({ s with db := db, permits := n }.setTask t task') :=
  .move _ task' hk hm rfl ⟨rfl, rfl, rfl, rfl, rfl, rfl, rfl⟩

theorem of_finish (h : task.phase ≠ .returned) : TaskStep cfg s t task ev (s.finish t task) :=
  .move _ { task with phase := .returned, venue := none } ⟨rfl, rfl, rfl⟩ (.finish ev h) rfl
    ⟨rfl, rfl, rfl, rfl, rfl, rfl, rfl⟩

end TaskStep

variable {cfg : Config} {s s' : State}

theorem proceed_cases {t : ℕ} (h : s.proceed t task = some s') : TaskStep cfg s t task .proceed s' := by
  unfold State.proceed at h
  split at h
  · rename_i hp
    cases h; exact .of_finish (by simp [hp])
  · rename_i st hp
    cases h; exact .of_setTask ⟨rfl, rfl, rfl⟩ (.cacheFailure _ st _ hp (Or.inr rfl))
  · rename_i hp
    split at h
    · rename_i st hst
      split at h
      · rename_i hs
        simp only [Bool.and_eq_true, BuildStatus.isSuccess_iff] at hs
        cases h; exact .of_setTask ⟨rfl, rfl, rfl⟩ (.reload hp (by rw [hst, hs.2]))
      · cases h; exact .of_finish (by simp [hp])
    · cases h; exact .of_finish (by simp [hp])
  · rename_i hp
    split at h
    · rename_i e he
      cases h; exact .of_setTask ⟨rfl, rfl, rfl⟩ (.loadEvaluation e hp he)
    · cases h; exact .of_finish (by simp [hp])
  · rename_i j e hp
    simp only at h
    split at h
    · cases h; exact .of_finish (by simp [hp])
    · rename_i hc
      push Not at hc
      cases h; exact .of_setTask ⟨rfl, rfl, rfl⟩ (.count j e hp hc.1 hc.2)
  · rename_i j e hp
    cases h; exact .of_setTask ⟨rfl, rfl, rfl⟩ (.channels j e hp)
  · rename_i e c cs hp
    cases h; exact .of_setTask ⟨rfl, rfl, rfl⟩ (.promote e c cs hp)
  · rename_i hp
    cases h; exact .of_finish (by simp [hp])
  · cases h

theorem fail_cases {t : ℕ} (h : s.fail t task = some s') : TaskStep cfg s t task .error s' := by
  unfold State.fail at h
  split at h
  · cases h
  · cases h
  · cases h
  · rename_i st hp
    cases h; exact .of_setTask ⟨rfl, rfl, rfl⟩ (.cacheFailure _ st _ hp (Or.inl rfl))
  · rename_i e c cs hp
    cases h; exact .of_setTask ⟨rfl, rfl, rfl⟩ (.promoteFails e c cs hp)
  · rename_i hp _ _
    cases h; exact .of_finish hp

/-- **What a step of a task can do.** -/
theorem taskStep_cases {t : ℕ} {ev : TaskEvent}
    (h : s.taskStep cfg t task ev = some s') : TaskStep cfg s t task ev s' := by
  cases ev with
  | features computed persisted =>
    simp only [State.taskStep] at h
    split at h
    · rename_i hp
      have hw : task.phase.isWaiting = true := by rw [hp]; rfl
      split at h
      · cases h; exact .of_setTask ⟨rfl, rfl, rfl⟩ (.wait _ _ _ hw rfl (Or.inl rfl))
      · split at h
        · cases h; exact .of_setTask ⟨rfl, rfl, rfl⟩ (.wait _ _ _ hw rfl (Or.inl rfl))
        · rename_i fs
          cases h
          refine .of_setTask ⟨rfl, rfl, rfl⟩ (.wait _ _ _ hw rfl ?_)
          cases persisted
          · exact .inl rfl
          · exact .inr ⟨_, _, _, rfl, rfl⟩
    · cases h
  | reserve venue =>
    simp only [State.taskStep] at h
    split at h
    · rename_i hp
      have hw : task.phase.isWaiting = true := by rw [hp]; rfl
      split at h
      · cases h; exact .of_finish (by simp [hp])
      · split at h
        · cases h; exact .of_setTask ⟨rfl, rfl, rfl⟩ (.wait _ _ _ hw rfl (Or.inl rfl))
        · cases h
      · split at h
        · cases h; exact .of_setTask ⟨rfl, rfl, rfl⟩ (.wait _ _ _ hw rfl (Or.inl rfl))
        · cases h
    · cases h
  | claim free =>
    simp only [State.taskStep] at h
    split at h
    · rename_i hp
      split at h
      · rename_i hs
        cases h; exact .of_setTask ⟨rfl, rfl, rfl⟩ (.claim free hp hs)
      · cases h; exact .of_finish (by simp [hp])
    · cases h
  | agentLost =>
    simp only [State.taskStep] at h
    split at h
    · rename_i hp
      split at h
      · cases h
        have hm : Move cfg s task .agentLost s.db { task with venue := some .runner }.phase := by
          simpa [hp.1] using Move.fallback hp.1
        exact .of_setTask ⟨rfl, rfl, rfl⟩ hm
      · cases h; exact .of_setTask ⟨rfl, rfl, rfl⟩ (.giveBack hp.1)
    · cases h
  | report o =>
    simp only [State.taskStep] at h
    split at h
    · rename_i hp
      cases h; exact .of_setTask ⟨rfl, rfl, rfl⟩ (.report o hp.1 hp.2)
    · cases h
  | proceed => exact proceed_cases h
  | error => exact fail_cases h
  | abort =>
    simp only [State.taskStep] at h
    split at h
    · rename_i hp
      cases h; exact .of_finish hp.2
    · cases h
  | remove =>
    simp only [State.taskStep] at h
    split at h
    · rename_i hp
      cases h; exact .remove rfl hp
    · cases h

/-! ### What a step of the loop can do -/

/-- The loop goes from one phase to another without writing: `Passes s p q`.
The two checks whose outcome the loop relies on later carry it. -/
inductive Passes (s : State) : LoopPhase → LoopPhase → Prop
  | sweepAtBoot : Passes s .boot (.sweeping s.activeBuilds.keys true)
  | sweepAtTop : Passes s .top (.sweeping s.activeBuilds.keys false)
  | toTop (p : LoopPhase) (h : p.current = none) : Passes s p .top
  | toList (p : LoopPhase) (h : p.current = none) : Passes s p .list
  | stop : Passes s .list .stopped
  | skip (p : LoopPhase) (b : Build) (h : p.current = some b) : Passes s p .next
  | settle (p : LoopPhase) (b : Build) (c : Completion) (h : p.current = some b) : Passes s p (.doneStart b c)
  | toFod (b : Build) : Passes s (.dedup b) (.fod b false)
  | toCachedFailure (b : Build) (iv : Bool) : Passes s (.fod b iv) (.cachedFailure b)
  | toDeps (p : LoopPhase) (b : Build) (h : p.current = some b) : Passes s p (.deps b)
  | depsDone (b : Build) (h : BuildDependencies.allDepsCompleted b.id s.db = true) :
      Passes s (.deps b) (.unsupported b)
  | supported (b : Build) : Passes s (.unsupported b) (.oneAtATime b)
  | free (b : Build) (j : Jobset) (hj : s.db.jobsetOf b = some j)
      (h : ¬ (j.state = .oneAtATime ∧ Jobsets.hasRunningBuilds j.id s.db = true)) :
      Passes s (.oneAtATime b) (.dispatch b)
  | startFails (b : Build) (c : Completion) : Passes s (.doneStart b c) (.doneComplete b c)

/-- A step of the loop that leaves everything but the loop. -/
inductive QuietMove (s : State) : State → Prop
  | pass (l : Loop) (hr : l.rest = s.loop.rest) (hp : Passes s s.loop.phase l.phase) : QuietMove s { s with loop := l }
  | take (l : Loop) (b : Build) (iv : Bool) (h : s.loop.phase = .next) (hr : s.loop.rest = b :: l.rest)
      (hp : l.phase = firstFilter iv b) : QuietMove s { s with loop := l }

inductive LoopMove (s : State) : State → Prop
  | quiet (s' : State) (h : QuietMove s s') : LoopMove s s'
  | list (l : Loop) (limit : ℕ) (cap : ℤ) (h : s.loop.phase = .list) (hp : l.phase = .next)
      (hr : l.rest = Builds.listPending limit cap s.db) : LoopMove s { s with loop := l }
  | sweep (ids : List Uuid) (atBoot : Bool) (l : Loop) (h : s.loop.phase = .sweeping ids atBoot)
      (hr : l.rest = s.loop.rest) (hp : l.phase = .top ∨ l.phase = .list) :
      LoopMove s { s with db := Builds.resetOrphaned s.now 300 ids s.db, loop := l }
  | dispatch (b : Build) (h : s.loop.phase = .dispatch b) : LoopMove s ((s.dispatch b).setPhase .next)
  | doneStart (b : Build) (c : Completion) (free : Bool) (h : s.loop.phase = .doneStart b c) :
      LoopMove s ({ s with db := (Builds.start free s.now b.id s.db).2 }.setPhase (.doneComplete b c))
  | doneComplete (b : Build) (c : Completion) (h : s.loop.phase = .doneComplete b c) :
      LoopMove s ({ s with
        db := Builds.complete s.now b.id c.status c.logPath c.buildOutputPath c.errorMessage s.db }.setPhase .next)

theorem QuietMove.of_setPhase {p q : LoopPhase} (h : s.loop.phase = p) (hp : Passes s p q) :
    QuietMove s (s.setPhase q) :=
  .pass { s.loop with phase := q } rfl (h ▸ hp)

theorem passes_afterFod (cfg : Config) (s : State) (iv : Bool) (b : Build) :
    Passes s (.fod b iv) (afterFod cfg iv b) := by
  unfold afterFod
  split
  · exact .toCachedFailure b iv
  · exact .toDeps _ b rfl

/-- **What a step of the loop can do.** -/
theorem loopStep_cases {env : LoopEnv} (h : s.loopStep cfg env = some s') : LoopMove s s' := by
  unfold State.loopStep at h
  split at h
  · rename_i hp
    cases h; exact .quiet _ (.pass _ rfl (hp ▸ .sweepAtBoot))
  · rename_i hp
    split at h
    · cases h; exact .quiet _ (.of_setPhase hp .sweepAtTop)
    · cases h; exact .quiet _ (.of_setPhase hp (.toList _ rfl))
  · rename_i ids atBoot hp
    cases h
    cases atBoot
    · exact .sweep ids _ { s.loop with phase := .list, lastOrphanReset := s.now } hp rfl (Or.inr rfl)
    · exact .sweep ids _ { s.loop with phase := .top } hp rfl (Or.inl rfl)
  · rename_i hp
    cases h; exact .list _ _ _ hp rfl rfl
  · rename_i hp
    split at h
    · cases h; exact .quiet _ (.of_setPhase hp (.toTop _ rfl))
    · rename_i b rest hr
      cases h; exact .quiet _ (.take _ b _ hp hr rfl)
  · rename_i b hp
    split at h
    · cases h; exact .quiet _ (.of_setPhase hp (.settle _ b _ rfl))
    · cases h; exact .quiet _ (.of_setPhase hp (.skip _ b rfl))
  · rename_i b hp
    split at h
    · split at h
      · cases h; exact .quiet _ (.of_setPhase hp (.settle _ b _ rfl))
      · cases h; exact .quiet _ (.of_setPhase hp (.toFod b))
    · cases h; exact .quiet _ (.of_setPhase hp (.toFod b))
  · rename_i b iv hp
    split at h
    · simp only at h
      split at h
      · cases h; exact .quiet _ (.pass _ rfl (hp ▸ .settle _ b _ rfl))
      · cases h; exact .quiet _ (.pass _ rfl (hp ▸ passes_afterFod cfg s iv b))
    · cases h; exact .quiet _ (.of_setPhase hp (passes_afterFod cfg s iv b))
  · rename_i b hp
    split at h
    · cases h; exact .quiet _ (.of_setPhase hp (.settle _ b _ rfl))
    · cases h; exact .quiet _ (.of_setPhase hp (.toDeps _ b rfl))
  · rename_i b hp
    split at h
    · rename_i hd
      cases h; exact .quiet _ (.of_setPhase hp (.depsDone b hd))
    · cases h; exact .quiet _ (.of_setPhase hp (.skip _ b rfl))
  · rename_i b hp
    split at h
    · cases h; exact .quiet _ (.of_setPhase hp (.supported b))
    · split at h
      · cases h; exact .quiet _ (.of_setPhase hp (.supported b))
      · split at h
        · cases h; exact .quiet _ (.of_setPhase hp (.settle _ b _ rfl))
        · cases h; exact .quiet _ (.of_setPhase hp (.skip _ b rfl))
  · rename_i b hp
    split at h
    · cases h; exact .quiet _ (.of_setPhase hp (.skip _ b rfl))
    · rename_i j hj
      split at h
      · cases h; exact .quiet _ (.of_setPhase hp (.skip _ b rfl))
      · rename_i hr
        cases h; exact .quiet _ (.of_setPhase hp (.free b j hj hr))
  · rename_i b hp
    cases h; exact .dispatch b hp
  · rename_i b c hp
    cases h; exact .doneStart b c _ hp
  · rename_i b c hp
    cases h; exact .doneComplete b c hp
  · cases h

theorem loopFail_cases (h : s.loopFail cfg = some s') : QuietMove s s' := by
  unfold State.loopFail at h
  split at h
  · rename_i ids atBoot hp
    cases h
    cases atBoot
    · exact .pass { s.loop with phase := .list, lastOrphanReset := s.now } rfl (hp ▸ .toList _ rfl)
    · exact .of_setPhase hp (.toTop _ rfl)
  · rename_i hp
    cases h
    split
    · exact .of_setPhase hp .stop
    · exact .of_setPhase hp (.toTop _ rfl)
  · rename_i hp
    split at h
    · cases h
    · rename_i b rest hr
      cases h; exact .take _ b _ hp hr rfl
  · rename_i b hp
    cases h; exact .of_setPhase hp (.skip _ b rfl)
  · rename_i b hp
    cases h; exact .of_setPhase hp (.skip _ b rfl)
  · rename_i b hp
    cases h; exact .of_setPhase hp (.skip _ b rfl)
  · rename_i b hp
    cases h; exact .of_setPhase hp (.skip _ b rfl)
  · rename_i b c hp
    cases h; exact .of_setPhase hp (.skip _ b rfl)
  · rename_i b hp
    cases h; exact .of_setPhase hp (.toFod b)
  · rename_i b hp
    cases h; exact .of_setPhase hp (.toDeps _ b rfl)
  · rename_i b c hp
    cases h; exact .of_setPhase hp (.startFails b c)
  all_goals cases h

/-- A failing statement does not get a build dispatched. -/
theorem loopFail_dispatched (h : s.loopFail cfg = some s') : s'.loop.phase.dispatched = none := by
  unfold State.loopFail at h
  split at h
  case h_1 => cases h; unfold State.sweepDone; split <;> rfl
  case h_2 => cases h; simp only [State.setPhase]; split <;> rfl
  case h_3 =>
    split at h <;> cases h
    simp only [firstFilter]
    split_ifs <;> rfl
  all_goals cases h
  all_goals rfl

/-! ### What a step of the system can do -/

inductive Step (cfg : Config) (s : State) : Action → State → Prop
  | tick (secs : Time) : Step cfg s (.tick secs) { s with now := s.now + secs }
  | loop (env : LoopEnv) (s' : State) (h : LoopMove s s') : Step cfg s (.loop env) s'
  | loopError (s' : State) (h : QuietMove s s') (hd : s'.loop.phase.dispatched = none) :
      Step cfg s .loopError s'
  | task (t : ℕ) (ev : TaskEvent) (task : Task) (s' : State) (ht : s.task t = some task)
      (h : TaskStep cfg s t task ev s') : Step cfg s (.task t ev) s'
  | checker : Step cfg s .checker s.checkerStep
  | checkerError (ids : List Uuid) (h : s.checker = .snapshot ids) :
      Step cfg s .checkerError { s with checker := .idle }
  | cancel (id : Uuid) : Step cfg s (.cancel id) { s with db := Builds.cancel s.now id s.db }
  | cancelSuperseded (e j : Uuid) (sc : String) : Step cfg s (.cancelSuperseded e j sc)
      { s with db := Evaluations.cancelSupersededBuilds s.now e j sc s.db }
  | restart (id : Uuid) (b : Build) (hb : s.db.builds.get id = some b) (hr : b.restartable = true) :
      Step cfg s (.restart id)
        { s with db := Builds.restart id s.db, invalidations := b.drvPath :: s.invalidations }
  | invalidate (drvPath : String) (h : drvPath ∈ s.invalidations) : Step cfg s (.invalidate drvPath)
      { s with db := FailedPathsCache.invalidate drvPath s.db, invalidations := s.invalidations.erase drvPath }
  | cleanupExpired (ttl : Time) : Step cfg s (.cleanupExpired ttl)
      { s with db := FailedPathsCache.cleanupExpired s.now ttl s.db }
  | drain : Step cfg s .drain { s with draining := true }

/-- **What a step can do.** -/
theorem step_cases {a : Action} (h : step cfg s a = some s') : Step cfg s a s' := by
  cases a with
  | tick secs => cases h; exact .tick secs
  | loop env => exact .loop env s' (loopStep_cases h)
  | loopError => exact .loopError s' (loopFail_cases h) (loopFail_dispatched h)
  | task t ev =>
    obtain ⟨task, ht, hs⟩ := Option.bind_eq_some_iff.mp h
    exact .task t ev task s' ht (taskStep_cases hs)
  | checker => cases h; exact .checker
  | checkerError =>
    simp only [step] at h
    split at h
    · cases h; exact .checkerError _ (by assumption)
    · cases h
  | cancel id => cases h; exact .cancel id
  | cancelSuperseded e j sc => cases h; exact .cancelSuperseded e j sc
  | restart id =>
    simp only [step] at h
    split at h
    · rename_i b hb
      split at h
      · rename_i hr
        cases h; exact .restart id b hb hr
      · cases h
    · cases h
  | invalidate drvPath =>
    simp only [step] at h
    split_ifs at h with hm
    cases h; exact .invalidate drvPath hm
  | cleanupExpired ttl => cases h; exact .cleanupExpired ttl
  | drain => cases h; exact .drain

end Circus.Runner
