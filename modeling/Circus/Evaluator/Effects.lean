/-
# What a step does

Inversion of `step`, once for all invariants. `Performed` says what a task's
move does to the whole state; `Effect` what any action does to the database:
nothing, one statement, one creation, one restart, one commit of results, or
a change from outside. Which of these an action is can be read off the state
before it (`statementOf`, `requestOf`, `restartOf`, `commitOf`), so conditions
on runs are conditions on those.
-/
import Circus.Evaluator.System

namespace Circus.Evaluator

open Webhooks

namespace State

@[simp] theorem db_goto (s : State) (t : ℕ) (p : Phase) : (s.goto t p).db = s.db := rfl

theorem phase_goto (s : State) (t t' : ℕ) (p : Phase) : (s.goto t p).phase t' = if t' = t then p else s.phase t' := by
  unfold phase goto
  by_cases h : t' = t
  · subst h
    simp
  · simp [AList.lookup_insert_ne h, h]

/-- Some task is at a phase of this kind. -/
theorem any_tasks_iff {s : State} {p : Phase → Bool} (hp : p .idle = false) :
    (s.tasks.entries.any fun x => p x.2) = true ↔ ∃ t, p (s.phase t) = true := by
  unfold phase
  rw [List.any_eq_true]
  constructor
  · rintro ⟨⟨t, q⟩, hm, hl⟩
    refine ⟨t, ?_⟩
    rw [Option.mem_def.mp (AList.mem_lookup_iff.mpr hm)]
    exact hl
  · rintro ⟨t, hl⟩
    cases ht : s.tasks.lookup t with
    | none => simp [ht, hp] at hl
    | some q => exact ⟨⟨t, q⟩, AList.mem_lookup_iff.mp (Option.mem_def.mpr ht), by simpa [ht] using hl⟩

theorem locked_iff {s : State} {id : Uuid} : s.locked id = true ↔ ∃ t, (s.phase t).locks id = true :=
  any_tasks_iff rfl

theorem not_locked_of_waits {s : State} {p : EvaluationRow → Bool} (h : s.waits p = false) {e : EvaluationRow}
    (he : s.db.evaluations.get e.id = some e) (hp : p e = true) : s.locked e.id = false := by
  have := List.any_eq_false.mp h e (Table.mem_of_get he)
  simpa [hp] using this

theorem issue_eq_some {s s' : State} {q : Statement} : s.issue q = some s' ↔
    s.waits (fun e => q.selects s.now e) = false ∧ s' = { s with db := q.run s.now s.db } := by
  unfold issue
  split_ifs with h
  · simp [h]
  · simp [h, eq_comm]

end State

/-- What a move of task `t` does. -/
inductive Performed (s : State) (t : ℕ) : Move → State → Prop
  | statement {q : Statement} {next : Option EvaluationRow → Phase}
      (hw : s.waits (fun e => q.selects s.now e) = false) :
      Performed s t (.statement q next)
        (State.goto { s with db := q.run s.now s.db } t (next (q.returning s.now s.db)))
  | refused {r : Request} {next : Except CiError EvaluationRow → Phase} {e : CiError}
      (h : r.run s.now s.db = .error e) : Performed s t (.request r next) (s.goto t (next (.error e)))
  | created {r : Request} {next : Except CiError EvaluationRow → Phase} {e : EvaluationRow} {db : Db}
      (h : r.run s.now s.db = .ok (e, db)) (hw : s.waits (r.supersedes s.db) = false) :
      Performed s t (.request r next) (State.goto { s with db := db } t (next (.ok e)))
  | kept {id : Uuid} {next : Bool → Phase} (h : s.db.restart s.now id = none) :
      Performed s t (.restart id next) (s.goto t (next false))
  | restarted {id : Uuid} {next : Bool → Phase} {db : Db} (h : s.db.restart s.now id = some db) :
      Performed s t (.restart id next) (State.goto { s with db := db } t (next true))
  | notRunning {id : Uuid} {next : Bool → Phase} : Performed s t (.lockRunning id next) (s.goto t (next false))
  | locked {id : Uuid} {next : Bool → Phase} {e : EvaluationRow} (he : s.db.evaluations.get id = some e)
      (hr : e.status = .running) (hl : s.locked id = false) :
      Performed s t (.lockRunning id next) (s.goto t (next true))
  | committed {id : Uuid} {jobs : List NixJob} {next : Phase} :
      Performed s t (.commit id jobs next) (State.goto { s with db := s.db.record s.now id jobs } t next)
  | fetched {projectId : Uuid} {next : Repo → Phase} : Performed s t (.fetch projectId next)
      (State.goto { s with repos := Function.update s.repos projectId (s.repos projectId).fetchAllRefs } t
        (next (s.repos projectId).fetchAllRefs))
  | read {next : Db → Phase} : Performed s t (.read next) (s.goto t (next s.db))

variable {s s' : State}

theorem performed {t : ℕ} {m : Move} (h : s.perform t m = some s') : Performed s t m s' := by
  cases m with
  | statement =>
    obtain ⟨s₁, h1, rfl⟩ := Option.map_eq_some_iff.mp h
    obtain ⟨hw, rfl⟩ := State.issue_eq_some.mp h1
    exact .statement hw
  | request r =>
    simp only [State.perform] at h
    cases hr : r.run s.now s.db with
    | error =>
      simp only [hr, Option.some.injEq] at h
      exact h ▸ .refused hr
    | ok p =>
      obtain ⟨e, db⟩ := p
      simp only [hr] at h
      split_ifs at h with hw
      exact Option.some.inj h ▸ .created hr (by simpa using hw)
  | restart id =>
    simp only [State.perform] at h
    cases hr : s.db.restart s.now id with
    | none =>
      simp only [hr, Option.some.injEq] at h
      exact h ▸ .kept hr
    | some =>
      simp only [hr, Option.some.injEq] at h
      exact h ▸ .restarted hr
  | lockRunning =>
    simp only [State.perform] at h
    split_ifs at h with hr hl
    · obtain ⟨e, he, hs⟩ := (Option.any_eq_true _ _).mp hr
      exact Option.some.inj h ▸ .locked he (by simpa using hs) (by simpa using hl)
    · exact Option.some.inj h ▸ .notRunning
  | commit => exact Option.some.inj h ▸ .committed
  | fetch => exact Option.some.inj h ▸ .fetched
  | read => exact Option.some.inj h ▸ .read

/-! ### What an action is -/

/-- The statement the action issues. -/
def statementOf (cfg : Config) (s : State) : Action → Option Statement
  | .cancel id => some (.cancel id)
  | .sweep => some (.sweepOrphaned cfg.deadlineSecs)
  | .task t event =>
    match (s.phase t).move cfg event with
    | some (.statement q _) => some q
    | _ => none
  | _ => none

/-- The creation the action runs. -/
def requestOf (cfg : Config) (s : State) : Action → Option Request
  | .task t event =>
    match (s.phase t).move cfg event with
    | some (.request r _) => some r
    | _ => none
  | _ => none

/-- The evaluation the action restarts, if it can be. -/
def restartOf (cfg : Config) (s : State) : Action → Option Uuid
  | .restart id => some id
  | .task t event =>
    match (s.phase t).move cfg event with
    | some (.restart id _) => some id
    | _ => none
  | _ => none

/-- The results the action commits. -/
def commitOf (cfg : Config) (s : State) : Action → Option (Uuid × List NixJob)
  | .task t event =>
    match (s.phase t).move cfg event with
    | some (.commit id jobs _) => some (id, jobs)
    | _ => none
  | _ => none

variable {cfg : Config}

/-- The statements a task can issue, and where in its code. -/
theorem Phase.move_statement {p : Phase} {event : TaskEvent} {q : Statement}
    {next : Option EvaluationRow → Phase} (h : p.move cfg event = some (.statement q next)) :
    (∃ id, q = .tryClaimPending id) ∨
    (∃ id, p = .rerunning id ∧ q = .updateStatus id .running none) ∨
    (∃ id, p = .rejecting id ∧ q = .updateStatus id .failed (some rejectedMessage)) ∨
    (∃ id status message, q = .finishRunning id status message ∧ status.isActive = false ∧
      status ≠ .cancelled) ∨
    ∃ flow e, p = .hashing flow e ∧ q = .setInputsHash e.id (cfg.computeInputsHash e.jobsetId e.commitHash) := by
  have hc : EvaluationStatus.completed.isActive = false := rfl
  have hf : EvaluationStatus.failed.isActive = false := rfl
  unfold Phase.move at h
  split at h <;> try first | cases h | (split at h <;> cases h) | (split_ifs at h <;> cases h)
  all_goals simp [hc, hf, isActive_failureStatus, failureStatus_ne_cancelled]

/-- The evaluation an action sets to `running` whatever its status is: the last
statement of `claim_existing` on a completed evaluation. -/
def rerunOf (cfg : Config) (s : State) (a : Action) : Option Uuid :=
  match statementOf cfg s a with
  | some (.updateStatus id .running none) => some id
  | _ => none

variable {a : Action}

/-- A statement is an operator's, the sweep's or a task's. -/
theorem statementOf_eq_some {q : Statement} (h : statementOf cfg s a = some q) :
    (∃ id, a = .cancel id ∧ q = .cancel id) ∨ (a = .sweep ∧ q = .sweepOrphaned cfg.deadlineSecs) ∨
      ∃ t event next, a = .task t event ∧ (s.phase t).move cfg event = some (.statement q next) := by
  cases a with
  | cancel id => exact .inl ⟨id, rfl, (Option.some.inj h).symm⟩
  | sweep => exact .inr (.inl ⟨rfl, (Option.some.inj h).symm⟩)
  | task t event =>
    cases hm : (s.phase t).move cfg event with
    | none => simp [statementOf, hm] at h
    | some m =>
      cases m with
      | statement q' next =>
        obtain rfl : q' = q := by simpa [statementOf, hm] using h
        exact .inr (.inr ⟨t, event, next, rfl, hm⟩)
      | _ => simp [statementOf, hm] at h
  | _ => cases h

theorem statementOf_cases {q : Statement} (h : statementOf cfg s a = some q) : (∃ id, q = .tryClaimPending id) ∨
    (∃ id, rerunOf cfg s a = some id ∧ q = .updateStatus id .running none) ∨
    (∃ id, q = .updateStatus id .failed (some rejectedMessage)) ∨
    (∃ id status message, q = .finishRunning id status message ∧ status.isActive = false ∧
      status ≠ .cancelled) ∨
    (∃ t flow e, s.phase t = .hashing flow e ∧
      q = .setInputsHash e.id (cfg.computeInputsHash e.jobsetId e.commitHash)) ∨
    (∃ id, a = .cancel id ∧ q = .cancel id) ∨ q = .sweepOrphaned cfg.deadlineSecs := by
  rcases statementOf_eq_some h with ⟨id, rfl, rfl⟩ | ⟨rfl, rfl⟩ | ⟨t, event, next, -, hm⟩
  · simp
  · simp
  · rcases Phase.move_statement hm with ⟨id, rfl⟩ | ⟨id, -, rfl⟩ | ⟨id, -, rfl⟩ | hq | ⟨flow, e, hp, rfl⟩
    · simp
    · simp [rerunOf, h]
    · simp
    · exact .inr (.inr (.inr (.inl hq)))
    · exact .inr (.inr (.inr (.inr (.inl ⟨t, flow, e, hp, rfl⟩))))

/-! ### How a task begins -/

theorem deliver_of_step {t k : ℕ} (h : step cfg s (.deliver t k) = some s') :
    ∃ d, s.phase t = .idle ∧ s.sent[k]? = some d ∧ s' = s.goto t (.triggering (d.requests s.db)) := by
  simp only [step] at h
  split at h
  next d hi hd => exact ⟨d, hi, hd, (Option.some.inj h).symm⟩
  next => cases h

theorem poll_of_step {t : ℕ} {i : Uuid} (h : step cfg s (.poll t i) = some s') :
    ∃ j, s.phase t = .idle ∧ s.db.jobsets.get i = some j ∧ j.active = true ∧ s' = s.goto t (.polling j) := by
  simp only [step] at h
  split at h
  next j hi hj =>
    obtain ⟨hj, hact⟩ := Option.filter_eq_some_iff.mp hj
    exact ⟨j, hi, hj, hact, (Option.some.inj h).symm⟩
  next => cases h

/-- `run_cycle` takes up what it has listed as pending. -/
theorem drain_of_step {t : ℕ} {i : Uuid} (h : step cfg s (.drain t i) = some s') :
    ∃ e j p, s.phase t = .idle ∧ s.db.evaluations.get i = some e ∧ e.status = .pending ∧
      s.db.jobsets.get e.jobsetId = some j ∧ j.active = true ∧ (p = .listed .drain i ∨ p = .rejecting i) ∧
      s' = s.goto t p := by
  simp only [step] at h
  split at h
  next e hi he =>
    split at h
    next j hj =>
      obtain ⟨hj, hact⟩ := Option.filter_eq_some_iff.mp hj
      split_ifs at h with hst
      · exact ⟨e, j, _, hi, he, not_not.mp hst, hj, hact, .inl rfl, (Option.some.inj h).symm⟩
      · exact ⟨e, j, _, hi, he, not_not.mp hst, hj, hact, .inr rfl, (Option.some.inj h).symm⟩
    next => cases h
  next => cases h

/-- What an action does to the database. -/
inductive Effect (cfg : Config) (s : State) (a : Action) : Db → Prop
  | none : Effect cfg s a s.db
  | statement (q : Statement) (hq : statementOf cfg s a = some q)
      (hw : s.waits (fun e => q.selects s.now e) = false) : Effect cfg s a (q.run s.now s.db)
  | create (r : Request) (e : EvaluationRow) (db : Db) (hr : requestOf cfg s a = some r)
      (h : r.Created s.now s.db e db) (hw : s.waits (r.supersedes s.db) = false) : Effect cfg s a db
  | restart (id : Uuid) (db : Db) (hr : restartOf cfg s a = some id) (h : Db.Restarted s.now id s.db db) :
      Effect cfg s a db
  | record (id : Uuid) (jobs : List NixJob) (hc : commitOf cfg s a = some (id, jobs)) :
      Effect cfg s a (s.db.record s.now id jobs)
  | configure (jobset : JobsetRow) (ha : a = .configure jobset) : Effect cfg s a (s.db.configure jobset)
  | report (buildId : Uuid) (status : BuildStatus) (ha : a = .report buildId status) : Effect cfg s a
      (s.db.updateBuilds (fun b => decide (b.id = buildId)) (fun b => { b with status := status }) fun _ => rfl)

theorem step_effect (h : step cfg s a = some s') : Effect cfg s a s'.db := by
  cases a with
  | tick => exact Option.some.inj h ▸ .none
  | configure jobset => exact Option.some.inj h ▸ .configure jobset rfl
  | report buildId status => exact Option.some.inj h ▸ .report buildId status rfl
  | gitPush =>
    simp only [step, State.gitPush] at h
    split_ifs at h
    exact Option.some.inj h ▸ .none
  | gitTag | change => exact Option.some.inj h ▸ .none
  | deliver =>
    obtain ⟨_, -, -, rfl⟩ := deliver_of_step h
    exact .none
  | cancel =>
    obtain ⟨hw, rfl⟩ := State.issue_eq_some.mp h
    exact .statement _ rfl hw
  | restart id =>
    cases h
    cases hr : s.db.restart s.now id with
    | none => exact .none
    | some db => exact .restart id db rfl (Db.restarted hr)
  | sweep =>
    obtain ⟨hw, rfl⟩ := State.issue_eq_some.mp h
    exact .statement _ rfl hw
  | poll =>
    obtain ⟨_, -, -, -, rfl⟩ := poll_of_step h
    exact .none
  | drain =>
    obtain ⟨_, _, _, -, -, -, -, -, -, rfl⟩ := drain_of_step h
    exact .none
  | task =>
    obtain ⟨m, hm, hp⟩ := Option.bind_eq_some_iff.mp h
    cases performed hp with
    | statement hw => exact .statement _ (by simp [statementOf, hm]) hw
    | refused => exact .none
    | created hr hw => exact .create _ _ _ (by simp [requestOf, hm]) (Request.created hr) hw
    | kept => exact .none
    | restarted hr => exact .restart _ _ (by simp [restartOf, hm]) (Db.restarted hr)
    | notRunning | locked => exact .none
    | committed => exact .record _ _ (by simp [commitOf, hm])
    | fetched | read => exact .none

/-- A jobset keeps what reconfigurations keep and what does not depend on
`enabled`. -/
theorem jobset_of_effect {db : Db} {jobsetId : Uuid} {P : JobsetRow → Prop}
    (hen : ∀ row, P row → P { row with enabled := true })
    (hk : ∀ jobset, a = .configure jobset → jobset.id = jobsetId → P jobset)
    (hrow : ∃ row, s.db.jobsets.get jobsetId = some row ∧ P row) (h : Effect cfg s a db) :
    ∃ row, db.jobsets.get jobsetId = some row ∧ P row := by
  cases h with
  | none | statement => exact hrow
  | create r e db hr hc => exact hc.jobsets ▸ hrow
  | restart id db hr hre =>
    obtain ⟨row, hj, hrow⟩ := hrow
    rcases hre.jobsets jobsetId with h | ⟨row', hj', h⟩
    · exact ⟨row, h.trans hj, hrow⟩
    · obtain rfl := Option.some.inj (hj.symm.trans hj')
      exact ⟨_, h, hen row hrow⟩
  | record =>
    rw [Db.jobsets_record]
    exact hrow
  | configure jobset ha =>
    rw [Db.configure, Table.get_upsert]
    split_ifs with hj
    · exact ⟨jobset, rfl, hk jobset ha hj.symm⟩
    · exact hrow
  | report => exact hrow

/-- What a step does to the repositories, and what the forges send. -/
inductive ForgeStep (s : State) (a : Action) (s' : State) : Prop
  | kept (hs : s'.sent = s.sent) (hr : s'.repos = s.repos)
  | fetched (projectId : Uuid) (hs : s'.sent = s.sent)
      (hr : s'.repos = Function.update s.repos projectId (s.repos projectId).fetchAllRefs)
  | pushed (projectId : Uuid) (branch : String) (commit : Option String) (ha : a = .gitPush projectId branch commit)
      (hc : commit.any isDeletedCommit = false)
      (hs : s'.sent = s.sent ++
        [.push projectId (branchPush branch ((s.tip projectId branch).getD zeroCommit) (commit.getD zeroCommit))])
      (hr : s'.repos = Function.update s.repos projectId { s.repos projectId with
        branches := commit.elim ((s.repos projectId).branches.erase branch) fun c =>
          (s.repos projectId).branches.insert branch c })
  | tagged (projectId : Uuid) (name commit : String) (time : ℤ)
      (hs : s'.sent = s.sent ++ [.push projectId ⟨some ("refs/tags/" ++ name), some zeroCommit, some commit, none⟩])
      (hr : s'.repos = Function.update s.repos projectId { s.repos projectId with
        tags := (s.repos projectId).tags.insert name (commit, time) })
  | changed (name : String) (c : ChangeRequestEvaluation) (ha : a = .change name c)
      (hs : s'.sent = s.sent ++ [.change c])
      (hr : s'.repos = Function.update s.repos c.projectId { s.repos c.projectId with
        requests := (s.repos c.projectId).requests.insert name c.commit })

theorem forge_of_step (h : step cfg s a = some s') : ForgeStep s a s' := by
  cases a with
  | gitPush projectId branch commit =>
    simp only [step, State.gitPush] at h
    split_ifs at h with hc
    cases h
    exact .pushed projectId branch commit rfl (by simpa using (not_or.mp hc).2) rfl rfl
  | gitTag projectId name commit time => exact Option.some.inj h ▸ .tagged projectId name commit time rfl rfl
  | change name c => exact Option.some.inj h ▸ .changed name c rfl rfl rfl
  | tick | configure | report => exact Option.some.inj h ▸ .kept rfl rfl
  | deliver =>
    obtain ⟨_, -, -, rfl⟩ := deliver_of_step h
    exact .kept rfl rfl
  | cancel =>
    obtain ⟨-, rfl⟩ := State.issue_eq_some.mp h
    exact .kept rfl rfl
  | restart => exact Option.some.inj h ▸ .kept rfl rfl
  | sweep =>
    obtain ⟨-, rfl⟩ := State.issue_eq_some.mp h
    exact .kept rfl rfl
  | poll =>
    obtain ⟨_, -, -, -, rfl⟩ := poll_of_step h
    exact .kept rfl rfl
  | drain =>
    obtain ⟨_, _, _, -, -, -, -, -, -, rfl⟩ := drain_of_step h
    exact .kept rfl rfl
  | task =>
    obtain ⟨m, hm, hp⟩ := Option.bind_eq_some_iff.mp h
    cases performed hp with
    | fetched => exact .fetched _ rfl rfl
    | _ => exact .kept rfl rfl

namespace State

variable {s s' : State} {p : Uuid}

theorem tip_kept_repos (hr : s'.repos = s.repos) (q : Uuid) (b : String) : s'.tip q b = s.tip q b := by
  rw [tip, hr, tip]

/-- Only a push moves a branch. -/
theorem tip_update {r : Repo} (hr : s'.repos = Function.update s.repos p r) (hb : r.branches = (s.repos p).branches)
    (q : Uuid) (b : String) : s'.tip q b = s.tip q b := by
  unfold tip
  rw [hr]
  by_cases hp : q = p
  · subst hp
    rw [Function.update_self, hb]
  · rw [Function.update_of_ne hp]

theorem tip_push {branch : String} {commit : Option String}
    (hr : s'.repos = Function.update s.repos p { s.repos p with
      branches := commit.elim ((s.repos p).branches.erase branch) fun c => (s.repos p).branches.insert branch c })
    (q : Uuid) (b : String) : s'.tip q b = if p = q ∧ branch = b then commit else s.tip q b := by
  unfold tip
  rw [hr]
  by_cases hp : q = p
  · subst hp
    rw [Function.update_self]
    by_cases hb : b = branch
    · subst hb
      cases commit <;> simp
    · rw [if_neg fun h => hb h.2.symm]
      cases commit with
      | none => exact AList.lookup_erase_ne hb
      | some => exact AList.lookup_insert_ne hb
  · rw [Function.update_of_ne hp, if_neg fun h => hp h.1.symm]

end State

theorem tip_of_step (h : step cfg s a = some s') {p : Uuid} {b : String}
    (ha : ∀ commit, a ≠ .gitPush p b commit) : s'.tip p b = s.tip p b := by
  cases forge_of_step h with
  | kept hs hr => exact State.tip_kept_repos hr p b
  | fetched q hs hr | tagged q name commit time hs hr | changed name c hact hs hr => exact State.tip_update hr rfl p b
  | pushed q branch commit hact hc hs hr =>
    rw [State.tip_push hr, if_neg]
    rintro ⟨rfl, rfl⟩
    exact ha commit hact

/-- A request is refused, or goes through. -/
theorem effect_of_request {r : Request} (hr : requestOf cfg s a = some r) (h : step cfg s a = some s') :
    (∃ e, r.run s.now s.db = .error e) ∧ s'.db = s.db ∨ ∃ e, r.Created s.now s.db e s'.db := by
  cases a with
  | task t event =>
    obtain ⟨m, hm, hp⟩ := Option.bind_eq_some_iff.mp h
    cases m with
    | request r' =>
      obtain rfl : r' = r := by simpa [requestOf, hm] using hr
      cases performed hp with
      | refused he => exact .inl ⟨⟨_, he⟩, rfl⟩
      | created he => exact .inr ⟨_, Request.created he⟩
    | _ => simp [requestOf, hm] at hr
  | _ => cases hr

/-- What an action that leaves the database `db` makes of the row of evaluation `id`. -/
inductive RowStep (cfg : Config) (s : State) (a : Action) (db : Db) (id : Uuid) : Option EvaluationRow → Prop
  | same : RowStep cfg s a db id (s.db.evaluations.get id)
  | created (r : Request) (base : Option String) (hr : requestOf cfg s a = some r)
      (hc : r.Created s.now s.db (.create s.db.nextId s.now r.input r.kind r.status r.scope base) db)
      (hid : id = s.db.nextId) :
      RowStep cfg s a db id (some (.create s.db.nextId s.now r.input r.kind r.status r.scope base))
  | superseded (r : Request) (new e : EvaluationRow) (hr : requestOf cfg s a = some r)
      (hc : r.Created s.now s.db new db) (he : s.db.evaluations.get id = some e) (hs : r.supersedes s.db e = true) :
      RowStep cfg s a db id (some (e.supersede s.db.nextId))
  | statement (q : Statement) (e : EvaluationRow) (hq : statementOf cfg s a = some q)
      (he : s.db.evaluations.get id = some e) (hs : q.selects s.now e = true) :
      RowStep cfg s a db id (some (q.set s.now e))
  | restarted (e : EvaluationRow) (hr : restartOf cfg s a = some id) (he : s.db.evaluations.get id = some e)
      (hs : e.restartable = true) : RowStep cfg s a db id (some (e.restartRequeue s.now))
  | recorded (jobs : List NixJob) (e : EvaluationRow) (hc : commitOf cfg s a = some (id, jobs))
      (he : s.db.evaluations.get id = some e) (hs : e.status = .running) :
      RowStep cfg s a db id (some (e.setStatus .completed none))

theorem row_of_effect {db : Db} (h : Effect cfg s a db) (id : Uuid) :
    RowStep cfg s a db id (db.evaluations.get id) := by
  have hsame : ∀ db', RowStep cfg s a db' id (s.db.evaluations.get id) := fun _ => .same
  cases h with
  | none => exact hsame _
  | statement q hq =>
    rw [Statement.get_run]
    cases he : s.db.evaluations.get id with
    | none => simpa [he] using hsame _
    | some e =>
      rw [Option.map_some, Statement.apply]
      split_ifs with hs
      · exact .statement q e hq he hs
      · exact he ▸ hsame _
  | create r e db hr hc =>
    rw [hc.get]
    split_ifs with hid
    · obtain ⟨base, rfl⟩ := hc.row
      exact .created r base hr hc hid
    · cases he : s.db.evaluations.get id with
      | none => simpa [he] using hsame _
      | some e' =>
        rw [Option.map_some]
        split_ifs with hs
        · exact .superseded r e e' hr hc he hs
        · exact he ▸ hsame _
  | restart id' db hr hres =>
    rw [hres.get]
    split_ifs with hid
    · subst hid
      obtain ⟨e, he, hs⟩ := hres.restartable
      rw [he, Option.map_some]
      exact .restarted e hr he hs
    · exact hsame _
  | record id' jobs hc =>
    rw [Db.get_record]
    cases he : s.db.evaluations.get id with
    | none => simpa [he] using hsame _
    | some e =>
      rw [Option.map_some, Statement.apply]
      split_ifs with hs
      · obtain ⟨h1, h2⟩ := decide_eq_true_iff.mp hs
        obtain rfl : id = id' := (Db.id_of_get he).symm.trans h1
        exact .recorded jobs e hc he h2
      · exact he ▸ hsame _
  | configure | report => exact hsame _

/-- Only `claim_existing`'s last statement makes an inactive evaluation active. -/
theorem active_of_apply {q : Statement} (hq : statementOf cfg s a = some q)
    {e : EvaluationRow} (h : (q.apply s.now e).status.isActive = true) :
    e.status.isActive = true ∨ rerunOf cfg s a = some e.id := by
  unfold Statement.apply at h
  split_ifs at h with hs
  · rcases statementOf_cases hq with ⟨id, rfl⟩ | ⟨id, hr, rfl⟩ | ⟨id, rfl⟩ | ⟨id, st, m, rfl, -⟩ |
      ⟨t, flow, e₀, -, rfl⟩ | ⟨id, -, rfl⟩ | rfl
    · have hp : e.id = id ∧ e.status = .pending := by simpa [Statement.selects] using hs
      exact .inl (EvaluationStatus.isActive_iff.mpr (.inl hp.2))
    · have hp : e.id = id := by simpa [Statement.selects] using hs
      exact .inr (hp ▸ hr)
    · cases h
    · have hp : e.id = id ∧ e.status = .running := by simpa [Statement.selects] using hs
      exact .inl (EvaluationStatus.isActive_iff.mpr (.inr hp.2))
    · exact .inl h
    · cases h
    · have hp := (decide_eq_true_iff.mp hs).1
      exact .inl (EvaluationStatus.isActive_iff.mpr (.inr hp))
  · exact .inl h

end Circus.Evaluator
