/-
# Change requests and releases

The webhook handlers and the evaluator (`Circus.Evaluator`) and the queue runner
(`Circus.Runner`) over one database: the evaluator creates evaluations and their
builds, the runner builds them and promotes channels. Each of the two sees the
tables and the columns it works on; `view` is what the runner sees, and what it
does to builds is written back.

Nothing in `auto_promote_if_complete` looks at `pr_number`: `change_released` has
a change request's evaluation complete and become the channel's. A change
request is never released in a run that keeps the two apart (`KeepsApart`): no
jobset that a channel tracks gets an evaluation of a change request.
-/
import Circus.Evaluator.Streams
import Circus.Runner.Promotion

namespace Circus.Release

structure Config where
  evaluator : Evaluator.Config
  runner : Runner.Config

/-- The database as the queue runner reads it; its own tables are those of `own`. -/
def view (db : Evaluator.Db) (own : Db) : Db where
  jobsets := db.jobsets.map (fun j => j.toJobset) fun _ => rfl
  evaluations := db.evaluations.map (fun e => e.toEvaluation) fun _ => rfl
  builds := db.builds
  buildDependencies := db.buildDependencies
  channels := own.channels
  failedPathsCache := own.failedPathsCache
  evaluation_fk e he := by
    obtain ⟨row, hrow, rfl⟩ := List.mem_map.mp he
    rw [Table.get_map, Option.isSome_map]
    exact db.evaluation_fk row hrow
  build_fk b hb := by
    rw [Table.get_map, Option.isSome_map]
    exact db.build_fk b hb
  dependency_fk := db.dependency_fk

/-- The row of a build after the runner's step. -/
def rowAfter (own : Db) (b : Build) : Build :=
  ((own.builds.get b.id).filter fun b' => decide (b'.toJob = b.toJob)).getD b

theorem toJob_rowAfter (own : Db) (b : Build) : (rowAfter own b).toJob = b.toJob := by
  unfold rowAfter
  cases h : (own.builds.get b.id).filter fun b' => decide (b'.toJob = b.toJob) with
  | none => rfl
  | some => exact of_decide_eq_true (Option.filter_eq_some_iff.mp h).2

/-- What the runner's step does to the builds. -/
def writeBack (db : Evaluator.Db) (own : Db) : Evaluator.Db :=
  db.updateBuilds (fun _ => true) (rowAfter own) (toJob_rowAfter own)

structure State where
  evaluator : Evaluator.State
  runner : Runner.State

inductive Action
  | tick (secs : Time)
  | evaluator (a : Evaluator.Action)
  | runner (a : Runner.Action)
  /-- `channels::upsert`: a channel is created, or pointed to a jobset -/
  | trackJobset (channelId jobsetId : Uuid)
  | deleteChannel (channelId : Uuid)

/-- The runner goes on over what the evaluator has made of the database. -/
def State.shared (evaluator : Evaluator.State) (runner : Runner.State) : State where
  evaluator := evaluator
  runner := { runner with db := view evaluator.db runner.db }

/-- The channels change from outside. -/
def State.withChannels (s : State) (channels : Table Channel.id) : State :=
  { s with runner := { s.runner with db := { s.runner.db with channels := channels } } }

/-- One step of the system. The runner's work on builds, which the evaluator's
model has as an action from outside, is the runner's here. -/
def step (cfg : Config) (s : State) : Action → Option State
  | .tick secs => some (.shared { s.evaluator with now := s.evaluator.now + secs }
      { s.runner with now := s.runner.now + secs })
  | .evaluator (.tick _) | .evaluator (.report _ _) | .runner (.tick _) => none
  | .evaluator a => (Evaluator.step cfg.evaluator s.evaluator a).map fun e => .shared e s.runner
  | .runner a => (Runner.step cfg.runner s.runner a).map fun r =>
      .shared { s.evaluator with db := writeBack s.evaluator.db r.db } r
  | .trackJobset channelId jobsetId => some (s.withChannels (s.runner.db.channels.upsert
      { (s.runner.db.channels.get channelId).getD { id := channelId, jobsetId := jobsetId } with
        id := channelId, jobsetId := jobsetId }))
  | .deleteChannel channelId =>
    some (s.withChannels (s.runner.db.channels.delete fun c => decide (c.id = channelId)))

/-- A runner that has just started, beside the evaluator. -/
def State.start (cfg : Config) (evaluator : Evaluator.State) (channels : Table Channel.id) : State where
  evaluator := evaluator
  runner := .start cfg.runner (view evaluator.db { Db.ofRows [] [] [] [] [] (by decide) with channels := channels })

/-! ### One database -/

/-- The runner sees the evaluator's database. -/
def State.Shared (s : State) : Prop := s.runner.db = view s.evaluator.db s.runner.db

theorem get_view_evaluations (db : Evaluator.Db) (own : Db) (k : Uuid) :
    (view db own).evaluations.get k = (db.evaluations.get k).map fun e => e.toEvaluation :=
  Table.get_map db.evaluations (fun e => e.toEvaluation) (fun _ => rfl) k

theorem shared_shared (evaluator : Evaluator.State) (runner : Runner.State) :
    (State.shared evaluator runner).Shared := rfl

/-! ### Keeping apart -/

/-- No channel tracks a jobset that has an evaluation of a change request. -/
def State.Apart (s : State) : Prop :=
  ∀ e ∈ s.evaluator.db.evaluations.rows, e.prNumber.isSome = true → ∀ c ∈ s.runner.db.channels.rows,
    c.jobsetId ≠ e.jobsetId

instance (s : State) : Decidable s.Apart :=
  inferInstanceAs (Decidable (∀ e ∈ s.evaluator.db.evaluations.rows, _ → ∀ c ∈ s.runner.db.channels.rows, _))

/-- A change request is accepted only for jobsets no channel tracks, and a
channel is pointed only to a jobset without change requests. -/
def KeepsApart (cfg : Config) (s : State) : Action → Prop
  | .evaluator a => ∀ r ∈ Evaluator.requestOf cfg.evaluator s.evaluator a, r.input.prNumber.isSome = true →
      ∀ c ∈ s.runner.db.channels.rows, c.jobsetId ≠ r.input.jobsetId
  | .trackJobset _ jobsetId => ∀ e ∈ s.evaluator.db.evaluations.rows, e.prNumber.isSome = true → e.jobsetId ≠ jobsetId
  | _ => True

instance (cfg : Config) (s : State) (a : Action) : Decidable (KeepsApart cfg s a) := by
  unfold KeepsApart
  split <;> infer_instance

/-- A pass is for an evaluation that is there, with its jobset, and reaches
channels only if it is of no change request. -/
def Clean (db : Evaluator.Db) : Runner.Phase → Prop
  | .promoteCount j e | .promoteChannels j e => ∃ row, db.evaluations.get e = some row ∧ row.jobsetId = j
  | .promoting e cs => ∃ row, db.evaluations.get e = some row ∧ (row.prNumber.isSome = true → cs = [])
  | _ => True

structure ReleaseInv (s : State) : Prop where
  shared : s.Shared
  apart : s.Apart
  tasks : ∀ t task, s.runner.task t = some task → Clean s.evaluator.db task.phase

section Step

variable {cfg : Config} {s s' : State}

/-- Evaluations keep their jobset and their change request. -/
theorem Clean.of_identity {db db' : Evaluator.Db} {p : Runner.Phase}
    (hid : ∀ k row, db.evaluations.get k = some row → ∃ row', db'.evaluations.get k = some row' ∧
      row'.identity = row.identity) (h : Clean db p) : Clean db' p := by
  cases p with
  | promoteCount j e | promoteChannels j e =>
    obtain ⟨row, hrow, rfl⟩ := h
    obtain ⟨row', hrow', hi⟩ := hid e row hrow
    exact ⟨row', hrow', EvaluationRow.jobsetId_of_identity hi⟩
  | promoting e =>
    obtain ⟨row, hrow, hnone⟩ := h
    obtain ⟨row', hrow', hi⟩ := hid e row hrow
    have hpr : row'.prNumber = row.prNumber := congrArg (fun i => i.2.1.prNumber) hi
    exact ⟨row', hrow', by rwa [hpr]⟩
  | _ => trivial

theorem ReleaseInv.evaluator {a : Evaluator.Action} {e : Evaluator.State} (hI : ReleaseInv s)
    (ha : KeepsApart cfg s (.evaluator a)) (h : Evaluator.step cfg.evaluator s.evaluator a = some e) :
    ReleaseInv (.shared e s.runner) where
  shared := shared_shared e s.runner
  apart := by
    intro row hrow hpr c hc
    have heffect := Evaluator.step_effect h
    have hget : e.db.evaluations.get row.id = some row := Evaluator.Db.get_of_mem hrow
    cases hold : s.evaluator.db.evaluations.get row.id with
    | some old =>
      obtain ⟨row', hrow', hi⟩ := Evaluator.identity_of_effect heffect hold
      cases hget.symm.trans hrow'
      have hpr' : row.prNumber = old.prNumber := congrArg (fun i => i.2.1.prNumber) hi
      rw [EvaluationRow.jobsetId_of_identity hi]
      exact hI.apart old (Table.mem_of_get hold) (hpr' ▸ hpr) c hc
    | none =>
      -- a row that was not there is the one a request creates
      have hstep := Evaluator.row_of_effect heffect row.id
      rw [hget] at hstep
      generalize hx : some row = x at hstep
      cases hstep with
      | same => cases hx.trans hold
      | created r base hr =>
        cases hx
        exact ha r hr hpr c hc
      | superseded r new old hr hc' he | statement q old hq he | restarted old hr he
      | recorded jobs old hc' he => cases hold.symm.trans he
  tasks t task ht := (hI.tasks t task ht).of_identity fun k row hrow =>
    Evaluator.identity_of_effect (Evaluator.step_effect h) hrow

/-- A move of a task keeps its pass clean. -/
theorem Clean.move {task : Runner.Task} {ev : Runner.TaskEvent} {db : Db} {p : Runner.Phase} (hI : ReleaseInv s)
    (h : Runner.Move cfg.runner s.runner task ev db p) (hc : Clean s.evaluator.db task.phase) :
    Clean s.evaluator.db p := by
  cases h with
  | wait ev db p => cases p <;> trivial
  | report o =>
    rcases Runner.report_cases cfg.runner s.runner.now task.build o with
      ⟨-, h⟩ | ⟨-, -, h⟩ | ⟨_, _, _, _, _, -, h, rfl | rfl | rfl, -⟩ <;> rw [h] <;> trivial
  | loadEvaluation e hp he =>
    rw [Db.evaluationOf, hI.shared, get_view_evaluations] at he
    obtain ⟨row, hrow, rfl⟩ := Option.map_eq_some_iff.mp he
    exact ⟨row, Evaluator.Db.id_of_get hrow ▸ hrow, rfl⟩
  | count j e hp =>
    rw [hp] at hc
    exact hc
  | channels j e hp =>
    rw [hp] at hc
    obtain ⟨row, hrow, rfl⟩ := hc
    refine ⟨row, hrow, fun hpr => ?_⟩
    rw [List.map_eq_nil_iff, Channels.autoPromoteChannels, Table.select, List.filter_eq_nil_iff]
    intro c hm htrack
    exact hI.apart row (Table.mem_of_get hrow) hpr c hm (of_decide_eq_true htrack)
  | promote e c cs hp | promoteFails e c cs hp =>
    rw [hp] at hc
    obtain ⟨row, hrow, hnone⟩ := hc
    exact ⟨row, hrow, fun hpr => by cases hnone hpr⟩
  | _ => trivial

theorem ReleaseInv.runner {a : Runner.Action} {r : Runner.State} (hI : ReleaseInv s)
    (h : Runner.step cfg.runner s.runner a = some r) :
    ReleaseInv (.shared { s.evaluator with db := writeBack s.evaluator.db r.db } r) where
  shared := shared_shared _ r
  apart := by
    intro e he hpr c hc
    replace hc : c ∈ r.db.channels.rows := hc
    have hkept := Runner.channelJobset_of_step h c.id
    rw [Db.channelJobset, Table.get_of_mem hc] at hkept
    obtain ⟨c₀, hc₀, hj⟩ := Option.map_eq_some_iff.mp hkept.symm
    exact fun hce => hI.apart e he hpr c₀ (Table.mem_of_get hc₀) (hj.trans hce)
  tasks t task ht := by
    suffices hclean : Clean s.evaluator.db task.phase from hclean.of_identity fun _ row hrow => ⟨row, hrow, rfl⟩
    rcases Runner.task_of_step h ht with ⟨task₀, ht₀, -, -, ⟨hp, -⟩ | ⟨ev, -, hm⟩⟩ | ⟨_, _, -, -, -, rfl⟩
    · rw [hp]
      exact hI.tasks t task₀ ht₀
    · exact Clean.move hI hm (hI.tasks t task₀ ht₀)
    · trivial

/-- The channels change from outside, to ones that track no jobset of a change
request. -/
theorem ReleaseInv.withChannels {channels : Table Channel.id} (hI : ReleaseInv s)
    (h : (s.withChannels channels).Apart) : ReleaseInv (s.withChannels channels) where
  shared := by
    have hdb := congrArg (fun db : Db => ({ db with channels := channels } : Db)) hI.shared
    exact hdb
  apart := h
  tasks := hI.tasks

theorem ReleaseInv.step {a : Action} (hI : ReleaseInv s) (ha : KeepsApart cfg s a) (h : step cfg s a = some s') :
    ReleaseInv s' := by
  cases a with
  | tick =>
    cases h
    exact ⟨shared_shared _ _, hI.apart, hI.tasks⟩
  | evaluator a =>
    obtain ⟨e, he, rfl⟩ : ∃ e, Evaluator.step cfg.evaluator s.evaluator a = some e ∧ .shared e s.runner = s' := by
      cases a <;> first | exact Option.map_eq_some_iff.mp h | cases h
    exact hI.evaluator ha he
  | runner a =>
    obtain ⟨r, hr, rfl⟩ : ∃ r, Runner.step cfg.runner s.runner a = some r ∧
        .shared { s.evaluator with db := writeBack s.evaluator.db r.db } r = s' := by
      cases a <;> first | exact Option.map_eq_some_iff.mp h | cases h
    exact hI.runner hr
  | trackJobset =>
    cases h
    refine hI.withChannels fun e he hpr c hc => ?_
    rcases Table.mem_upsert.mp hc with rfl | ⟨hc, -⟩
    · exact (ha e he hpr).symm
    · exact hI.apart e he hpr c hc
  | deleteChannel =>
    cases h
    exact hI.withChannels fun e he hpr c hc => hI.apart e he hpr c (List.mem_of_mem_filter hc)

end Step

/-- **A change request never becomes a release**, in every run that keeps the
jobsets of channels and of change requests apart: what a task is about to
promote is of no change request. -/
theorem changes_never_released {cfg : Config} {s₀ s : State} {as : List Action}
    (hfresh : Runner.Fresh cfg.runner s₀.runner) (hshared : s₀.Shared) (hapart : s₀.Apart)
    (hrun : Lts.Along (step cfg) (KeepsApart cfg) s₀ as) (h : Lts.exec (step cfg) s₀ as = some s) {t : ℕ}
    {task : Runner.Task} {e c : Uuid} {cs : List Uuid} (ht : s.runner.task t = some task)
    (hp : task.phase = .promoting e (c :: cs)) :
    ∃ row, s.evaluator.db.evaluations.get e = some row ∧ row.prNumber = none := by
  have hI₀ : ReleaseInv s₀ := ⟨hshared, hapart, fun t task ht => by simp [Runner.State.task, hfresh.tasks] at ht⟩
  have hI := Lts.exec_inv (fun _ _ _ hI ha hs => hI.step ha hs) hI₀ hrun h
  have hclean := hI.tasks t task ht
  rw [hp] at hclean
  obtain ⟨row, hrow, hnone⟩ := hclean
  refine ⟨row, hrow, ?_⟩
  by_contra hpr
  cases hnone (Option.isSome_iff_ne_none.mpr hpr)

/-! ### Runs -/

def small : Config := ⟨Evaluator.small, {}⟩

/-- A channel on the jobset of `main`. -/
def released : State :=
  .start small (Evaluator.withJobset Evaluator.mainJobset) ⟨[{ id := 1, jobsetId := 0 }], List.nodup_singleton _⟩

/-- A change request for `main`. -/
def openedRequest : Evaluator.Webhooks.ChangeRequestEvaluation where
  projectId := 0
  commit := "a"
  first := true
  number := some 7
  baseBranch := some "main"

/-- Delivery 0 reaches the server, and its evaluation has one job. -/
def evaluated : List Action :=
  (.deliver 1 0 :: Evaluator.nexts 1 2 ++ .drain 1 1 :: Evaluator.nexts 1 3 ++
    .task 1 (.evaluated [{ name := "app", drvPath := "app.drv" }] none) :: Evaluator.nexts 1 3).map .evaluator

/-- The runner takes the build up, it succeeds, and its task goes on to its
first `promote`. -/
def builds : List Action := (Runner.loops 12 ++ Runner.claims 0 ++ (Runner.succeeds 0 4).take 5).map .runner

/-- A push to `main` is released. -/
theorem changes_never_released_push :
    ∃ s ∈ Lts.exec (step small) released (.evaluator (.gitPush 0 "main" (some "a")) :: evaluated ++ builds),
      ∃ task ∈ s.runner.task 0, task.phase = .promoting 1 [1] ∧
        ∃ row, s.evaluator.db.evaluations.get 1 = some row ∧ row.prNumber = none := by
  have hrun : Lts.Along (step small) (KeepsApart small) released
      (.evaluator (.gitPush 0 "main" (some "a")) :: evaluated ++ builds) := by decide
  obtain ⟨s, hs, task, ht, hp⟩ : ∃ s ∈ Lts.exec (step small) released
      (.evaluator (.gitPush 0 "main" (some "a")) :: evaluated ++ builds),
      ∃ task ∈ s.runner.task 0, task.phase = .promoting 1 [1] := by decide
  exact ⟨s, hs, task, ht, hp,
    changes_never_released (Runner.fresh_start _ _) (rfl : released.Shared) (by decide) hrun hs ht hp⟩

/-- The build of the change request succeeds, and the channel is pointed to it. -/
theorem change_released :
    ∃ s ∈ Lts.exec (step small) released (.evaluator (.change "pr-7" openedRequest) :: evaluated ++ builds),
      ∃ s' ∈ step small s (.runner (.task 0 .proceed)), s.runner.db.current 1 = none ∧
        s'.runner.db.current 1 = some 1 ∧
        (s'.evaluator.db.evaluations.get 1).map (·.prNumber) = some (some 7) := by
  decide

end Circus.Release
