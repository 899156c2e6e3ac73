/-
# Completeness of promotion

When the last build of an evaluation succeeds its task promotes the
evaluation. The loop completes builds too (aggregates, known derivations,
valid fixed outputs) and never looks at channels: `settled_unpromoted` is an
evaluation whose only build is an aggregate, and whose channel stays empty.

`promotion_complete`: if no evaluation has its last build completed by the
loop, no task is cut off after its `complete`, no succeeded build loses its
status and passes begin in order (`PromotesAll`), then whenever no task is
live the channels of a fully succeeded evaluation point to it or to a later
one. The invariant is that until then some task has the evaluation still to
promote (`Covered`).
-/
import Circus.Runner.Promotion

namespace Circus

/-- Channel `c` points to a fully succeeded evaluation of the jobset of `e` that
is no earlier. -/
def Db.UpToDate (db : Db) (e c : Uuid) : Prop :=
  ∃ e', db.current c = some e' ∧ db.evaluationJobset e' = db.evaluationJobset e ∧ db.FullySucceeded e' ∧
    db.evaluationTime e ≤ db.evaluationTime e'

namespace Runner

open Lts

/-- The build the loop is about to `complete` as succeeded. -/
def LoopPhase.succeeding : LoopPhase → Option Build
  | doneComplete b c => if c.status = .succeeded then some b else none
  | _ => none

/-- The build is completed and `run_build` goes on. -/
def Phase.isSettled : Phase → Bool
  | cachingFailure _ | reloading | loadingEvaluation | promoteCount _ _ | promoteChannels _ _ | promoting _ _ => true
  | _ => false

/-- The loop does not complete the last build of an evaluation. -/
def LeavesLast (s : State) : Action → Prop
  | .loop _ => ∀ b ∈ s.loop.phase.succeeding, ∃ b' ∈ s.db.builds.rows,
      b'.evaluationId = b.evaluationId ∧ b'.id ≠ b.id ∧ b'.status ≠ .succeeded
  | _ => True

/-- No error and no cancelled token ends a task that has completed its build. -/
def RunsOn (s : State) : Action → Prop
  | .task t .error | .task t .abort => ∀ task ∈ s.task t, task.phase.isSettled = false
  | _ => True

instance (s : State) (a : Action) : Decidable (LeavesLast s a) := by
  induction a using Action.casesOn <;> dsimp only [LeavesLast] <;> infer_instance

instance (s : State) (a : Action) : Decidable (RunsOn s a) := by
  unfold RunsOn
  split <;> infer_instance

structure PromotesAll (s : State) (a : Action) : Prop where
  order : PromotesInOrder s a
  keeps : ∀ k ∈ overwritten s a, s.db.status k ≠ some .succeeded
  leavesLast : LeavesLast s a
  runsOn : RunsOn s a

instance (s : State) (a : Action) : Decidable (PromotesAll s a) :=
  decidable_of_iff (PromotesInOrder s a ∧ (∀ k ∈ overwritten s a, s.db.status k ≠ some .succeeded) ∧
      LeavesLast s a ∧ RunsOn s a)
    ⟨fun h => ⟨h.1, h.2.1, h.2.2.1, h.2.2.2⟩, fun h => ⟨h.1, h.2, h.3, h.4⟩⟩

def Task.WillPromote (task : Task) (e c : Uuid) : Prop :=
  match task.phase with
  | .cachingFailure _ | .reloading | .loadingEvaluation => task.build.evaluationId = e
  | .promoteCount _ e' | .promoteChannels _ e' => e' = e
  | .promoting e' cs => e' = e ∧ c ∈ cs
  | _ => False

theorem Task.WillPromote.isSettled {task : Task} {e c : Uuid} (h : task.WillPromote e c) :
    task.phase.isSettled = true := by
  unfold Task.WillPromote at h
  split at h
  case h_7 => exact h.elim
  all_goals rename_i hp; rw [hp]; rfl

/-! ### How a build succeeds -/

section Success

variable {cfg : Config} {s s' : State} {a : Action}

/-- A report that makes the build succeeded goes on after it. -/
theorem report_succeeds {now : Time} {b : Build} {o : Outcome} {db : Db} (h : db.status b.id ≠ some .succeeded)
    (h' : ((report cfg now b o).1 db).status b.id = some .succeeded) :
    (report cfg now b o).2 = .reloading ∨ ∃ st, (report cfg now b o).2 = .cachingFailure st := by
  rcases report_cases cfg now b o with ⟨-, hr⟩ | ⟨-, -, hr⟩ | ⟨st, l, out, e, p, -, hr, hp, hst⟩ <;> rw [hr] at h' ⊢
  · -- a `requeue` leaves it pending or as it was
    simp only [Builds.requeue, Db.status_updateBuild, Option.map_eq_some_iff] at h'
    obtain ⟨row, hrow, hs⟩ := h'
    unfold Build.requeue at hs
    split at hs
    · cases hs
    · exact absurd (Db.status_eq_some.mpr ⟨row, hrow, hs⟩) h
  · simp only [Builds.retry, Db.status_updateBuild, Option.map_eq_some_iff] at h'
    obtain ⟨row, -, hs⟩ := h'
    cases hs
  · simp only [Builds.complete, Db.status_updateBuild, Option.map_eq_some_iff] at h'
    obtain ⟨row, -, hs⟩ := h'
    rcases hp with hp | hp | hp
    · exact absurd hp (hst hs)
    · exact .inl hp
    · exact .inr ⟨st, hp⟩

theorem step_report {t : ℕ} {o : Outcome} {task : Task} (h : step cfg s (.task t (.report o)) = some s')
    (ht : s.task t = some task) : s'.db = (report cfg s.now task.build o).1 s.db ∧
      s'.task t = some { task with phase := (report cfg s.now task.build o).2, venue := none } := by
  simp only [step, ht, Option.bind_some, State.taskStep] at h
  split at h
  · cases h
    exact ⟨rfl, State.setTask_self _ t _⟩
  · cases h

/-- A build becomes succeeded by the report of a task, which then goes on, or
by the loop. -/
theorem succeeds_by_step (h : step cfg s a = some s') {k : Uuid} (hk : s.db.status k ≠ some .succeeded)
    (hk' : s'.db.status k = some .succeeded) :
    (∃ t o task task', a = .task t (.report o) ∧ s.task t = some task ∧ s'.task t = some task' ∧ task.build.id = k ∧
      task'.build = task.build ∧ (task'.phase = .reloading ∨ ∃ st, task'.phase = .cachingFailure st)) ∨
    ∃ env, a = .loop env ∧ ∃ b ∈ s.loop.phase.succeeding, b.id = k := by
  rcases step_status h k with heq | ⟨st, st', h1, h2, hm⟩
  · exact absurd (heq ▸ hk') hk
  · obtain rfl : st' = .succeeded := Option.some.inj (h2.symm.trans hk')
    generalize hq : BuildStatus.succeeded = q at hm
    cases hm with
    | complete t task o _ _ ha ht _ hid =>
      subst ha hid
      obtain ⟨hdb, ht'⟩ := step_report h ht
      exact .inl ⟨t, o, task, _, rfl, ht, ht', rfl, rfl, report_succeeds hk (hdb ▸ hk')⟩
    | doneComplete env b c _ ha hp hid =>
      exact .inr ⟨env, ha, b, by rw [hp, LoopPhase.succeeding, if_pos hq.symm]; rfl, hid⟩
    | claim | doneStart | requeue | retry | cancel | sweep | restart => cases hq

theorem fullySucceeded_of_step (hG : ∀ k ∈ overwritten s a, s.db.status k ≠ some .succeeded)
    (h : step cfg s a = some s') {e : Uuid} (hf : s.db.FullySucceeded e) : s'.db.FullySucceeded e := by
  rw [Db.fullySucceeded_iff] at hf ⊢
  simp only [(step_frame h).job]
  refine ⟨hf.1, fun k j hj he => ?_⟩
  have hk := hf.2 k j hj he
  exact (succeeded_of_step h hk).resolve_right fun ho => hG k ho hk

/-- An evaluation becomes fully succeeded by the report of a task. -/
theorem fullySucceeded_by_step (hc : Copies s) (hG : LeavesLast s a) (h : step cfg s a = some s') {e : Uuid}
    (hf : ¬ s.db.FullySucceeded e) (hf' : s'.db.FullySucceeded e) :
    ∃ t task, s'.task t = some task ∧ ∀ c, task.WillPromote e c := by
  rw [Db.fullySucceeded_iff] at hf hf'
  simp only [(step_frame h).job] at hf'
  obtain ⟨k, j, hj, he, hk⟩ : ∃ k j, s.db.job k = some j ∧ j.evaluationId = e ∧ s.db.status k ≠ some .succeeded := by
    by_contra hcon
    push Not at hcon
    exact hf ⟨hf'.1, hcon⟩
  rcases succeeds_by_step h hk (hf'.2 k j hj he) with
    ⟨t, o, task, task', -, ht, ht', rfl, hb, hp⟩ | ⟨env, rfl, b, hb, rfl⟩
  · refine ⟨t, task', ht', fun c => ?_⟩
    have hev : task'.build.evaluationId = e := by
      rw [hb, ← he, Option.some.inj ((hc.tasks t task ht).symm.trans hj)]
    unfold Task.WillPromote
    rcases hp with hp | ⟨st, hp⟩ <;> rw [hp] <;> exact hev
  · -- the loop: it has left another build, which cannot have succeeded with this step
    exfalso
    have hcur : s.loop.phase.current = some b := by
      revert hb
      cases s.loop.phase <;> simp +contextual [LoopPhase.succeeding, LoopPhase.current]
    have hev : b.evaluationId = e := by rw [← he, Option.some.inj ((hc.current b hcur).symm.trans hj)]
    obtain ⟨b', hm, hev', hne, hs⟩ := hG b hb
    have hget := Db.get_of_mem hm
    have hk' : s.db.status b'.id ≠ some .succeeded := by simpa [Db.status, hget] using hs
    rcases succeeds_by_step h hk' (hf'.2 b'.id b'.toJob (by simp [Db.job, hget]) (hev'.trans hev)) with
      ⟨_, _, _, _, ha, -⟩ | ⟨_, -, b'', hb'', hid⟩
    · cases ha
    · cases Option.some.inj (hb.symm.trans hb'')
      exact hne hid.symm

end Success

/-! ### How a task promotes -/

section Promote

variable {cfg : Config} {s s' : State} {t : ℕ} {task : Task} {e c j : Uuid}

theorem settled_event {ev : TaskEvent} (hp : task.phase.isSettled = true) (h : s.taskStep cfg t task ev = some s') :
    ev = .proceed ∨ ev = .error ∨ ev = .abort := by
  cases ev with
  | proceed => exact .inl rfl
  | error => exact .inr (.inl rfl)
  | abort => exact .inr (.inr rfl)
  | features | reserve | claim | agentLost | report | remove =>
    simp only [State.taskStep] at h
    split at h
    · rename_i hq
      simp [hq, Phase.isSettled] at hp
    · cases h

theorem willPromote_setTask {db : Db} {task' : Task} (h : task'.WillPromote e c) :
    ∃ task'', ({ s with db := db }.setTask t task').task t = some task'' ∧ task''.WillPromote e c :=
  ⟨task', State.setTask_self _ t task', h⟩

/-- The next statement of a task that has still to promote `e` to `c` brings it
closer, or does it. -/
theorem proceed_willPromote (hc : IsCopy s.db task.build) (hs : task.phase.Sound s.db) (hf : s.db.FullySucceeded e)
    (he : s.db.evaluationJobset e = some j) (hcj : s.db.channelJobset c = some j) (hw : task.WillPromote e c)
    (h : s.proceed t task = some s') :
    (∃ task', s'.task t = some task' ∧ task'.WillPromote e c) ∨ s'.db.current c = some e := by
  unfold Task.WillPromote at hw
  split at hw
  · rename_i st hp
    simp only [State.proceed, hp] at h
    cases h
    exact .inl (willPromote_setTask hw)
  · rename_i hp
    have hst := (Db.fullySucceeded_iff.mp hf).2 _ _ hc hw
    simp only [State.proceed, hp, hst] at h
    cases h
    exact .inl (willPromote_setTask hw)
  · rename_i hp
    obtain ⟨ev, hev, -⟩ := Option.map_eq_some_iff.mp he
    simp only [State.proceed, hp, Db.evaluationOf, hw, hev] at h
    cases h
    exact .inl (willPromote_setTask (Table.key_of_get hev))
  · rename_i j' e' hp
    subst hw
    obtain ⟨h0, heq⟩ := (Channels.autoPromoteCount_iff _ _).mpr hf
    simp only [State.proceed, hp, if_neg (not_or.mpr ⟨h0, not_not.mpr heq⟩)] at h
    cases h
    exact .inl (willPromote_setTask rfl)
  · rename_i j' e' hp
    subst hw
    rw [hp] at hs
    cases he.symm.trans hs
    obtain ⟨ch, hch, hj⟩ := Option.map_eq_some_iff.mp hcj
    simp only [State.proceed, hp] at h
    cases h
    refine .inl (willPromote_setTask ⟨rfl, List.mem_map.mpr ⟨ch, ?_, Table.key_of_get hch⟩⟩)
    exact List.mem_filter.mpr ⟨Table.mem_of_get hch, decide_eq_true hj⟩
  · rename_i e' cs hp
    obtain ⟨rfl, hm⟩ := hw
    obtain ⟨ch, hch, hj⟩ := Option.map_eq_some_iff.mp hcj
    cases cs with
    | nil => cases hm
    | cons c₀ =>
      simp only [State.proceed, hp] at h
      cases h
      by_cases hcc : c = c₀
      · subst hcc
        refine .inr ((Channels.current_promote ..).trans ?_)
        rw [if_pos rfl, hch, Option.map_some]
      · exact .inl (willPromote_setTask ⟨rfl, (List.mem_cons.mp hm).resolve_left hcc⟩)
  · exact hw.elim

end Promote

/-! ### The invariant -/

/-- Each fully succeeded evaluation is promoted to each of its channels, or some
task has it still to promote. -/
structure Covered (s : State) : Prop where
  minted : Minted s
  copies : Copies s
  inOrder : InOrder s
  passes : ∀ t task, s.task t = some task → ∀ e ∈ task.phase.pass, s.db.FullySucceeded e
  covered : ∀ e c j, s.db.FullySucceeded e → s.db.evaluationJobset e = some j → s.db.channelJobset c = some j →
    s.db.UpToDate e c ∨ ∃ t task, s.task t = some task ∧ task.WillPromote e c

section Step

variable {cfg : Config} {s s' : State} {a : Action} {e c j : Uuid}

/-- A channel that is up to date stays so, wherever a pass takes it. -/
theorem upToDate_of_step (hI : Covered s) (hG : PromotesAll s a) (h : step cfg s a = some s')
    (he : s.db.evaluationJobset e = some j) (hc : s.db.channelJobset c = some j) (hu : s.db.UpToDate e c) :
    s'.db.UpToDate e c := by
  have hfr := step_frame h
  obtain ⟨e', hcur, hj, hf, ht⟩ := hu
  simp only [Db.UpToDate, hfr.evaluationJobset, hfr.evaluationTime]
  rcases current_of_step h c with heq | ⟨t, task, e₂, cs, -, htask, hp, he₂⟩
  · exact ⟨e', heq ▸ hcur, hj, fullySucceeded_of_step hG.keeps h hf, ht⟩
  · have hpass : e₂ ∈ task.phase.pass := by rw [hp]; rfl
    have hs := hI.inOrder.sound t task htask
    rw [hp] at hs
    obtain ⟨j', hj', hcs⟩ := hs
    cases hc.symm.trans (hcs c List.mem_cons_self)
    refine ⟨e₂, he₂, hj'.trans he.symm, fullySucceeded_of_step hG.keeps h (hI.passes t task htask e₂ hpass), ?_⟩
    exact ht.trans (Db.notPast_iff.mp (hI.inOrder.leads t task htask e₂ hpass j hj').1 c e' hc hcur)

/-- A task that has still to promote `e` goes on, or has done it. -/
theorem willPromote_of_step (hI : Covered s) (hG : PromotesAll s a) (h : step cfg s a = some s')
    (hf : s.db.FullySucceeded e) (he : s.db.evaluationJobset e = some j) (hc : s.db.channelJobset c = some j) {t : ℕ}
    {task : Task} (ht : s.task t = some task) (hw : task.WillPromote e c) :
    (∃ task', s'.task t = some task' ∧ task'.WillPromote e c) ∨ s'.db.current c = some e := by
  by_cases ha : ∀ ev, a ≠ .task t ev
  · obtain ⟨task', ht', hb, hp⟩ := task_stays hI.minted h ht ha
    refine .inl ⟨task', ht', ?_⟩
    unfold Task.WillPromote at hw ⊢
    rw [hb, hp]
    exact hw
  · push Not at ha
    obtain ⟨ev, rfl⟩ := ha
    have hstep : s.taskStep cfg t task ev = some s' := by simpa [step, ht] using h
    have hset := hw.isSettled
    have hrun := hG.runsOn
    rcases settled_event hset hstep with rfl | rfl | rfl
    · exact proceed_willPromote (hI.copies.tasks t task ht) (hI.inOrder.sound t task ht) hf he hc hw hstep
    · rw [hrun task ht] at hset
      cases hset
    · rw [hrun task ht] at hset
      cases hset

theorem step_covered (hI : Covered s) (hG : PromotesAll s a) (h : step cfg s a = some s') : Covered s' where
  minted := step_minted hI.minted h
  copies := step_copies hI.copies h
  inOrder := step_inOrder hI.inOrder hG.order h
  passes t task' ht' e he := by
    refine fullySucceeded_of_step hG.keeps h ?_
    rcases pass_of_step h ht' he with ⟨task, ht, hp⟩ | ⟨-, hf, -⟩
    · exact hI.passes t task ht e hp
    · exact hf
  covered e c j hf' he hc := by
    rw [(step_frame h).evaluationJobset] at he
    rw [channelJobset_of_step h] at hc
    by_cases hf : s.db.FullySucceeded e
    · rcases hI.covered e c j hf he hc with hu | ⟨t, task, ht, hw⟩
      · exact .inl (upToDate_of_step hI hG h he hc hu)
      · rcases willPromote_of_step hI hG h hf he hc ht hw with ⟨task', hw'⟩ | hcur
        · exact .inr ⟨t, task', hw'⟩
        · exact .inl ⟨_, hcur, rfl, hf', le_rfl⟩
    · obtain ⟨t, task, ht, hw⟩ := fullySucceeded_by_step hI.copies hG.leavesLast h hf hf'
      exact .inr ⟨t, task, ht, hw c⟩

end Step

theorem Phase.isLive_of_isSettled {p : Phase} (h : p.isSettled = true) : p.isLive = true := by
  cases p <;> simp_all [isSettled, isLive]

/-- **Promotion is complete**, in a run that starts up to date and keeps to
`PromotesAll`. -/
theorem promotion_complete {cfg : Config} {s₀ s : State} {as : List Action} (h₀ : Fresh cfg s₀)
    (hu : ∀ e c j, s₀.db.FullySucceeded e → s₀.db.evaluationJobset e = some j → s₀.db.channelJobset c = some j →
      s₀.db.UpToDate e c)
    (hG : Along (step cfg) PromotesAll s₀ as) (h : exec (step cfg) s₀ as = some s)
    (hidle : ∀ t task, s.task t = some task → task.phase.isLive = false) {e : Evaluation} {c : Channel}
    (he : s.db.evaluations.get e.id = some e) (hf : s.db.FullySucceeded e.id) (hc : s.db.channels.get c.id = some c)
    (hj : c.jobsetId = e.jobsetId) :
    ∃ e', s.db.evaluations.get e'.id = some e' ∧ c.currentEvaluationId = some e'.id ∧ e'.jobsetId = e.jobsetId ∧
      s.db.FullySucceeded e'.id ∧ e.evaluationTime ≤ e'.evaluationTime := by
  have hI₀ : Covered s₀ := ⟨h₀.minted, h₀.copies, h₀.inOrder,
    fun t task ht => by simp [State.task, h₀.tasks] at ht, fun e c j hf he hc => Or.inl (hu e c j hf he hc)⟩
  have hI : Covered s := exec_inv (fun _ _ _ hI hG h => step_covered hI hG h) hI₀ hG h
  have he' : s.db.evaluationJobset e.id = some e.jobsetId := by rw [Db.evaluationJobset, he]; rfl
  have hc' : s.db.channelJobset c.id = some e.jobsetId := by rw [Db.channelJobset, hc, Option.map_some, hj]
  rcases hI.covered e.id c.id e.jobsetId hf he' hc' with ⟨k, hcur, hjob, hfull, htime⟩ | ⟨t, task, ht, hw⟩
  · obtain ⟨e', hget, hj'⟩ := Option.map_eq_some_iff.mp (hjob.trans he')
    obtain rfl := Table.key_of_get hget
    refine ⟨e', hget, by simpa [Db.current, hc] using hcur, hj', hfull, ?_⟩
    simpa [Db.evaluationTime, he, hget] using htime
  · have hl := Phase.isLive_of_isSettled hw.isSettled
    rw [hidle t task ht] at hl
    cases hl

/-- A build in an evaluation of a jobset with a channel. -/
def oneChannel (isAggregate : Bool) : Db :=
  .ofRows [{ id := 1 }] [{ id := 1, jobsetId := 1 }]
    [{ id := 1, evaluationId := 1, drvPath := "a.drv", isAggregate := isAggregate }] [] [{ id := 1, jobsetId := 1 }]
    (by cases isAggregate <;> decide)

theorem oneChannel_unfinished (isAggregate : Bool) (e : Uuid) : ¬ (oneChannel isAggregate).FullySucceeded e := by
  rintro ⟨⟨b, hb, he⟩, hs⟩
  have := hs b hb he
  simp only [oneChannel, Db.ofRows, List.mem_singleton] at hb
  subst hb
  cases this

/-- A worker succeeds, and promotes. -/
theorem promotion_complete_worker :
    ∃ s ∈ exec (step {}) (.start {} (oneChannel false)) (loops 12 ++ claims 0 ++ succeeds 0 6),
      s.db.FullySucceeded 1 ∧ ∃ e', s.db.current 1 = some e' ∧ s.db.FullySucceeded e' := by
  obtain ⟨s, hs, hidle, hf, he, c, hget, hid, hj⟩ :
      ∃ s ∈ exec (step {}) (.start {} (oneChannel false)) (loops 12 ++ claims 0 ++ succeeds 0 6),
        (∀ t task, s.task t = some task → task.phase.isLive = false) ∧ s.db.FullySucceeded 1 ∧
        s.db.evaluations.get 1 = some { id := 1, jobsetId := 1 } ∧
        ∃ c ∈ s.db.channels.get 1, c.id = 1 ∧ c.jobsetId = 1 := by decide
  obtain ⟨e', -, hcur, -, hf', -⟩ := promotion_complete (e := { id := 1, jobsetId := 1 })
    (fresh_start {} (oneChannel false))
    (fun e _ _ h => absurd h (oneChannel_unfinished false e)) (by decide) hs hidle he hf (by rw [hid]; exact hget) hj
  exact ⟨s, hs, hf, e'.id, by rw [Db.current, hget]; exact hcur, hf'⟩

/-- The loop settles the aggregate, the only build, and nobody promotes. -/
theorem settled_unpromoted : Fresh {} (.start {} (oneChannel true)) ∧
    (∀ e, ¬ (oneChannel true).FullySucceeded e) ∧
    ∃ s ∈ exec (step {}) (.start {} (oneChannel true)) (loops 9), s.db.FullySucceeded 1 ∧
      s.loop.phase = .top ∧ s.loop.rest = [] ∧ (∀ t task, s.task t = some task → False) ∧
      s.db.evaluationJobset 1 = some 1 ∧ s.db.channelJobset 1 = some 1 ∧ s.db.current 1 = none :=
  ⟨fresh_start {} (oneChannel true), oneChannel_unfinished true, by decide⟩

end Runner
end Circus
