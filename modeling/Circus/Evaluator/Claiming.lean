/-
# One claimer per evaluation

A task gets the right to evaluate an evaluation in one of three ways: it
creates it as running, `try_claim_pending` turns it from pending to running,
or `claim_existing` sets a completed evaluation without builds back to
running. The first two are decided by the row (`obtains_of_step`), so two
tasks cannot both win. The third has looked at a copy of the row and counted
the builds before, and its `UPDATE` tests neither again.

`claims_exclusive`: if that statement only ever meets a row that is still
completed and without builds, an evaluation leaves `running` between two
claims, and has no builds when it enters it. `rerun_claims_twice` is what
happens otherwise.
-/
import Circus.Evaluator.Tasks

namespace Circus.Evaluator

def Db.Running (db : Db) (id : Uuid) : Prop := ∃ e, db.evaluations.get id = some e ∧ e.status = .running

instance (db : Db) (id : Uuid) : Decidable (db.Running id) :=
  inferInstanceAs (Decidable (∃ e ∈ db.evaluations.get id, _))

/-- The action gives task `t` the right to evaluate evaluation `id`. -/
def Obtains (cfg : Config) (s : State) (a : Action) (t : ℕ) (id : Uuid) : Prop :=
  (s.phase t).owns id = false ∧ ∃ s' ∈ step cfg s a, (s'.phase t).owns id = true

instance (cfg : Config) (s : State) (a : Action) (t : ℕ) (id : Uuid) : Decidable (Obtains cfg s a t id) :=
  inferInstanceAs (Decidable (_ ∧ _))

/-- A pending or running evaluation has no build rows. -/
def Db.ActiveUnbuilt (db : Db) : Prop :=
  ∀ id e, db.evaluations.get id = some e → e.status.isActive = true → ∀ j ∈ db.jobs, j.evaluationId ≠ id

/-- A row set back to running is still completed and without builds. -/
def RerunsCompleted (cfg : Config) (s : State) (a : Action) : Prop :=
  ∀ id ∈ rerunOf cfg s a, ∀ e ∈ s.db.evaluations.rows, e.id = id →
    e.status = .completed ∧ ∀ j ∈ s.db.jobs, j.evaluationId ≠ id

instance (cfg : Config) (s : State) (a : Action) : Decidable (RerunsCompleted cfg s a) := by
  unfold RerunsCompleted
  infer_instance

section Step

variable {cfg : Config} {s s' : State} {a : Action}

/-- The three ways to an evaluation. -/
theorem obtains_of_step (h : step cfg s a = some s') {t : ℕ} {id : Uuid} (hn : (s.phase t).owns id = false)
    (ho : (s'.phase t).owns id = true) :
    s'.db.Running id ∧ (s.db.evaluations.get id = none ∨ (∃ e, s.db.evaluations.get id = some e ∧ e.status = .pending) ∨
      rerunOf cfg s a = some id) := by
  rcases held_of_step (P := (·.owns id = true)) (fun _ hb h => by cases hb <;> cases h) h ho with
    ⟨ho, -⟩ | ⟨event, m, ha, hm, hp⟩
  · rw [hn] at ho
    cases ho
  · rcases Phase.owns_of_leads hm hp.leads ho with h' | ⟨q, next, rfl⟩ | ⟨r, next, rfl⟩
    · rw [hn] at h'
      cases h'
    · cases hp with
      | statement =>
        rw [State.phase_goto, if_pos rfl] at ho
        rcases Phase.owns_statement hm ho with h' | ⟨e, hrow, rfl, hq⟩
        · rw [hn] at h'
          cases h'
        · have hget := Statement.get_of_returning hrow
          obtain ⟨e₀, he₀, hsel, rfl⟩ := Statement.returning_eq_some hrow
          have hid : (q.set s.now e₀).id = e₀.id := EvaluationRow.id_of_identity (Statement.identity_set _ _ _)
          rcases hq with ⟨i, rfl⟩ | ⟨i, rfl⟩
          · refine ⟨⟨_, hget, rfl⟩, .inr (.inl ⟨e₀, hid ▸ he₀, ?_⟩)⟩
            exact (decide_eq_true_iff.mp hsel).2
          · refine ⟨⟨_, hget, rfl⟩, .inr (.inr ?_)⟩
            have : e₀.id = i := decide_eq_true_iff.mp hsel
            rw [hid, this, ha]
            simp [rerunOf, statementOf, hm]
    · cases hp with
      | refused =>
        rw [State.phase_goto, if_pos rfl] at ho
        obtain ⟨e, he, -⟩ := Phase.owns_request hm ho
        cases he
      | @created _ _ e db hr hw =>
        rw [State.phase_goto, if_pos rfl] at ho
        obtain ⟨e', he, rfl, hst⟩ := Phase.owns_request hm ho
        obtain rfl : e = e' := Except.ok.inj he
        have hc := Request.created hr
        obtain ⟨base, hrow⟩ := hc.row
        have hid : e.id = s.db.nextId := by rw [hrow]; rfl
        refine ⟨⟨e, by rw [State.db_goto, hc.get, if_pos hid], by rw [hrow]; exact hst⟩, .inl ?_⟩
        rw [hid]
        exact Db.get_nextId _

/-- A claim is of an evaluation that is not running. -/
theorem not_running_of_obtains (hr : RerunsCompleted cfg s a) {t : ℕ} {id : Uuid} (ho : Obtains cfg s a t id) :
    ¬ s.db.Running id := by
  obtain ⟨hn, s', hs, ho⟩ := ho
  rintro ⟨e, he, hst⟩
  rcases (obtains_of_step hs hn ho).2 with h | ⟨e', he', hst'⟩ | h
  · rw [he] at h
    cases h
  · rw [he] at he'
    cases he'
    rw [hst] at hst'
    cases hst'
  · have := (hr id h e (Table.mem_of_get he) (Db.id_of_get he)).1
    rw [hst] at this
    cases this

/-- Builds belong to evaluations that exist. -/
theorem Db.evaluationId_ne_nextId {db : Db} {j : Job} (hj : j ∈ db.jobs) : j.evaluationId ≠ db.nextId := fun h => by
  obtain ⟨b, hb, rfl⟩ := Db.mem_jobs.mp hj
  have := db.build_fk b hb
  rw [h, Db.get_nextId] at this
  cases this

theorem activeUnbuilt_effect (hI : LockInv s) (hB : s.db.ActiveUnbuilt) (hr : RerunsCompleted cfg s a) {db : Db}
    (h : Effect cfg s a db) : db.ActiveUnbuilt := by
  intro id e he hact j hj
  cases h with
  | none => exact hB id e he hact j hj
  | statement q hq =>
    rw [Statement.get_run] at he
    obtain ⟨e₀, he₀, rfl⟩ := Option.map_eq_some_iff.mp he
    rcases active_of_apply hq hact with h | h
    · exact hB id e₀ he₀ h j hj
    · exact Db.id_of_get he₀ ▸ (hr e₀.id h e₀ (Table.mem_of_get he₀) rfl).2 j hj
  | create r e' db hreq hc =>
    rw [hc.jobs] at hj
    rw [hc.get] at he
    split_ifs at he with hid
    · exact hid ▸ Db.evaluationId_ne_nextId hj
    · obtain ⟨e₀, he₀, rfl⟩ := Option.map_eq_some_iff.mp he
      refine hB id e₀ he₀ ?_ j hj
      split_ifs at hact with hs
      · -- a superseded evaluation is active no more
        simp only [EvaluationRow.supersede] at hact
        split_ifs at hact with h
        · cases hact
        · exact hact
      · exact hact
  | restart id' db hre hres =>
    rw [hres.jobs] at hj
    obtain ⟨hj, hne⟩ := List.mem_filter.mp hj
    rw [hres.get] at he
    split_ifs at he with hid
    · subst hid
      simpa using hne
    · exact hB id e he hact j hj
  | record id' jobs hcommit =>
    rw [Db.get_record] at he
    obtain ⟨e₀, he₀, rfl⟩ := Option.map_eq_some_iff.mp he
    obtain ⟨t, flow, x, -, hp, rfl, -⟩ := commitOf_eq hcommit
    obtain ⟨e₁, he₁, hrun⟩ := hI.running t x.id (by simp [hp, Phase.locks])
    have hfinished : id ≠ x.id := by
      rintro rfl
      rw [he₀] at he₁
      cases he₁
      simp [Statement.apply, Statement.selects, Db.id_of_get he₀, hrun, Statement.set, EvaluationRow.setStatus,
        EvaluationStatus.isActive] at hact
    have hact₀ : e₀.status.isActive = true := by
      simpa [Statement.apply, Statement.selects, Db.id_of_get he₀, hfinished] using hact
    rcases Db.mem_jobs_record hj with hj | hj
    · exact hB id e₀ he₀ hact₀ j hj
    · exact hj ▸ Ne.symm hfinished
  | configure => exact hB id e he hact j hj
  | report =>
    rw [Db.jobs_updateBuilds] at hj
    exact hB id e he hact j hj

end Step

/-- What claims rely on: no lock is broken, no active evaluation has builds. -/
theorem claimInv_exec {cfg : Config} {s₀ s : State} {as : List Action} (h₀ : s₀.Idle) (hB : s₀.db.ActiveUnbuilt)
    (hrun : Along cfg (RerunsCompleted cfg) s₀ as) (h : exec cfg s₀ as = some s) : LockInv s ∧ s.db.ActiveUnbuilt := by
  have hstep : ∀ s a s', LockInv s ∧ s.db.ActiveUnbuilt → RerunsCompleted cfg s a → step cfg s a = some s' →
      LockInv s' ∧ s'.db.ActiveUnbuilt := fun s a s' hI hr hs =>
    ⟨hI.1.step hs, activeUnbuilt_effect hI.1 hI.2 hr (step_effect hs)⟩
  exact Lts.exec_inv hstep ⟨LockInv.of_idle h₀, hB⟩ hrun h

/-- **Single claimer.** In a run in which `claim_existing` sets only rows back
to running that are still completed and without builds: between two steps that
give the right to evaluate one evaluation there is a state in which it is not
running; and a step that makes an evaluation running leaves it without build
rows. -/
theorem claims_exclusive {cfg : Config} {s₀ : State} {as : List Action} (h₀ : s₀.Idle) (hB : s₀.db.ActiveUnbuilt)
    (hrun : Along cfg (RerunsCompleted cfg) s₀ as) :
    (∀ as₁ a as₂ b as₃, as = as₁ ++ a :: as₂ ++ b :: as₃ → ∀ s₁ s₂ t t' id,
      exec cfg s₀ as₁ = some s₁ → exec cfg s₀ (as₁ ++ a :: as₂) = some s₂ →
      Obtains cfg s₁ a t id → Obtains cfg s₂ b t' id →
      ∃ u v s, as₂ = u ++ v ∧ exec cfg s₀ (as₁ ++ a :: u) = some s ∧ ¬ s.db.Running id) ∧
    ∀ as₁ a as₂, as = as₁ ++ a :: as₂ → ∀ s₁ s₂ id, exec cfg s₀ as₁ = some s₁ → step cfg s₁ a = some s₂ →
      ¬ s₁.db.Running id → s₂.db.Running id → ∀ j ∈ s₂.db.jobs, j.evaluationId ≠ id := by
  constructor
  · rintro as₁ a as₂ b as₃ rfl s₁ s₂ t t' id h₁ h₂ - hb
    -- the state before the second claim is such a state
    exact ⟨as₂, [], s₂, by simp, h₂, not_running_of_obtains ((hrun.append.2 s₂ h₂).1) hb⟩
  · rintro as₁ a as₂ rfl s₁ s₂ id h₁ hs - ⟨e, he, hst⟩
    obtain ⟨hr₁, hr₂⟩ := hrun.append
    have hI := claimInv_exec h₀ hB hr₁ h₁
    have hB₂ := activeUnbuilt_effect hI.1 hI.2 (hr₂ s₁ h₁).1 (step_effect hs)
    exact hB₂ id e he (EvaluationStatus.isActive_iff.mpr (.inr hst))

/-- Three polls have read the tip `a`; the first has evaluated it, to no builds,
and the others have both found that, and are about to run it again. -/
def bothAboutToRerun : List Action :=
  [.gitPush 0 "main" (some "a"), .poll 1 0, .poll 2 0, .poll 3 0] ++ nexts 1 3 ++ nexts 2 3 ++ nexts 3 3 ++
    nexts 1 2 ++ [.task 1 .skip] ++ nexts 2 3 ++ nexts 3 3

/-- One of them runs it again and records a job. -/
def firstReruns : List Action :=
  nexts 2 2 ++ [.task 2 (.evaluated [{ name := "app", drvPath := "app.drv" }] none)] ++ nexts 2 3

theorem claims_exclusive_firstReruns :
    (∃ s ∈ exec small (withJobset mainJobset) bothAboutToRerun, Obtains small s (.task 2 .next) 2 1) ∧
    ∀ as₁ a as₂, bothAboutToRerun ++ firstReruns = as₁ ++ a :: as₂ → ∀ s₁ s₂ id,
      exec small (withJobset mainJobset) as₁ = some s₁ → step small s₁ a = some s₂ →
      ¬ s₁.db.Running id → s₂.db.Running id → ∀ j ∈ s₂.db.jobs, j.evaluationId ≠ id :=
  ⟨by decide, (claims_exclusive (idle_withJobset _) (fun _ _ he => by cases he) (by decide)).2⟩

/-- Both run it again: two tasks have it at once. And if the second comes after
the first has recorded a job, the evaluation is running with a build. -/
theorem rerun_claims_twice :
    (∃ s ∈ exec small (withJobset mainJobset) bothAboutToRerun, Obtains small s (.task 2 .next) 2 1 ∧
      ∃ s' ∈ step small s (.task 2 .next), s'.db.Running 1 ∧ Obtains small s' (.task 3 .next) 3 1) ∧
    ∃ s ∈ exec small (withJobset mainJobset) (bothAboutToRerun ++ firstReruns), ¬ s.db.Running 1 ∧
      ∃ s' ∈ step small s (.task 3 .next), s'.db.Running 1 ∧ ∃ j ∈ s'.db.jobs, j.evaluationId = 1 := by
  decide

end Circus.Evaluator
