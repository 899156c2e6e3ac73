/-
# Cancelling is final

`cancel` and the supersession of `create_automated` set an active evaluation
to `cancelled`. The claims of the evaluator and its `finish_running` look at
the status again in their own `WHERE`; three of its writes do not. `run_cycle`
rejects what it has listed as pending, `claim_existing` sets a completed
evaluation without builds to running, and it restarts a failed one, which a
cancelled one passes for as well. A cancellation between the read and the
write is lost (`cancelled_overwritten`).

`cancelled_final`: if an evaluation is cancelled only while no task is between
such a read and its write, it stays cancelled until an operator restarts it.
-/
import Circus.Evaluator.Tasks

namespace Circus.Evaluator

def Db.Cancelled (db : Db) (id : Uuid) : Prop := ∃ e, db.evaluations.get id = some e ∧ e.status = .cancelled

instance (db : Db) (id : Uuid) : Decidable (db.Cancelled id) :=
  inferInstanceAs (Decidable (∃ e ∈ db.evaluations.get id, _))

/-- The task is going to write the status of evaluation `id` for what it has
read of it before. -/
def Phase.overwrites (id : Uuid) : Phase → Bool
  | rejecting i | rerunning i => decide (i = id)
  | claiming e => decide (e.id = id ∧ (e.status = .failed ∨ e.status = .timedOut ∨ e.status = .completed))
  | _ => false

/-- Some task is. -/
def State.overwritten (s : State) (id : Uuid) : Bool := s.tasks.entries.any fun x => x.2.overwrites id

/-- The action cancels evaluation `id` if it is active: an operator does, or a
newer evaluation of its stream. -/
def cancels (cfg : Config) (id : Uuid) (s : State) (a : Action) : Bool :=
  decide (statementOf cfg s a = some (.cancel id)) ||
    (requestOf cfg s a).any fun r => (s.db.evaluations.get id).any (r.supersedes s.db)

/-- Evaluation `id` is cancelled only while no task is between a read of it and
the write that follows. -/
def CancelsUnread (cfg : Config) (id : Uuid) (s : State) (a : Action) : Prop :=
  cancels cfg id s a = true → s.overwritten id = false

instance (cfg : Config) (id : Uuid) (s : State) (a : Action) : Decidable (CancelsUnread cfg id s a) :=
  inferInstanceAs (Decidable (_ → _))

section Step

variable {cfg : Config} {id : Uuid} {s s' : State} {a : Action}

theorem State.overwritten_iff : s.overwritten id = true ↔ ∃ t, (s.phase t).overwrites id = true :=
  any_tasks_iff rfl

/-- A task gets to such a write with a row it has just read, or goes on to it. -/
theorem Phase.overwrites_of_leads {p p' : Phase} {event : TaskEvent} {m : Move} (hm : p.move cfg event = some m)
    (hl : m.Leads p') (h : p'.overwrites id = true) :
    p.overwrites id = true ∨ ∃ next e, m = .read next ∧ p' = .claiming e := by
  unfold Phase.move at hm
  split at hm <;> try first | cases hm | (split at hm <;> cases hm) | (split_ifs at hm <;> cases hm)
  all_goals try obtain ⟨x, rfl⟩ := hl
  all_goals try dsimp only at h ⊢
  all_goals try (repeat' split at h)
  all_goals first
    | exact absurd h Bool.false_ne_true
    | (unfold Flow.next at h; split at h <;> cases h)
    | (unfold Phase.onError at h; split at h <;> cases h)
    | exact .inr ⟨_, _, rfl, rfl⟩
    | exact .inl (decide_eq_true ⟨of_decide_eq_true h, .inr (.inr ‹_›)⟩)

/-- The row a task has read for its write is not cancelled. -/
theorem overwrites_of_step (h : step cfg s a = some s') {t : ℕ} (ho : (s'.phase t).overwrites id = true) :
    (s.phase t).overwrites id = true ∨ s'.db = s.db ∧ ¬ s.db.Cancelled id := by
  cases phase_of_step h t with
  | kept hp => exact .inl (hp ▸ ho)
  | moved event m ha hm hp =>
    rcases Phase.overwrites_of_leads hm hp.leads ho with ho | ⟨next, e, rfl, hphase⟩
    · exact .inl ho
    · have he := claiming_of_performed hm hp hphase
      rw [hphase] at ho
      obtain ⟨rfl, hst⟩ := of_decide_eq_true ho
      refine .inr ⟨by cases hp; rfl, ?_⟩
      rintro ⟨e', he', hc⟩
      obtain rfl := Option.some.inj (he.symm.trans he')
      simp [hc] at hst
  | delivered k d ha hd hs hp | polled jobset ha hj hs hp =>
    rw [hp] at ho
    cases ho
  | drained i ha hs hp =>
    rcases hp with hp | hp
    · rw [hp] at ho
      cases ho
    · rw [hp] at ho
      obtain rfl := of_decide_eq_true ho
      subst ha
      obtain ⟨e, j, p, -, he, hst, -, -, -, rfl⟩ := drain_of_step h
      refine .inr ⟨rfl, ?_⟩
      rintro ⟨e', he', hc⟩
      obtain rfl := Option.some.inj (he.symm.trans he')
      rw [hst] at hc
      cases hc

/-- Only a cancellation makes an evaluation cancelled. -/
theorem cancels_of_step (h : step cfg s a = some s') (hc : s'.db.Cancelled id) (hn : ¬ s.db.Cancelled id) :
    cancels cfg id s a = true := by
  obtain ⟨e', he', hst⟩ := hc
  have hrow := row_of_effect (step_effect h) id
  rw [he'] at hrow
  generalize ho : some e' = o at hrow
  cases hrow with
  | same => exact absurd ⟨e', ho.symm, hst⟩ hn
  | created r =>
    cases ho
    have hst : r.status = .cancelled := hst
    unfold Request.status at hst
    split_ifs at hst
  | superseded r new e hr hcr he hs => simp [cancels, hr, he, hs]
  | statement q e hq he hs =>
    cases ho
    obtain rfl := Db.id_of_get he
    rcases statementOf_cases hq with ⟨i, rfl⟩ | ⟨i, -, rfl⟩ | ⟨i, rfl⟩ | ⟨i, st, m, rfl, -, hne⟩ |
      ⟨t, flow, e₀, -, rfl⟩ | ⟨i, rfl, rfl⟩ | rfl
    · cases hst
    · cases hst
    · cases hst
    · exact absurd hst hne
    · exact absurd ⟨e, he, hst⟩ hn
    · obtain rfl : e.id = i := (of_decide_eq_true hs).1
      simp [cancels, hq]
    · simp only [Statement.set, EvaluationRow.sweepOrphaned] at hst
      split_ifs at hst
  | restarted | recorded =>
    cases ho
    cases hst

/-- The writes that look at the status leave a cancelled evaluation as it is. -/
theorem cancelled_of_step (h : step cfg s a = some s') (ha : a ≠ .restart id) (hc : s.db.Cancelled id)
    (hI : s.overwritten id = false) : s'.db.Cancelled id := by
  obtain ⟨e, he, hst⟩ := hc
  have hfree : ∀ t, (s.phase t).overwrites id = false := fun t => by
    by_contra ho
    rw [State.overwritten_iff.mpr ⟨t, by simpa using ho⟩] at hI
    cases hI
  have hupdate : ∀ st m, statementOf cfg s a ≠ some (.updateStatus id st m) := fun st m hq => by
    obtain ⟨t, ⟨hp, -⟩ | ⟨hp, -⟩⟩ := updateStatus_task hq
    · simpa [hp, Phase.overwrites] using hfree t
    · simpa [hp, Phase.overwrites] using hfree t
  generalize ho : s'.db.evaluations.get id = o
  have hrow := row_of_effect (step_effect h) id
  rw [ho] at hrow
  have hid := Db.id_of_get he
  cases hrow with
  | same => exact ⟨e, ho.trans he, hst⟩
  | created r base hr hcr hnew =>
    rw [hnew, Db.get_nextId] at he
    cases he
  | superseded r new e' hr hcr he' =>
    obtain rfl := Option.some.inj (he.symm.trans he')
    exact ⟨_, ho, by simp [EvaluationRow.supersede, hst, EvaluationStatus.isActive]⟩
  | statement q e' hq he' hs =>
    obtain rfl := Option.some.inj (he.symm.trans he')
    rcases statementOf_cases hq with ⟨i, rfl⟩ | ⟨i, hr, rfl⟩ | ⟨i, rfl⟩ | ⟨i, st, m, rfl, -⟩ |
      ⟨t, flow, e₀, -, rfl⟩ | ⟨i, -, rfl⟩ | rfl
    · simp [Statement.selects, hst] at hs
    · obtain rfl : e.id = i := of_decide_eq_true hs
      exact absurd (hid ▸ hq) (hupdate _ _)
    · obtain rfl : e.id = i := of_decide_eq_true hs
      exact absurd (hid ▸ hq) (hupdate _ _)
    · simp [Statement.selects, hst] at hs
    · exact ⟨_, ho, hst⟩
    · simp [Statement.selects, hst] at hs
    · simp [Statement.selects, EvaluationRow.orphaned, hst] at hs
  | restarted e' hr =>
    rcases restartOf_task hr with rfl | ⟨t, e₀, hp, hid₀, hst₀⟩
    · exact absurd rfl ha
    · have := hfree t
      rw [hp] at this
      rcases hst₀ with hst₀ | hst₀ <;> simp [Phase.overwrites, hid₀, hst₀] at this
  | recorded jobs e' hcommit he' hs =>
    obtain rfl := Option.some.inj (he.symm.trans he')
    rw [hst] at hs
    cases hs

/-- While evaluation `id` is cancelled, nobody is about to write its status for
what it was before. -/
def State.Settled (s : State) (id : Uuid) : Prop := s.db.Cancelled id → s.overwritten id = false

theorem settled_of_step (hI : s.Settled id) (hG : CancelsUnread cfg id s a) (h : step cfg s a = some s') :
    s'.Settled id := by
  intro hc
  by_contra ho
  obtain ⟨t, ht⟩ := State.overwritten_iff.mp (by simpa using ho)
  rcases overwrites_of_step h ht with ht | ⟨hdb, hn⟩
  · have ho := State.overwritten_iff.mpr ⟨t, ht⟩
    by_cases hc₀ : s.db.Cancelled id
    · rw [hI hc₀] at ho
      cases ho
    · rw [hG (cancels_of_step h hc hc₀)] at ho
      cases ho
  · exact hn (hdb ▸ hc)

end Step

/-- **Cancelling is final.** In a run in which evaluation `id` is cancelled only
while no task is between a read of it and the unconditional write that
follows, once it is cancelled it stays so until an operator restarts it. -/
theorem cancelled_final {cfg : Config} {id : Uuid} {s₀ s₁ s : State} {as bs : List Action} (h₀ : s₀.Idle)
    (hrun : Along cfg (CancelsUnread cfg id) s₀ (as ++ bs)) (h₁ : exec cfg s₀ as = some s₁)
    (h : exec cfg s₁ bs = some s) (hc : s₁.db.Cancelled id) (hno : ∀ a ∈ bs, a ≠ .restart id) : s.db.Cancelled id := by
  have hI₀ : s₀.Settled id := fun _ => by
    by_contra ho
    obtain ⟨t, ht⟩ := State.overwritten_iff.mp (by simpa using ho)
    rw [h₀ t] at ht
    cases ht
  have hI₁ : s₁.Settled id :=
    Lts.exec_inv (fun _ _ _ hI hG hs => settled_of_step hI hG hs) hI₀ hrun.append.1 h₁
  have hrun₁ := (hrun.append.2 s₁ h₁).and (Lts.Along.of_mem fun a ha _ => hno a ha)
  have hstep : ∀ s a s', s.Settled id ∧ s.db.Cancelled id → CancelsUnread cfg id s a ∧ a ≠ .restart id →
      step cfg s a = some s' → s'.Settled id ∧ s'.db.Cancelled id := fun s a s' hI hG hs =>
    ⟨settled_of_step hI.1 hG.1 hs, cancelled_of_step hs hG.2 hI.2 (hI.1 hI.2)⟩
  exact (Lts.exec_inv hstep ⟨hI₁, hc⟩ hrun₁ h).2

/-- A push of `a` has an evaluation, which is pending. -/
def pushedA : List Action := .gitPush 0 "main" (some "a") :: .deliver 1 0 :: nexts 1 2

/-- A poll, up to `claim_existing`. -/
def pollToClaim (t : ℕ) : List Action := .poll t 0 :: nexts t 5

theorem cancelled_final_polled : ∃ s₁ ∈ exec small (withJobset mainJobset) (pushedA ++ [Action.drain 2 1, .cancel 1]),
    s₁.db.Cancelled 1 ∧ ∃ s ∈ exec small s₁ (nexts 2 1 ++ pollToClaim 3 ++ nexts 3 1), s.db.Cancelled 1 := by
  obtain ⟨s₁, h₁, hc, s, h, -⟩ : ∃ s₁ ∈ exec small (withJobset mainJobset) (pushedA ++ [Action.drain 2 1, .cancel 1]),
      s₁.db.Cancelled 1 ∧ ∃ s ∈ exec small s₁ (nexts 2 1 ++ pollToClaim 3 ++ nexts 3 1), s.db.nextId = 2 := by
    decide
  have hrun : Along small (CancelsUnread small 1) (withJobset mainJobset)
      (pushedA ++ [Action.drain 2 1, .cancel 1] ++ (nexts 2 1 ++ pollToClaim 3 ++ nexts 3 1)) := by decide
  have hno : ∀ a ∈ nexts 2 1 ++ pollToClaim 3 ++ nexts 3 1, a ≠ .restart 1 := by
    rintro a ha rfl
    simp [nexts, pollToClaim] at ha
  exact ⟨s₁, h₁, hc, s, h, cancelled_final (idle_withJobset _) hrun h₁ h hc hno⟩

/-- The pending evaluation is listed for rejection, and cancelled. -/
def listedForRejection : List Action :=
  pushedA ++ [Action.configure { mainJobset with triggerMode := .interval }, .drain 2 1, .cancel 1]

/-- The evaluation fails and a poll reads it; an operator restarts and then
cancels it. -/
def readAsFailed : List Action :=
  [pushedA, [.drain 1 1], nexts 1 3, [.task 1 (.failed false "error")], pollToClaim 2, [.restart 1, .cancel 1]].flatten

/-- The evaluation is completed without builds, and two polls read it; one sets
it to running, and it is cancelled. -/
def readAsCompleted : List Action :=
  [pushedA, [.drain 1 1], nexts 1 2, [.task 1 (.error "set_inputs_hash"), .task 1 .skip], pollToClaim 2, pollToClaim 3,
    nexts 2 1, nexts 3 2, [.cancel 1]].flatten

/-- The status of the evaluation after one more statement of task 2. -/
def statusAfter (run : List Action) : Option (Option EvaluationStatus) :=
  (exec small (withJobset mainJobset) (run ++ nexts 2 1)).map fun s => (s.db.evaluations.get 1).map (·.status)

/-- Three cancellations that do not last: the rejection, the poll's restart and
the second poll's `update_status` follow. -/
theorem cancelled_overwritten :
    (∃ s ∈ exec small (withJobset mainJobset) listedForRejection, s.db.Cancelled 1) ∧
    statusAfter listedForRejection = some (some .failed) ∧
    (∃ s ∈ exec small (withJobset mainJobset) readAsFailed, s.db.Cancelled 1) ∧
    statusAfter readAsFailed = some (some .pending) ∧
    (∃ s ∈ exec small (withJobset mainJobset) readAsCompleted, s.db.Cancelled 1) ∧
    statusAfter readAsCompleted = some (some .running) := by
  decide

end Circus.Evaluator
