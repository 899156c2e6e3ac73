/-
# The tasks of the evaluator

What a step does to the phase of a task (`phase_of_step`), who holds row locks
and who owns an evaluation. A task locks an evaluation's row from
`lock_running` to the end of its transaction, and owns the evaluation from the
statement that gave it the right to evaluate it on. `LockInv`: a locked
evaluation is running, and locked by one task only, since every other
statement that would change the row waits.
-/
import Circus.Evaluator.Effects

namespace Circus.Evaluator

open Webhooks

inductive PhaseStep (cfg : Config) (s : State) (a : Action) (s' : State) (t : ℕ) : Prop
  | kept (hp : s'.phase t = s.phase t) (ha : ∀ event, a ≠ .task t event)
  | moved (event : TaskEvent) (m : Move) (ha : a = .task t event) (hm : (s.phase t).move cfg event = some m)
      (hp : Performed s t m s')
  | delivered (k : ℕ) (d : Delivery) (ha : a = .deliver t k) (hd : s.sent[k]? = some d) (hs : s.phase t = .idle)
      (hp : s'.phase t = .triggering (d.requests s.db))
  | polled (jobset : JobsetRow) (ha : a = .poll t jobset.id) (hj : s.db.jobsets.get jobset.id = some jobset)
      (hs : s.phase t = .idle) (hp : s'.phase t = .polling jobset)
  | drained (id : Uuid) (ha : a = .drain t id) (hs : s.phase t = .idle)
      (hp : s'.phase t = .listed .drain id ∨ s'.phase t = .rejecting id)

variable {cfg : Config} {s s' : State} {a : Action}

theorem phase_of_step (h : step cfg s a = some s') (t : ℕ) : PhaseStep cfg s a s' t := by
  cases a with
  | tick | configure | report => exact .kept (Option.some.inj h ▸ rfl) (by simp)
  | gitPush =>
    simp only [step, State.gitPush] at h
    split_ifs at h
    exact .kept (Option.some.inj h ▸ rfl) (by simp)
  | gitTag | change => exact .kept (Option.some.inj h ▸ rfl) (by simp)
  | deliver t' k =>
    obtain ⟨d, hs, hd, rfl⟩ := deliver_of_step h
    by_cases ht : t = t'
    · subst ht
      exact .delivered k d rfl hd hs (by simp [State.phase_goto])
    · exact .kept (by simp [State.phase_goto, ht]) (by simp)
  | cancel =>
    obtain ⟨-, rfl⟩ := State.issue_eq_some.mp h
    exact .kept rfl (by simp)
  | restart => exact .kept (Option.some.inj h ▸ rfl) (by simp)
  | sweep =>
    obtain ⟨-, rfl⟩ := State.issue_eq_some.mp h
    exact .kept rfl (by simp)
  | poll t' jobsetId =>
    obtain ⟨jobset, hs, hj, -, rfl⟩ := poll_of_step h
    obtain rfl : jobset.id = jobsetId := Db.id_of_getJobset hj
    by_cases ht : t = t'
    · subst ht
      exact .polled jobset rfl hj hs (by simp [State.phase_goto])
    · exact .kept (by simp [State.phase_goto, ht]) (by simp)
  | drain t' id =>
    obtain ⟨e, j, p, hs, -, -, -, -, hp, rfl⟩ := drain_of_step h
    by_cases ht : t = t'
    · subst ht
      exact .drained id rfl hs (by rwa [State.phase_goto, if_pos rfl])
    · exact .kept (by simp [State.phase_goto, ht]) (by simp)
  | task t' event =>
    obtain ⟨m, hm, hp⟩ := Option.bind_eq_some_iff.mp h
    by_cases ht : t = t'
    · subst ht
      exact .moved event m rfl hm (performed hp)
    · refine .kept ?_ (fun ev he => ht (by injection he with h1; exact h1.symm))
      cases performed hp <;> rw [State.phase_goto, if_neg ht] <;> rfl

/-- The move can take its task to `p`. -/
def Move.Leads (p : Phase) : Move → Prop
  | statement _ next => ∃ row, p = next row
  | request _ next => ∃ result, p = next result
  | restart _ next => ∃ done, p = next done
  | lockRunning _ next => ∃ running, p = next running
  | commit _ _ next => p = next
  | fetch _ next => ∃ repo, p = next repo
  | read next => ∃ db, p = next db

variable {t : ℕ} {m : Move}

theorem Performed.leads (h : Performed s t m s') : m.Leads (s'.phase t) := by
  cases h with
  | committed => simp [Move.Leads, State.phase_goto]
  | _ => exact ⟨_, by rw [State.phase_goto, if_pos rfl]⟩

/-- Where a handler, a poll or a drain begins. -/
inductive Phase.Begins : Phase → Prop
  | triggering (requests : List Request) : Begins (.triggering requests)
  | polling (jobset : JobsetRow) : Begins (.polling jobset)
  | listed (id : Uuid) : Begins (.listed .drain id)
  | rejecting (id : Uuid) : Begins (.rejecting id)

/-- What holds of no beginning has held of the task before, or the task has moved. -/
theorem held_of_step {P : Phase → Prop} (hP : ∀ p, p.Begins → ¬ P p) (h : step cfg s a = some s')
    (hp : P (s'.phase t)) : P (s.phase t) ∧ (∀ event, a ≠ .task t event) ∨
      ∃ event m, a = .task t event ∧ (s.phase t).move cfg event = some m ∧ Performed s t m s' := by
  cases phase_of_step h t with
  | kept hk ha => exact .inl ⟨hk ▸ hp, ha⟩
  | moved event m ha hm hperf => exact .inr ⟨event, m, ha, hm, hperf⟩
  | delivered k d ha hd hs hp' => exact absurd hp (hP _ (hp' ▸ .triggering _))
  | polled jobset ha hj hs hp' => exact absurd hp (hP _ (hp' ▸ .polling _))
  | drained id ha hs hp' =>
    rcases hp' with hp' | hp'
    · exact absurd hp (hP _ (hp' ▸ .listed _))
    · exact absurd hp (hP _ (hp' ▸ .rejecting _))

/-! ### Locks -/

/-- Where a caller goes on no lock is held. -/
theorem Flow.locks_next (flow : Flow) (id : Uuid) : flow.next.locks id = false := by
  cases flow <;> rfl

variable {p p' : Phase} {event : TaskEvent} {id : Uuid}

/-- Recording starts with `lock_running`, and the lock goes with its end. -/
theorem Phase.locks_of_leads (hm : p.move cfg event = some m) (hl : m.Leads p') (h : p'.locks id = true) :
    p.locks id = true ∧ (∃ next, m = .read next) ∨
      ∃ next, m = .lockRunning id next ∧ (next false).locks id = false := by
  unfold Phase.move at hm
  split at hm <;> try first | cases hm | (split at hm <;> cases hm) | (split_ifs at hm <;> cases hm)
  all_goals try obtain ⟨x, rfl⟩ := hl
  all_goals try dsimp only at h
  all_goals try (repeat' split at h)
  all_goals first
    | exact absurd h Bool.false_ne_true
    | exact absurd h (by rw [Flow.locks_next]; exact Bool.false_ne_true)
    | (unfold Phase.onError at h; split at h <;> cases h)
    | exact .inl ⟨h, _, rfl⟩
    | exact .inr ⟨_, congrArg (Move.lockRunning · _) (of_decide_eq_true h), Flow.locks_next _ id⟩

/-- Only a finished result transaction commits. -/
theorem Phase.move_commit {jobs : List NixJob} {next : Phase} (hm : p.move cfg event = some (.commit id jobs next)) :
    event = .next ∧ ∃ flow x, p = .recording flow x ∧ x.id = id ∧ x.jobs = jobs ∧ x.finished = true := by
  unfold Phase.move at hm
  split at hm <;> try first | cases hm | (split at hm <;> cases hm)
  · split_ifs at hm with h1 h2 h3 <;> cases hm
    exact ⟨rfl, _, _, rfl, rfl, rfl, h3⟩

theorem commitOf_move {jobs : List NixJob} (h : commitOf cfg s a = some (id, jobs)) :
    ∃ t event next, a = .task t event ∧ (s.phase t).move cfg event = some (.commit id jobs next) := by
  cases a with
  | task t event =>
    cases hm : (s.phase t).move cfg event with
    | none => simp [commitOf, hm] at h
    | some m => cases m <;> simp_all [commitOf]
  | _ => cases h

theorem commitOf_eq {jobs : List NixJob}
    (h : commitOf cfg s a = some (id, jobs)) : ∃ t flow x, a = .task t .next ∧ s.phase t = .recording flow x ∧
      x.id = id ∧ x.jobs = jobs ∧ x.finished = true := by
  obtain ⟨t, event, _, rfl, hm⟩ := commitOf_move h
  obtain ⟨rfl, flow, x, hp, hx⟩ := Phase.move_commit hm
  exact ⟨t, flow, x, rfl, hp, hx⟩

/-- Who locks a row after a step locked it before, or has just done so. -/
theorem locks_of_step (h : step cfg s a = some s') (hl : (s'.phase t).locks id = true) :
    (s.phase t).locks id = true ∧ (∀ event, a = .task t event → s'.db = s.db) ∨
    (∃ event, a = .task t event) ∧ s.locked id = false ∧
      (∃ e, s.db.evaluations.get id = some e ∧ e.status = .running) ∧ s'.db = s.db := by
  rcases held_of_step (P := (·.locks id = true)) (fun _ hb h => by cases hb <;> cases h) h hl with
    ⟨hl, ha⟩ | ⟨event, m, ha, hm, hp⟩
  · exact .inl ⟨hl, fun event he => absurd he (ha event)⟩
  · rcases Phase.locks_of_leads hm hp.leads hl with ⟨h1, next, rfl⟩ | ⟨next, rfl, hn⟩
    · refine .inl ⟨h1, fun _ _ => ?_⟩
      cases hp with
      | read => rfl
    · refine .inr ⟨⟨event, ha⟩, ?_⟩
      cases hp with
      | notRunning =>
        rw [State.phase_goto, if_pos rfl, hn] at hl
        cases hl
      | locked he hr hfree => exact ⟨hfree, ⟨_, he, hr⟩, rfl⟩

/-- A locked evaluation is running, and one task has the lock. -/
structure LockInv (s : State) : Prop where
  running : ∀ t id, (s.phase t).locks id = true → ∃ e, s.db.evaluations.get id = some e ∧ e.status = .running
  one : ∀ t t' id, (s.phase t).locks id = true → (s.phase t').locks id = true → t = t'

namespace LockInv

theorem locked (h : LockInv s) (hl : s.locked id = true) :
    ∃ e, s.db.evaluations.get id = some e ∧ e.status = .running := by
  obtain ⟨t, ht⟩ := State.locked_iff.mp hl
  exact h.running t id ht

/-- A row that some task has locked stays as it is, unless it is the task's own
commit that changes it. -/
theorem get_effect {db : Db} (hI : LockInv s) (h : Effect cfg s a db)
    (hl : s.locked id = true) (hc : ∀ jobs, commitOf cfg s a ≠ some (id, jobs)) :
    db.evaluations.get id = s.db.evaluations.get id := by
  obtain ⟨e, he, hr⟩ := hI.locked hl
  have hid := Db.id_of_get he
  cases h with
  | none => rfl
  | statement q hq hw =>
    have hsel : q.selects s.now e = false := by
      by_contra hsel
      have := State.not_locked_of_waits hw (hid ▸ he) (by simpa using hsel)
      rw [hid, hl] at this
      cases this
    simp [Statement.get_run, he, Statement.apply, hsel]
  | create r e' db hreq hcr hw =>
    have hne : id ≠ s.db.nextId := fun h => by
      rw [h, Db.get_nextId] at he
      cases he
    have hsel : r.supersedes s.db e = false := by
      by_contra hsel
      have := State.not_locked_of_waits hw (hid ▸ he) (by simpa using hsel)
      rw [hid, hl] at this
      cases this
    simp [hcr.get, hne, he, hsel]
  | restart id' db hre hres =>
    have hne : id ≠ id' := by
      rintro rfl
      obtain ⟨e', he', hrest⟩ := hres.restartable
      rw [he] at he'
      cases he'
      simp [EvaluationRow.restartable, hr] at hrest
    rw [hres.get, if_neg hne]
  | record id' jobs hcommit =>
    have hne : e.id ≠ id' := fun h => hc jobs (by rw [← hid, h]; exact hcommit)
    simp [Db.get_record, he, Statement.apply, Statement.selects, hne]
  | configure | report => rfl

theorem step (hI : LockInv s) (h : step cfg s a = some s') : LockInv s' where
  running t id hl := by
    rcases locks_of_step h hl with ⟨hl₀, hdb⟩ | ⟨-, -, hr, hdb⟩
    · by_cases hc : ∃ jobs, commitOf cfg s a = some (id, jobs)
      · -- the lock is the committing task's own, and that task has gone on
        obtain ⟨jobs, hc⟩ := hc
        obtain ⟨t', flow, x, ha, hp, hx, -⟩ := commitOf_eq hc
        obtain rfl : t' = t := hI.one t' t id (by simp [hp, Phase.locks, hx]) hl₀
        rw [hdb _ ha]
        exact hI.running t' id hl₀
      · rw [hI.get_effect (step_effect h) (State.locked_iff.mpr ⟨t, hl₀⟩) (fun jobs hj => hc ⟨jobs, hj⟩)]
        exact hI.running t id hl₀
    · rw [hdb]
      exact hr
  one t t' id hl hl' := by
    rcases locks_of_step h hl with ⟨hl, -⟩ | ⟨⟨event, ha⟩, hfree, -⟩ <;>
      rcases locks_of_step h hl' with ⟨hl', -⟩ | ⟨⟨event', ha'⟩, hfree', -⟩
    · exact hI.one t t' id hl hl'
    · rw [State.locked_iff.mpr ⟨t, hl⟩] at hfree'
      cases hfree'
    · rw [State.locked_iff.mpr ⟨t', hl'⟩] at hfree
      cases hfree
    · rw [ha] at ha'
      injection ha'

/-- Where no task is at work, none holds a lock. -/
theorem of_idle (h : ∀ t, s.phase t = .idle) : LockInv s where
  running t id hl := by
    rw [h] at hl
    cases hl
  one t t' id hl := by
    rw [h] at hl
    cases hl

theorem exec {as : List Action} (hI : LockInv s) (h : exec cfg s as = some s') : LockInv s' :=
  Lts.exec_inv (fun _ _ _ hI _ h => hI.step h) hI (Lts.Along.of_mem fun _ _ _ => trivial) h

end LockInv

/-! ### Ownership -/

/-- The task has the right to evaluate evaluation `id`: it has been returned to
it as claimed or created. -/
def Phase.owns (id : Uuid) : Phase → Bool
  | claimed _ e => decide (e.id = id)
  | hashing _ e => decide (e.id = id)
  | evaluating _ i => decide (i = id)
  | recording _ attempt => decide (attempt.id = id)
  | _ => false

theorem Flow.owns_next (flow : Flow) (id : Uuid) : flow.next.owns id = false := by
  cases flow <;> rfl

variable {message : String}

theorem Phase.owns_of_onError (h : (p.onError message).owns id = true) : p.owns id = true := by
  unfold Phase.onError at h
  split at h <;> first | exact absurd h Bool.false_ne_true | exact h

/-- A statement hands an evaluation over by returning its row. -/
theorem Phase.owns_statement {q : Statement}
    {next : Option EvaluationRow → Phase} (hm : p.move cfg event = some (.statement q next))
    {row : Option EvaluationRow} (h : (next row).owns id = true) :
    p.owns id = true ∨ ∃ e, row = some e ∧ e.id = id ∧
      ((∃ i, q = .tryClaimPending i) ∨ ∃ i, q = .updateStatus i .running none) := by
  unfold Phase.move at hm
  split at hm <;> try first | cases hm | (split at hm <;> cases hm) | (split_ifs at hm <;> cases hm)
  all_goals try dsimp only at h
  all_goals try split at h
  all_goals first
    | exact absurd h Bool.false_ne_true
    | exact absurd h (by rw [Flow.owns_next]; exact Bool.false_ne_true)
    | exact .inl h
    | exact .inr ⟨_, rfl, of_decide_eq_true h, .inl ⟨_, rfl⟩⟩
    | exact .inr ⟨_, rfl, of_decide_eq_true h, .inr ⟨_, rfl⟩⟩

/-- A creation hands over what it has created as running. -/
theorem Phase.owns_request {r : Request}
    {next : Except CiError EvaluationRow → Phase} (hm : p.move cfg event = some (.request r next))
    {result : Except CiError EvaluationRow} (h : (next result).owns id = true) :
    ∃ e, result = .ok e ∧ e.id = id ∧ r.status = .running := by
  have hpoll : ∀ jobset commit, (pollRequest jobset commit).status = .running := fun jobset commit => by
    unfold pollRequest
    split_ifs <;> rfl
  unfold Phase.move at hm
  split at hm <;> try first | cases hm | (split at hm <;> cases hm) | (split_ifs at hm <;> cases hm)
  all_goals try dsimp only at h
  all_goals try split at h
  all_goals first
    | exact absurd h Bool.false_ne_true
    | exact ⟨_, rfl, of_decide_eq_true h, hpoll _ _⟩

/-- No other move does. -/
theorem Phase.owns_of_leads (hm : p.move cfg event = some m) (hl : m.Leads p') (h : p'.owns id = true) :
    p.owns id = true ∨ (∃ q next, m = .statement q next) ∨ ∃ r next, m = .request r next := by
  unfold Phase.move at hm
  split at hm <;> try first | cases hm | (split at hm <;> cases hm) | (split_ifs at hm <;> cases hm)
  all_goals try exact .inr (.inl ⟨_, _, rfl⟩)
  all_goals try exact .inr (.inr ⟨_, _, rfl⟩)
  all_goals try obtain ⟨x, rfl⟩ := hl
  all_goals try dsimp only at h
  all_goals try (repeat' split at h)
  all_goals first
    | exact absurd h Bool.false_ne_true
    | exact absurd h (by rw [Flow.owns_next]; exact Bool.false_ne_true)
    | exact .inl (Phase.owns_of_onError h)
    | exact .inl h

/-! ### Copies of evaluations -/

namespace Statement

variable {now : Time} {q : Statement} {db : Db} {e : EvaluationRow}

theorem returning_eq_some (h : q.returning now db = some e) :
    ∃ e₀, db.evaluations.get e₀.id = some e₀ ∧ q.selects now e₀ = true ∧ e = q.set now e₀ := by
  obtain ⟨e₀, h₀, rfl⟩ := Option.map_eq_some_iff.mp h
  exact ⟨e₀, Db.get_of_mem (List.mem_of_find?_eq_some h₀), List.find?_some (p := fun e => q.selects now e) h₀, rfl⟩

/-- A statement returns the row as it leaves it. -/
theorem get_of_returning (h : q.returning now db = some e) : (q.run now db).evaluations.get e.id = some e := by
  obtain ⟨e₀, he₀, hsel, rfl⟩ := returning_eq_some h
  have hid : (q.set now e₀).id = e₀.id := EvaluationRow.id_of_identity (identity_set _ _ _)
  rw [get_run, hid, he₀, Option.map_some, apply, if_pos hsel]

end Statement

/-- The copy of its evaluation a task goes on with. -/
def Phase.copy : Phase → Option EvaluationRow
  | claimed _ e | hashing _ e => some e
  | _ => none

/-- The copy is of the row as it was created or claimed. -/
theorem copy_of_performed {e : EvaluationRow}
    (hm : (s.phase t).move cfg event = some m) (hp : Performed s t m s') (h : (s'.phase t).copy = some e) :
    (s.phase t).copy = some e ∨ (∃ r : Request, r.run s.now s.db = .ok (e, s'.db)) ∨
    ∃ q next, m = .statement q next ∧ q.returning s.now s.db = some e ∧
      ((∃ id, q = .tryClaimPending id) ∨ ∃ id error, q = .updateStatus id .running error) := by
  generalize s.phase t = p at hm ⊢
  unfold Phase.move at hm
  split at hm <;> try first | cases hm | (split at hm <;> cases hm) | (split_ifs at hm <;> cases hm)
  all_goals
    cases hp <;> rw [State.phase_goto, if_pos rfl] at h <;> try dsimp only at h
  all_goals try (repeat' split at h)
  all_goals first
    | exact .inl h
    | (unfold Flow.next at h; split at h <;> cases h)
    | (unfold Phase.onError at h; split at h <;> cases h)
    | cases h
  all_goals first
    | cases ‹Except.error _ = Except.ok _›
    | exact .inr (.inl ⟨_, ‹_›⟩)
    | exact .inr (.inr ⟨_, _, rfl, ‹_›, .inl ⟨_, rfl⟩⟩)
    | exact .inr (.inr ⟨_, _, rfl, ‹_›, .inr ⟨_, _, rfl⟩⟩)

/-! ### Where `claim_existing` is called -/

/-- `claim_existing` gets a row of the moment. -/
theorem claiming_of_performed {e : EvaluationRow} (hm : (s.phase t).move cfg event = some m) (hp : Performed s t m s')
    (h : s'.phase t = .claiming e) : s.db.evaluations.get e.id = some e := by
  have hnext : ∀ flow : Flow, flow.next ≠ .claiming e := fun flow => by cases flow <;> simp [Flow.next]
  have herror : ∀ (p : Phase) message, p.onError message ≠ .claiming e := fun p message => by
    unfold Phase.onError
    split <;> simp
  generalize s.phase t = p at hm
  unfold Phase.move at hm
  split at hm <;> try first | cases hm | (split at hm <;> cases hm) | (split_ifs at hm <;> cases hm)
  all_goals
    cases hp <;> rw [State.phase_goto, if_pos rfl] at h <;> try dsimp only at h
  all_goals try (repeat' split at h)
  all_goals first
    | exact absurd h (hnext _)
    | exact absurd h (herror _ _)
    | cases h
  all_goals exact (Db.mem_of_getByJobsetAndCommit ‹_›).1

/-- It gets to its last statement with a copy that was completed. -/
theorem Phase.rerunning_of_leads (hm : p.move cfg event = some m) (hl : m.Leads (.rerunning id)) :
    ∃ e, p = .claiming e ∧ e.status = .completed ∧ e.id = id := by
  have hnext : ∀ flow : Flow, Phase.rerunning id ≠ flow.next := fun flow => by cases flow <;> simp [Flow.next]
  have herror : ∀ (p : Phase) message, Phase.rerunning id ≠ p.onError message := fun p message => by
    unfold Phase.onError
    split <;> simp
  unfold Phase.move at hm
  split at hm <;> try first | cases hm | (split at hm <;> cases hm) | (split_ifs at hm <;> cases hm)
  all_goals try obtain ⟨x, hl⟩ := hl
  all_goals try dsimp only at hl
  all_goals try (repeat' split at hl)
  all_goals first
    | exact absurd hl (hnext _)
    | exact absurd hl (herror _ _)
    | cases hl
  all_goals exact ⟨_, rfl, ‹_›, rfl⟩

/-- It restarts what was failed or timed out. -/
theorem Phase.move_restart {next : Bool → Phase} (hm : p.move cfg event = some (.restart id next)) :
    ∃ e, p = .claiming e ∧ e.id = id ∧ (e.status = .failed ∨ e.status = .timedOut) := by
  unfold Phase.move at hm
  split at hm <;> try first | cases hm | (split_ifs at hm <;> cases hm)
  split at hm <;> cases hm
  · exact ⟨_, rfl, rfl, .inl ‹_›⟩
  · exact ⟨_, rfl, rfl, .inr ‹_›⟩

theorem restartOf_task (h : restartOf cfg s a = some id) :
    a = .restart id ∨ ∃ t e, s.phase t = .claiming e ∧ e.id = id ∧ (e.status = .failed ∨ e.status = .timedOut) := by
  cases a with
  | restart => exact .inl (congrArg _ (Option.some.inj h))
  | task t event =>
    cases hm : (s.phase t).move cfg event with
    | none => simp [restartOf, hm] at h
    | some m =>
      cases m with
      | restart id' =>
        obtain rfl : id' = id := by simpa [restartOf, hm] using h
        obtain ⟨e, he⟩ := Phase.move_restart hm
        exact .inr ⟨t, e, he⟩
      | _ => simp [restartOf, hm] at h
  | _ => cases h

/-- `update_status` is the last statement of `claim_existing`, or rejects what
the cycle has listed. -/
theorem updateStatus_task {status : EvaluationStatus}
    {message : Option String} (h : statementOf cfg s a = some (.updateStatus id status message)) :
    ∃ t, s.phase t = .rerunning id ∧ status = .running ∨ s.phase t = .rejecting id ∧ status = .failed := by
  rcases statementOf_eq_some h with ⟨i, -, h⟩ | ⟨-, h⟩ | ⟨t, event, next, -, hm⟩
  · cases h
  · cases h
  · rcases Phase.move_statement hm with ⟨_, h⟩ | ⟨_, hp, h⟩ | ⟨_, hp, h⟩ | ⟨_, _, _, h, _⟩ | ⟨_, _, _, h⟩
    · cases h
    · cases h
      exact ⟨t, .inl ⟨hp, rfl⟩⟩
    · cases h
      exact ⟨t, .inr ⟨hp, rfl⟩⟩
    · cases h
    · cases h

theorem rerunOf_task (h : rerunOf cfg s a = some id) : ∃ t, s.phase t = .rerunning id := by
  unfold rerunOf at h
  split at h
  · next id' hs =>
    cases h
    obtain ⟨t, ⟨hp, -⟩ | ⟨-, hst⟩⟩ := updateStatus_task hs
    · exact ⟨t, hp⟩
    · cases hst
  · cases h

/-! ### Where requests come from -/

/-- A request is the next one of a webhook handler's loop, or one of a poll. -/
theorem Phase.move_request {r : Request}
    {next : Except CiError EvaluationRow → Phase} (hm : p.move cfg event = some (.request r next)) :
    event = .next ∧ ((∃ rest, p = .triggering (r :: rest)) ∨
      (∃ jobset commit, p = .creating jobset commit ∧ r = pollRequest jobset commit) ∨
      ∃ jobset ref refs, p = .enqueuing jobset (ref :: refs) ∧ r = refRequest jobset ref) := by
  unfold Phase.move at hm
  split at hm <;> try first | cases hm | (split at hm <;> cases hm) | (split_ifs at hm <;> cases hm)
  · exact ⟨rfl, .inl ⟨_, rfl⟩⟩
  · exact ⟨rfl, .inr (.inl ⟨_, _, rfl, rfl⟩)⟩
  · exact ⟨rfl, .inr (.inr ⟨_, _, _, rfl, rfl⟩)⟩

theorem requestOf_cases {r : Request} (h : requestOf cfg s a = some r) :
    ∃ t, a = .task t .next ∧ ((∃ rest, s.phase t = .triggering (r :: rest)) ∨
      (∃ jobset commit, s.phase t = .creating jobset commit ∧ r = pollRequest jobset commit) ∨
      ∃ jobset ref refs, s.phase t = .enqueuing jobset (ref :: refs) ∧ r = refRequest jobset ref) := by
  cases a with
  | task t event =>
    cases hm : (s.phase t).move cfg event with
    | none => simp [requestOf, hm] at h
    | some m =>
      cases m with
      | request r' =>
        obtain rfl : r' = r := by simpa [requestOf, hm] using h
        obtain ⟨rfl, hp⟩ := Phase.move_request hm
        exact ⟨t, rfl, hp⟩
      | _ => simp [requestOf, hm] at h
  | _ => cases h

/-- A handler's loop only gets shorter. -/
theorem Phase.triggering_of_leads {rs : List Request}
    (hm : p.move cfg event = some m) (hl : m.Leads (.triggering rs)) :
    ∃ rs₀, p = .triggering rs₀ ∧ rs = rs₀.tail := by
  have hnext : ∀ flow : Flow, Phase.triggering rs ≠ flow.next := fun flow => by cases flow <;> simp [Flow.next]
  have herror : ∀ (p : Phase) message, Phase.triggering rs = p.onError message →
      ∃ rs₀, p = .triggering rs₀ ∧ rs = rs₀.tail := fun p message h => by
    unfold Phase.onError at h
    split at h <;> cases h
    exact ⟨_, rfl, rfl⟩
  unfold Phase.move at hm
  split at hm <;> try first | cases hm | (split at hm <;> cases hm) | (split_ifs at hm <;> cases hm)
  all_goals try obtain ⟨x, hl⟩ := hl
  all_goals try dsimp only at hl
  all_goals try (repeat' split at hl)
  all_goals first
    | exact absurd hl (hnext _)
    | exact herror _ _ hl
    | cases hl
  all_goals exact ⟨_, rfl, rfl⟩

/-- It starts as what the delivery asks for. -/
theorem triggering_of_step (h : step cfg s a = some s') {rs : List Request} (hp' : s'.phase t = .triggering rs) :
    (∃ rs₀, s.phase t = .triggering rs₀ ∧ ∀ r ∈ rs, r ∈ rs₀) ∨
    ∃ k d, a = .deliver t k ∧ s.sent[k]? = some d ∧ rs = d.requests s.db := by
  cases phase_of_step h t with
  | kept hp => exact .inl ⟨rs, hp ▸ hp', fun _ hr => hr⟩
  | moved event m ha hm hp =>
    obtain ⟨rs₀, h₀, rfl⟩ := Phase.triggering_of_leads hm (hp' ▸ hp.leads)
    exact .inl ⟨rs₀, h₀, fun _ hr => List.mem_of_mem_tail hr⟩
  | delivered k d ha hd hs hp =>
    rw [hp'] at hp
    injection hp with hrs
    exact .inr ⟨k, d, ha, hd, hrs⟩
  | polled jobset ha hj hs hp => simp [hp] at hp'
  | drained i ha hs hp => rcases hp with hp | hp <;> simp [hp] at hp'

/-- The copy of the jobset an evaluation's caller works on. -/
def Flow.jobset : Flow → Option JobsetRow
  | refs jobset _ => some jobset
  | drain | single => none

/-- The copy of the jobset a poll works on. -/
def Phase.jobset : Phase → Option JobsetRow
  | polling jobset | fetching jobset | fetched jobset _ | creating jobset _ | conflicted jobset _ => some jobset
  | enqueuing jobset _ => some jobset
  | listed flow _ | claimed flow _ | hashing flow _ | evaluating flow _ | recording flow _ => flow.jobset
  | _ => none

theorem Flow.jobset_next (flow : Flow) : flow.next.jobset = flow.jobset := by
  cases flow <;> rfl

variable {jobset : JobsetRow}

theorem Phase.jobset_onError (h : (p.onError message).jobset = some jobset) : p.jobset = some jobset := by
  unfold Phase.onError at h
  split at h <;> first | exact h | cases h

/-- A poll keeps the copy it has. -/
theorem Phase.jobset_of_leads
    (hm : p.move cfg event = some m) (hl : m.Leads p') (h : p'.jobset = some jobset) : p.jobset = some jobset := by
  unfold Phase.move at hm
  split at hm <;> try first | cases hm | (split at hm <;> cases hm) | (split_ifs at hm <;> cases hm)
  all_goals try obtain ⟨x, rfl⟩ := hl
  all_goals try dsimp only at h
  all_goals try (repeat' split at h)
  all_goals first
    | exact h
    | exact Phase.jobset_onError h
    | (rw [Flow.jobset_next] at h; exact h)
    | cases h

/-- It got it from the table when the cycle took the jobset up. -/
theorem jobset_of_step (h : step cfg s a = some s') (hj : (s'.phase t).jobset = some jobset) :
    (s.phase t).jobset = some jobset ∨ a = .poll t jobset.id ∧ s.db.jobsets.get jobset.id = some jobset := by
  cases phase_of_step h t with
  | kept hp => exact .inl (hp ▸ hj)
  | moved event m ha hm hp => exact .inl (Phase.jobset_of_leads hm hp.leads hj)
  | delivered k d ha hd hs hp => simp [hp, Phase.jobset] at hj
  | polled jobset' ha hget hs hp =>
    rw [hp] at hj
    obtain rfl : jobset' = jobset := Option.some.inj hj
    exact .inr ⟨ha, hget⟩
  | drained i ha hs hp => rcases hp with hp | hp <;> simp [hp, Phase.jobset, Flow.jobset] at hj

/-- The jobset whose refs a task goes through, in `evaluate_matching_refs`. -/
def Phase.matching : Phase → Option JobsetRow
  | enqueuing jobset _ => some jobset
  | listed flow _ | claimed flow _ | hashing flow _ | evaluating flow _ | recording flow _ => flow.jobset
  | _ => none

theorem Flow.matching_next (flow : Flow) : flow.next.matching = flow.jobset := by
  cases flow <;> rfl

theorem Phase.matching_onError (h : (p.onError message).matching = some jobset) : p.matching = some jobset := by
  unfold Phase.onError at h
  split at h <;> first | cases h | exact h

/-- Only jobsets with a pattern get there. -/
theorem Phase.matching_of_leads (hm : p.move cfg event = some m) (hl : m.Leads p') (h : p'.matching = some jobset) :
    p.matching = some jobset ∨ jobset.branchPattern.isSome ∨ jobset.tagPattern.isSome := by
  unfold Phase.move at hm
  split at hm <;> try first | cases hm | (split at hm <;> cases hm) | (split_ifs at hm <;> cases hm)
  all_goals try obtain ⟨x, rfl⟩ := hl
  all_goals try dsimp only at h
  all_goals try (repeat' split at h)
  all_goals first
    | exact .inl h
    | exact .inl (Phase.matching_onError h)
    | (rw [Flow.matching_next] at h; exact .inl h)
    | cases h
  all_goals exact .inr ‹_›

theorem matching_of_step (h : step cfg s a = some s') (hj : (s'.phase t).matching = some jobset) :
    (s.phase t).matching = some jobset ∨ jobset.branchPattern.isSome ∨ jobset.tagPattern.isSome := by
  rcases held_of_step (P := (·.matching = some jobset)) (fun _ hb h => by cases hb <;> cases h) h hj with
    ⟨hj, -⟩ | ⟨event, m, -, hm, hp⟩
  · exact .inl hj
  · exact Phase.matching_of_leads hm hp.leads hj

/-- The commit a poll has resolved and not yet asked an evaluation for. -/
def Phase.resolved : Phase → Option (JobsetRow × String)
  | fetched jobset commit | creating jobset commit => some (jobset, commit)
  | _ => none

theorem Phase.resolved_onError {resolved : JobsetRow × String}
    (h : (p.onError message).resolved = some resolved) : p.resolved = some resolved := by
  unfold Phase.onError at h
  split at h <;> first | exact h | cases h

/-- It was read off the repository at the fetch. -/
theorem resolved_of_performed {commit : String} (hm : (s.phase t).move cfg event = some m) (hp : Performed s t m s')
    (h : (s'.phase t).resolved = some (jobset, commit)) : (s.phase t).resolved = some (jobset, commit) ∨
      (s.phase t).jobset = some jobset ∧
        (s.repos jobset.projectId).fetchAllRefs.cloneOrFetch jobset.branch = some commit := by
  generalize s.phase t = p at hm ⊢
  unfold Phase.move at hm
  split at hm <;> try first | cases hm | (split at hm <;> cases hm) | (split_ifs at hm <;> cases hm)
  all_goals
    cases hp <;> rw [State.phase_goto, if_pos rfl] at h <;> try dsimp only at h
  all_goals try (repeat' split at h)
  all_goals first
    | exact .inl h
    | (unfold Flow.next at h; split at h <;> cases h)
    | exact .inl (Phase.resolved_onError h)
    | cases h
  all_goals exact .inr ⟨rfl, ‹_›⟩

theorem resolved_of_step (h : step cfg s a = some s')
    {commit : String} (hr : (s'.phase t).resolved = some (jobset, commit)) :
    (s.phase t).resolved = some (jobset, commit) ∨ (∃ event, a = .task t event) ∧ (s.phase t).jobset = some jobset ∧
      (s.repos jobset.projectId).fetchAllRefs.cloneOrFetch jobset.branch = some commit := by
  rcases held_of_step (P := (·.resolved = some (jobset, commit))) (fun _ hb h => by cases hb <;> cases h) h hr with
    ⟨hr, -⟩ | ⟨event, m, ha, hm, hp⟩
  · exact .inl hr
  · exact (resolved_of_performed hm hp hr).imp_right fun h => ⟨⟨event, ha⟩, h⟩

/-- Every run starts with all tasks idle. -/
def State.Idle (s : State) : Prop := ∀ t, s.phase t = .idle

theorem idle_withJobset (jobset : JobsetRow) : (withJobset jobset).Idle := fun _ => rfl

end Circus.Evaluator
