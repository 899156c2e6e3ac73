/-
# The evaluation cache

`evaluate_single_ref` leaves a commit out when `get_by_inputs_hash` finds a
completed evaluation of the jobset with the hash of the commit and the inputs
it has just read. The system here is the evaluator's (`System.lean`) with the
inputs of the jobsets in motion: a task works with the inputs it has listed,
for the lookup, for `set_inputs_hash` and for the evaluation itself, whatever
they have become since. `completed` keeps what every completed evaluation was
made from.

The hash of a row is set apart from the row's status, by its id alone. So it
speaks of the evaluation that completes the row only if no former worker is
still on a row that is handed out, and no hash is left on it (`Handover`).
-/
import Circus.Evaluator.Claiming
import Circus.Evaluator.InputsHash
import Circus.Evaluator.Streams

namespace Circus.Evaluator

/-! ### What the evaluator does to hashes -/

/-- The evaluation a task has the right to evaluate. -/
def Phase.evaluation : Phase → Option Uuid
  | claimed _ e | hashing _ e => some e.id
  | evaluating _ id => some id
  | recording _ attempt => some attempt.id
  | _ => none

variable {p : Phase} {id : Uuid}

theorem Phase.owns_iff : p.owns id = true ↔ p.evaluation = some id := by
  cases p <;> simp [owns, evaluation]

/-- The task is past `set_inputs_hash` of evaluation `id`. -/
def Phase.begun (id : Uuid) : Phase → Bool
  | evaluating _ i => decide (i = id)
  | recording _ attempt => decide (attempt.id = id)
  | _ => false

theorem Phase.owns_of_begun (h : p.begun id = true) : p.owns id = true := by
  cases p with
  | evaluating | recording => exact h
  | _ => cases h

def Move.completes : Move → Option Uuid
  | statement (.finishRunning id .completed _) _ => some id
  | commit id _ _ => some id
  | _ => none

/-- The evaluation the action completes, if it is still running. -/
def finishes (cfg : Config) (s : State) : Action → Option Uuid
  | .task t event => ((s.phase t).move cfg event).bind Move.completes
  | _ => none

section Evaluator

variable {cfg : Config} {s s' : State} {a : Action} {db : Db} {id : Uuid} {e' : EvaluationRow}

theorem Phase.not_owns_onError {message : String} (hp : p.begun id = true) (k : Uuid) :
    (p.onError message).owns k = false := by
  cases p with
  | evaluating flow | recording flow => cases flow <;> rfl
  | _ => cases hp

variable {event : TaskEvent}

/-- A task that has begun stays so until it lets the evaluation go. -/
theorem Phase.begun_of_leads {p' : Phase} {m : Move} (hm : p.move cfg event = some m)
    (hl : m.Leads p') (hp : p.begun id = true) (ho : p'.owns id = true) : p'.begun id = true := by
  have hnext : ∀ flow : Flow, flow.next.owns id ≠ true := fun flow => by simp [Flow.owns_next]
  have herror : ∀ message, (p.onError message).owns id ≠ true := fun message => by simp [Phase.not_owns_onError hp]
  have hidle : Phase.idle.owns id ≠ true := Bool.false_ne_true
  cases p with
  | evaluating flow i =>
    cases event with
    | next => cases hm
    | error message =>
      cases hm
      obtain ⟨_, rfl⟩ := hl
      exact absurd ho (herror message)
    | crash =>
      cases hm
      obtain ⟨_, rfl⟩ := hl
      exact absurd ho hidle
    | skip =>
      cases hm
      obtain ⟨_, rfl⟩ := hl
      exact absurd ho (hnext flow)
    | failed timedOut message =>
      cases hm
      obtain ⟨_, rfl⟩ := hl
      exact absurd ho (hnext flow)
    | evaluated jobs allowed =>
      cases hm
      obtain ⟨running, rfl⟩ := hl
      cases running with
      | false => exact absurd ho (hnext flow)
      | true => exact ho
  | recording flow attempt =>
    cases event with
    | next =>
      simp only [Phase.move] at hm
      split_ifs at hm
      · cases hm
        obtain ⟨_, rfl⟩ := hl
        exact ho
      · cases hm
        obtain ⟨_, rfl⟩ := hl
        exact ho
      · cases hm
        obtain rfl : p' = flow.next := hl
        exact absurd ho (hnext flow)
      · cases hm
        obtain ⟨db, rfl⟩ := hl
        dsimp only at ho ⊢
        split_ifs at ho ⊢
        · exact ho
        · exact absurd ho (herror _)
    | error message =>
      cases hm
      obtain ⟨_, rfl⟩ := hl
      exact absurd ho (herror message)
    | crash =>
      cases hm
      obtain ⟨_, rfl⟩ := hl
      exact absurd ho hidle
    | _ => cases hm
  | _ => cases hp

/-- A task sets the hash, or fails to, and begins. -/
theorem Phase.begun_of_hashing {p' : Phase} {flow : Flow} {e : EvaluationRow} {m : Move}
    (hm : (Phase.hashing flow e).move cfg event = some m) (hl : m.Leads p') (ho : p'.owns id = true) :
    p'.begun id = true ∧ event ≠ .crash := by
  cases event with
  | next | error =>
    cases hm
    obtain ⟨_, rfl⟩ := hl
    exact ⟨ho, by simp⟩
  | crash =>
    cases hm
    obtain ⟨_, rfl⟩ := hl
    exact absurd ho Bool.false_ne_true
  | _ => cases hm

/-- An evaluation is completed by a task that has begun it, and lets it go. -/
theorem Phase.begun_of_completes {m : Move} (hm : p.move cfg event = some m)
    (hc : m.completes = some id) : p.begun id = true ∧ ∀ p', m.Leads p' → ∀ k, p'.owns k = false := by
  unfold Phase.move at hm
  split at hm <;> try first | cases hm | (split at hm <;> cases hm) | (split_ifs at hm <;> cases hm)
  all_goals try first | cases hc | (cases ‹Bool› <;> cases hc)
  -- left are the path filter's `finish_running` and the commit
  · refine ⟨decide_eq_true rfl, ?_⟩
    rintro _ ⟨_, rfl⟩ k
    exact Flow.owns_next _ k
  · refine ⟨decide_eq_true rfl, ?_⟩
    rintro _ rfl k
    exact Flow.owns_next _ k

/-- The hash a row has after a step it had before, or a task has just set it. -/
theorem hash_of_row {hash : String} (h : RowStep cfg s a db id (some e')) (hh : e'.inputsHash = some hash) :
    (∃ e, s.db.evaluations.get id = some e ∧ e.inputsHash = some hash ∧ e'.identity = e.identity) ∨
    ∃ t event flow e₀ e, a = .task t event ∧ s.phase t = .hashing flow e₀ ∧ e₀.id = id ∧
      s.db.evaluations.get id = some e ∧ e' = e.setInputsHash hash ∧
      hash = cfg.computeInputsHash e₀.jobsetId e₀.commitHash := by
  generalize ho : some e' = o at h
  cases h with
  | same => exact .inl ⟨e', ho.symm, hh, rfl⟩
  | created =>
    cases ho
    cases hh
  | superseded r new e hr hc he =>
    cases ho
    exact .inl ⟨e, he, hh, rfl⟩
  | statement q e hq he hs =>
    cases ho
    rcases statementOf_eq_some hq with ⟨i, rfl, rfl⟩ | ⟨rfl, rfl⟩ | ⟨t, event, next, rfl, hm⟩
    · exact .inl ⟨e, he, hh, rfl⟩
    · cases hh
    · rcases Phase.move_statement hm with ⟨i, rfl⟩ | ⟨i, -, rfl⟩ | ⟨i, -, rfl⟩ | ⟨i, st, message, rfl, -⟩ |
        ⟨flow, e₀, hp, rfl⟩
      · exact .inl ⟨e, he, hh, rfl⟩
      · exact .inl ⟨e, he, hh, rfl⟩
      · exact .inl ⟨e, he, hh, rfl⟩
      · exact .inl ⟨e, he, hh, rfl⟩
      · have hid : e.id = e₀.id := of_decide_eq_true hs
        cases hh
        exact .inr ⟨t, event, flow, e₀, e, rfl, hp, hid ▸ Db.id_of_get he, he, rfl, rfl⟩
  | restarted =>
    cases ho
    cases hh
  | recorded jobs e hc he =>
    cases ho
    exact .inl ⟨e, he, hh, rfl⟩

theorem finishes_of_commitOf {jobs : List NixJob} (h : commitOf cfg s a = some (id, jobs)) :
    finishes cfg s a = some id := by
  obtain ⟨t, event, _, rfl, hm⟩ := commitOf_move h
  simp [finishes, hm, Move.completes]

/-- A row that is completed after a step was so before, or was running and is completed by the step. -/
theorem completed_of_row (h : RowStep cfg s a db id (some e')) (hst : e'.status = .completed) :
    ∃ e, s.db.evaluations.get id = some e ∧
      (e.status = .completed ∨ finishes cfg s a = some id ∧ e.status = .running) := by
  generalize ho : some e' = o at h
  cases h with
  | same => exact ⟨e', ho.symm, .inl hst⟩
  | created r =>
    cases ho
    have hnew : r.status = .completed := hst
    unfold Request.status at hnew
    split_ifs at hnew
  | superseded r new e hr hc he =>
    cases ho
    refine ⟨e, he, .inl ?_⟩
    simp only [EvaluationRow.supersede] at hst
    split_ifs at hst
    exact hst
  | statement q e hq he hs =>
    cases ho
    rcases statementOf_eq_some hq with ⟨i, rfl, rfl⟩ | ⟨rfl, rfl⟩ | ⟨t, event, next, rfl, hm⟩
    · cases hst
    · simp only [Statement.set, EvaluationRow.sweepOrphaned] at hst
      split_ifs at hst
    · rcases Phase.move_statement hm with ⟨i, rfl⟩ | ⟨i, -, rfl⟩ | ⟨i, -, rfl⟩ | ⟨i, st, message, rfl, -⟩ |
        ⟨flow, e₀, hp, rfl⟩
      · cases hst
      · cases hst
      · cases hst
      · obtain rfl : st = .completed := hst
        obtain ⟨rfl, hrun⟩ : e.id = i ∧ e.status = .running := of_decide_eq_true hs
        refine ⟨e, he, .inr ⟨?_, hrun⟩⟩
        simp [finishes, hm, Move.completes, Db.id_of_get he]
      · exact ⟨e, he, .inl hst⟩
  | restarted =>
    cases ho
    cases hst
  | recorded jobs e hc he hs =>
    cases ho
    exact ⟨e, he, .inr ⟨finishes_of_commitOf hc, hs⟩⟩

/-- Whoever completes an evaluation has begun it, and has no evaluation after it. -/
theorem begun_of_finishes (h : finishes cfg s a = some id) :
    ∃ t event, a = .task t event ∧ (s.phase t).begun id = true ∧
      ∀ s', step cfg s a = some s' → ∀ k, (s'.phase t).owns k = false := by
  cases a with
  | task t event =>
    obtain ⟨m, hm, hc⟩ := Option.bind_eq_some_iff.mp h
    obtain ⟨hb, hnot⟩ := Phase.begun_of_completes hm hc
    refine ⟨t, event, rfl, hb, fun s' hs => ?_⟩
    obtain ⟨m', hm', hp⟩ := Option.bind_eq_some_iff.mp hs
    obtain rfl := Option.some.inj (hm.symm.trans hm')
    exact hnot _ (performed hp).leads
  | _ => cases h

/-- Only the task that acts gets an evaluation. -/
theorem task_of_obtains (h : step cfg s a = some s') {t : ℕ} (hn : (s.phase t).owns id = false)
    (ho : (s'.phase t).owns id = true) : ∃ event, a = .task t event := by
  rcases held_of_step (P := (·.owns id = true)) (fun _ hb h => by cases hb <;> cases h) h ho with
    ⟨ho, -⟩ | ⟨event, m, ha, -⟩
  · rw [hn] at ho
    cases ho
  · exact ⟨event, ha⟩

end Evaluator

/-- Some task has the right to evaluate evaluation `id`. -/
def State.held (s : State) (id : Uuid) : Bool := s.tasks.entries.any fun x => x.2.owns id

variable {s : State}

theorem State.held_iff : s.held id = true ↔ ∃ t, (s.phase t).owns id = true :=
  State.any_tasks_iff rfl

namespace InputsCache

/-! ### Inputs in motion -/

/-- A completed evaluation, by what it was made from. -/
structure Completion where
  jobsetId : Uuid
  commitHash : String
  inputs : List DeclarativeJobsetInput
  deriving DecidableEq, Repr

structure State where
  evaluator : Evaluator.State
  /-- The rows of `jobset_inputs`. -/
  inputs : Uuid → List DeclarativeJobsetInput := fun _ => []
  /-- The inputs a task has listed and works with. -/
  read : ℕ → Option (List DeclarativeJobsetInput) := fun _ => none
  /-- The evaluations completed so far. -/
  completed : List Completion := []

inductive Action
  /-- The inputs of a jobset are edited. -/
  | setInputs (jobsetId : Uuid) (inputs : List DeclarativeJobsetInput)
  /-- Task `t` lists the inputs of its jobset; an error counts as none. -/
  | listInputs (t : ℕ) (ok : Bool)
  | evaluator (a : Evaluator.Action)

/-- The jobset whose inputs are listed here. -/
def listsInputs : Phase → Option Uuid
  | .fetched jobset _ => some jobset.id
  | .hashing .single _ => none
  | .hashing _ e => some e.jobsetId
  | _ => none

/-- The next statement here needs the inputs. -/
def needsInputs : Phase → Bool
  | .fetched _ _ | .hashing _ _ => true
  | _ => false

/-- A task that gets here goes on with the inputs it has listed. -/
def keepsInputs : Phase → Bool
  | .creating _ _ | .conflicted _ _ | .claiming _ | .restarted _ | .rerunning _ | .hashing .single _ => true
  | .evaluating _ _ | .recording _ _ => true
  | _ => false

theorem keepsInputs_of_begun (h : p.begun id = true) : keepsInputs p = true := by
  cases p with
  | evaluating | recording => rfl
  | _ => cases h

/-- The task that acts. -/
def actor : Evaluator.Action → Option ℕ
  | .task t _ => some t
  | _ => none

section System

variable (sha256 : Sha256) (deadlineSecs : Time)

/-- The evaluator as a task with these inputs runs it. -/
def config (inputs : List DeclarativeJobsetInput) : Config where
  deadlineSecs := deadlineSecs
  computeInputsHash _ commit := computeInputsHash sha256 commit inputs
  inputsHash_injective _ := computeInputsHash_injective sha256 inputs

namespace State

/-- The inputs the acting task works with. -/
def inputsOf (s : State) (a : Evaluator.Action) : List DeclarativeJobsetInput := ((actor a).bind s.read).getD []

/-- The task has yet to list the inputs it needs. -/
def unread (s : State) : Evaluator.Action → Bool
  | .task _ .crash => false
  | .task t _ => needsInputs (s.evaluator.phase t) && (s.read t).isNone
  | _ => false

/-- What the tasks have listed after the action, which leads to `e`. -/
def readAfter (s : State) (a : Evaluator.Action) (e : Evaluator.State) : ℕ → Option (List DeclarativeJobsetInput) :=
  match actor a with
  | some t => Function.update s.read t (if keepsInputs (e.phase t) then s.read t else none)
  | none => s.read

/-- The evaluation that the action completes. -/
def completions (s : State) (a : Evaluator.Action) : List Completion :=
  (((finishes (config sha256 deadlineSecs (s.inputsOf a)) s.evaluator a).bind s.evaluator.db.evaluations.get).filter
    fun e => decide (e.status = .running)).toList.map fun e => ⟨e.jobsetId, e.commitHash, s.inputsOf a⟩

end State

def step (s : State) : Action → Option State
  | .setInputs jobsetId inputs =>
    if (inputs.map (·.name)).Nodup then some { s with inputs := Function.update s.inputs jobsetId inputs } else none
  | .listInputs t ok =>
    if (s.read t).isSome then none
    else (listsInputs (s.evaluator.phase t)).map fun jobsetId =>
      { s with read := Function.update s.read t (some (if ok then s.inputs jobsetId else [])) }
  | .evaluator a =>
    if s.unread a then none
    else (Evaluator.step (config sha256 deadlineSecs (s.inputsOf a)) s.evaluator a).map fun e =>
      { s with
        evaluator := e
        read := s.readAfter a e
        completed := s.completed ++ s.completions sha256 deadlineSecs a }

abbrev exec := Lts.exec (step sha256 deadlineSecs)

abbrev Along := Lts.Along (step sha256 deadlineSecs)

/-- An evaluation is handed out only when no former worker is on it, and without a hash of an evaluation that has
not completed. -/
def Handover (s : State) : Action → Prop
  | .evaluator a =>
    ∀ t ∈ actor a, ∀ e' ∈ Evaluator.step (config sha256 deadlineSecs (s.inputsOf a)) s.evaluator a,
      ∀ id ∈ (e'.phase t).evaluation, (s.evaluator.phase t).owns id = false →
        s.evaluator.held id = false ∧
        ∀ e ∈ s.evaluator.db.evaluations.get id, e.inputsHash = none ∨ e.status = .completed
  | .setInputs _ _ | .listInputs _ _ => True

instance (s : State) (a : Action) : Decidable (Handover sha256 deadlineSecs s a) := by
  unfold Handover
  split <;> infer_instance

end System

/-- A completed evaluation of the jobset has this hash. -/
def State.Done (sha256 : Sha256) (s : State) (jobsetId : Uuid) (hash : String) : Prop :=
  ∃ c ∈ s.completed, c.jobsetId = jobsetId ∧ computeInputsHash sha256 c.commitHash c.inputs = hash

/-- What the hash of a row speaks of. -/
structure CacheInv (sha256 : Sha256) (s : State) : Prop where
  rows : ∀ id e hash, s.evaluator.db.evaluations.get id = some e → e.status = .completed → e.inputsHash = some hash →
    s.Done sha256 e.jobsetId hash
  owned : ∀ t id e hash, (s.evaluator.phase t).owns id = true → s.evaluator.db.evaluations.get id = some e →
    e.inputsHash = some hash → s.Done sha256 e.jobsetId hash ∨
      (s.evaluator.phase t).begun id = true ∧
        ∃ inputs, s.read t = some inputs ∧ hash = computeInputsHash sha256 e.commitHash inputs
  unfinished : ∀ t id e, (s.evaluator.phase t).owns id = true → s.evaluator.db.evaluations.get id = some e →
    e.status ≠ .completed
  one : ∀ t t' id, (s.evaluator.phase t).owns id = true → (s.evaluator.phase t').owns id = true → t = t'
  copies : CopiesOfRows s.evaluator

variable {sha256 : Sha256}

theorem State.Done.mono {s' : State} {jobsetId : Uuid} {hash : String}
    (h : s.Done sha256 jobsetId hash) (hsub : ∀ c ∈ s.completed, c ∈ s'.completed) : s'.Done sha256 jobsetId hash := by
  obtain ⟨c, hc, hj, hhash⟩ := h
  exact ⟨c, hsub c hc, hj, hhash⟩

variable {t : ℕ}

theorem State.readAfter_eq {a : Evaluator.Action} {e : Evaluator.State}
    (h : actor a = some t → keepsInputs (e.phase t) = true) : s.readAfter a e t = s.read t := by
  unfold readAfter
  cases ha : actor a with
  | none => rfl
  | some t' =>
    by_cases ht : t = t'
    · subst ht
      simp only [Function.update_self]
      rw [if_pos (h ha)]
    · simp only [Function.update_of_ne ht]

/-- Whoever needs the inputs has listed them. -/
theorem State.exists_read {event : TaskEvent} (h : s.unread (.task t event) = false)
    (he : event ≠ .crash) (hp : needsInputs (s.evaluator.phase t) = true) :
    ∃ inputs, s.read t = some inputs ∧ s.inputsOf (.task t event) = inputs := by
  cases hr : s.read t with
  | none => cases event <;> simp_all [unread]
  | some inputs => exact ⟨inputs, rfl, by simp [inputsOf, actor, hr]⟩

section Step

variable {sha256 : Sha256} {deadlineSecs : Time} {s s' : State} {a : Evaluator.Action} {e : Evaluator.State}

/-- What a step of the evaluator leaves of a task that keeps its evaluation. -/
theorem CacheInv.begun_step {cfg : Config} (hs : Evaluator.step cfg s.evaluator a = some e)
    (hb : (s.evaluator.phase t).begun id = true) (ho : (e.phase t).owns id = true) :
    (e.phase t).begun id = true ∧ s.readAfter a e t = s.read t := by
  have hbegun : (e.phase t).begun id = true := by
    cases phase_of_step hs t with
    | kept hp => rwa [hp]
    | moved event m ha hm hp => exact Phase.begun_of_leads hm hp.leads hb ho
    | delivered k d ha hd hi | polled jobset ha hj hi | drained i ha hi =>
      rw [hi] at hb
      cases hb
  exact ⟨hbegun, State.readAfter_eq fun _ => keepsInputs_of_begun hbegun⟩

theorem CacheInv.one_step (hI : CacheInv sha256 s) (hh : Handover sha256 deadlineSecs s (.evaluator a))
    (hs : Evaluator.step (config sha256 deadlineSecs (s.inputsOf a)) s.evaluator a = some e) {t' : ℕ}
    (ho : (e.phase t).owns id = true) (ho' : (e.phase t').owns id = true) : t = t' := by
  -- whoever gets it now finds it without an owner
  have hnew : ∀ {t t' : ℕ}, (s.evaluator.phase t).owns id = false → (e.phase t).owns id = true →
      (e.phase t').owns id = true → t = t' := by
    intro t t' hn ho ho'
    obtain ⟨event, rfl⟩ := task_of_obtains hs hn ho
    have hfree := (hh t rfl e hs id (Phase.owns_iff.mp ho) hn).1
    have hn' : (s.evaluator.phase t').owns id = false := by
      by_contra hc
      rw [State.held_iff.mpr ⟨t', by simpa using hc⟩] at hfree
      cases hfree
    obtain ⟨event', ha⟩ := task_of_obtains hs hn' ho'
    cases ha
    rfl
  cases h : (s.evaluator.phase t).owns id with
  | false => exact hnew h ho ho'
  | true =>
    cases h' : (s.evaluator.phase t').owns id with
    | false => exact (hnew h' ho' ho).symm
    | true => exact hI.one t t' id h h'

/-- The hash of a row before the step, for whoever owns the row after it. -/
theorem CacheInv.owned_step (hI : CacheInv sha256 s) (hh : Handover sha256 deadlineSecs s (.evaluator a))
    (hs : Evaluator.step (config sha256 deadlineSecs (s.inputsOf a)) s.evaluator a = some e)
    {row : EvaluationRow} {hash : String} (ho : (e.phase t).owns id = true)
    (hrow : s.evaluator.db.evaluations.get id = some row) (hhash : row.inputsHash = some hash) :
    s.Done sha256 row.jobsetId hash ∨ (e.phase t).begun id = true ∧
      ∃ inputs, s.readAfter a e t = some inputs ∧ hash = computeInputsHash sha256 row.commitHash inputs := by
  cases h : (s.evaluator.phase t).owns id with
  | false =>
    obtain ⟨event, rfl⟩ := task_of_obtains hs h ho
    rcases (hh t rfl e hs id (Phase.owns_iff.mp ho) h).2 row hrow with hnone | hst
    · rw [hnone] at hhash
      cases hhash
    · exact .inl (hI.rows id row hash hrow hst hhash)
  | true =>
    rcases hI.owned t id row hash h hrow hhash with hd | ⟨hb, inputs, hread, hc⟩
    · exact .inl hd
    · obtain ⟨hb', hread'⟩ := CacheInv.begun_step hs hb ho
      exact .inr ⟨hb', inputs, hread'.trans hread, hc⟩

theorem CacheInv.step_evaluator (hI : CacheInv sha256 s) (hh : Handover sha256 deadlineSecs s (.evaluator a))
    (hu : s.unread a = false) (hs : Evaluator.step (config sha256 deadlineSecs (s.inputsOf a)) s.evaluator a = some e) :
    CacheInv sha256 { s with
      evaluator := e, read := s.readAfter a e
      completed := s.completed ++ s.completions sha256 deadlineSecs a } where
  rows id row hash hrow hst hhash := by
    have hstep := row_of_effect (step_effect hs) id
    rw [hrow] at hstep
    obtain ⟨row₀, hrow₀, hbefore⟩ := completed_of_row hstep hst
    rcases hash_of_row hstep hhash with ⟨row₁, hrow₁, hhash₁, hid⟩ |
      ⟨t, event, flow, e₀, row₁, -, hp, rfl, hrow₁, rfl, -⟩
    · obtain rfl := Option.some.inj (hrow₀.symm.trans hrow₁)
      rw [EvaluationRow.jobsetId_of_identity hid]
      rcases hbefore with hst₀ | ⟨hf, hrun⟩
      · exact (hI.rows id row₀ hash hrow₀ hst₀ hhash₁).mono fun c hc => List.mem_append_left _ hc
      · -- the row's hash is that of the task that completes it
        obtain ⟨t, event, rfl, hb, -⟩ := begun_of_finishes hf
        rcases hI.owned t id row₀ hash (Phase.owns_of_begun hb) hrow₀ hhash₁ with hd | ⟨-, inputs, hread, rfl⟩
        · exact hd.mono fun c hc => List.mem_append_left _ hc
        · have hinputs : s.inputsOf (.task t event) = inputs := by simp [State.inputsOf, actor, hread]
          exact ⟨⟨row₀.jobsetId, row₀.commitHash, s.inputsOf (.task t event)⟩,
            List.mem_append_right _ (by simp [State.completions, hf, hrow₀, hrun]), rfl, by rw [hinputs]⟩
    · -- nobody has a completed row
      obtain rfl := Option.some.inj (hrow₀.symm.trans hrow₁)
      have ho : (s.evaluator.phase t).owns e₀.id = true := by rw [hp]; exact decide_eq_true rfl
      exact absurd hst (hI.unfinished t _ row₀ ho hrow₀)
  owned t id row hash ho hrow hhash := by
    have hstep := row_of_effect (step_effect hs) id
    rw [hrow] at hstep
    rcases hash_of_row hstep hhash with ⟨row₁, hrow₁, hhash₁, hid⟩ |
      ⟨t', event, flow, e₀, row₁, rfl, hp, rfl, hrow₁, rfl, hset⟩
    · rw [EvaluationRow.jobsetId_of_identity hid, EvaluationRow.commitHash_of_identity hid]
      exact (hI.owned_step hh hs ho hrow₁ hhash₁).imp_left fun hd => hd.mono fun c hc => List.mem_append_left _ hc
    · -- the hash has just been set by its only owner
      have ho' : (s.evaluator.phase t').owns e₀.id = true := by rw [hp]; exact decide_eq_true rfl
      have ht : t = t' := by
        cases h : (s.evaluator.phase t).owns e₀.id with
        | false =>
          obtain ⟨event', ha⟩ := task_of_obtains hs h ho
          cases ha
          rfl
        | true => exact hI.one t t' _ h ho'
      subst ht
      obtain ⟨m, hm, hperf⟩ := Option.bind_eq_some_iff.mp hs
      rw [hp] at hm
      obtain ⟨hb, hcrash⟩ := Phase.begun_of_hashing hm (performed hperf).leads ho
      obtain ⟨inputs, hread, hinputs⟩ := State.exists_read hu hcrash (by rw [hp]; rfl)
      have hkept : s.readAfter (.task t event) e t = s.read t := State.readAfter_eq fun _ => keepsInputs_of_begun hb
      obtain ⟨row', hrow', hid⟩ := hI.copies t e₀ (by rw [hp]; rfl)
      obtain rfl := Option.some.inj (hrow₁.symm.trans hrow')
      refine .inr ⟨hb, inputs, hkept.trans hread, ?_⟩
      rw [hset, hinputs]
      exact congrArg (computeInputsHash sha256 · inputs) (EvaluationRow.commitHash_of_identity hid).symm
  unfinished t id row ho hrow hst := by
    have hstep := row_of_effect (step_effect hs) id
    rw [hrow] at hstep
    obtain ⟨row₀, hrow₀, hbefore⟩ := completed_of_row hstep hst
    cases h : (s.evaluator.phase t).owns id with
    | false =>
      obtain ⟨row', hrow', hrun⟩ := (obtains_of_step hs h ho).1
      obtain rfl := Option.some.inj (hrow.symm.trans hrow')
      rw [hst] at hrun
      cases hrun
    | true =>
      rcases hbefore with hst₀ | ⟨hf, -⟩
      · exact hI.unfinished t id row₀ h hrow₀ hst₀
      · obtain ⟨t', event, rfl, hb, hnot⟩ := begun_of_finishes hf
        obtain rfl := hI.one t t' id h (Phase.owns_of_begun hb)
        rw [hnot e hs id] at ho
        cases ho
  one t t' id ho ho' := hI.one_step hh hs ho ho'
  copies := hI.copies.step hs

theorem CacheInv.step (hI : CacheInv sha256 s) {a : Action} (hh : Handover sha256 deadlineSecs s a)
    (hs : step sha256 deadlineSecs s a = some s') : CacheInv sha256 s' := by
  cases a with
  | setInputs =>
    simp only [InputsCache.step] at hs
    split_ifs at hs
    cases hs
    exact ⟨hI.rows, hI.owned, hI.unfinished, hI.one, hI.copies⟩
  | listInputs t =>
    rw [InputsCache.step] at hs
    by_cases hread : (s.read t).isSome = true
    · rw [if_pos hread] at hs
      cases hs
    rw [if_neg hread] at hs
    obtain ⟨jobsetId, hl, rfl⟩ := Option.map_eq_some_iff.mp hs
    refine ⟨hI.rows, fun t' id e hash ho he hhash => ?_, hI.unfinished, hI.one, hI.copies⟩
    refine (hI.owned t' id e hash ho he hhash).imp_right ?_
    rintro ⟨hb, inputs, hread, hc⟩
    -- who lists its inputs has not begun
    have hne : t' ≠ t := by
      rintro rfl
      cases hp : s.evaluator.phase t' <;> simp [hp, Phase.begun, listsInputs] at hb hl
    exact ⟨hb, inputs, (Function.update_of_ne hne _ _).trans hread, hc⟩
  | evaluator =>
    simp only [InputsCache.step] at hs
    split_ifs at hs with hu
    obtain ⟨e, he, rfl⟩ := Option.map_eq_some_iff.mp hs
    exact hI.step_evaluator hh (by simpa using hu) he

end Step

/-- No task is at work, and there is no evaluation yet. -/
structure Initial (s : State) : Prop where
  idle : s.evaluator.Idle
  empty : s.evaluator.db.evaluations.rows = []
  read : ∀ t, s.read t = none
  completed : s.completed = []

theorem Initial.cacheInv (h : Initial s) : CacheInv sha256 s := by
  have hget : ∀ id e, s.evaluator.db.evaluations.get id ≠ some e := fun id e he => by
    have := Table.mem_of_get he
    rw [h.empty] at this
    cases this
  have hno : ∀ t id, (s.evaluator.phase t).owns id ≠ true := fun t id => by simp [h.idle t, Phase.owns]
  refine ⟨fun id e _ he => absurd he (hget id e), fun t id _ _ ho => absurd ho (hno t id),
    fun t id _ ho => absurd ho (hno t id), fun t _ id ho => absurd ho (hno t id), fun t e hc => ?_⟩
  rw [h.idle t] at hc
  cases hc

theorem CacheInv.exec {deadlineSecs : Time} {s₀ : State} {as : List Action} (h₀ : Initial s₀)
    (hrun : Along sha256 deadlineSecs (Handover sha256 deadlineSecs) s₀ as)
    (h : exec sha256 deadlineSecs s₀ as = some s) : CacheInv sha256 s :=
  Lts.exec_inv (fun _ _ _ hI hh hs => hI.step hh hs) h₀.cacheInv hrun h

/-- Task `t` is about to leave this commit out: it has listed the inputs, and its next step ends the poll. -/
structure Skips (sha256 : Sha256) (deadlineSecs : Time) (s : State) (t : ℕ) (jobset : JobsetRow) (commit : String)
    (inputs : List DeclarativeJobsetInput) : Prop where
  phase : s.evaluator.phase t = .fetched jobset commit
  read : s.read t = some inputs
  ends : ∃ s', step sha256 deadlineSecs s (.evaluator (.task t .next)) = some s' ∧ s'.evaluator.phase t = .idle

/-- It has found a completed evaluation with the hash. -/
theorem Skips.found {deadlineSecs : Time} {jobset : JobsetRow} {commit : String}
    {inputs : List DeclarativeJobsetInput} (h : Skips sha256 deadlineSecs s t jobset commit inputs) :
    ∃ id e, s.evaluator.db.evaluations.get id = some e ∧ e.jobsetId = jobset.id ∧ e.status = .completed ∧
      e.inputsHash = some (computeInputsHash sha256 commit inputs) := by
  obtain ⟨s', hs, hidle⟩ := h.ends
  simp only [step] at hs
  split_ifs at hs
  obtain ⟨e', he', rfl⟩ := Option.map_eq_some_iff.mp hs
  obtain ⟨m, hm, hp⟩ := Option.bind_eq_some_iff.mp he'
  rw [h.phase] at hm
  cases hm
  cases performed hp with
  | read =>
    have hinputs : s.inputsOf (.task t .next) = inputs := by simp [State.inputsOf, actor, h.read]
    rw [State.phase_goto, if_pos rfl, hinputs] at hidle
    dsimp only at hidle
    split_ifs at hidle with hhit
    obtain ⟨e, hmem, hsel⟩ := List.any_eq_true.mp hhit.2
    obtain ⟨hj, hhash, hst⟩ := of_decide_eq_true hsel
    exact ⟨e.id, e, Db.get_of_mem hmem, hj, hst, hhash⟩

/-- **The cache never confuses inputs**, as far as the hash and the rows go. The hash tells commits and inputs apart
exactly where no text is the same with its fields ending elsewhere. In every run in which evaluations are handed out
free and without a stale hash, a poll that is skipped leaves a commit out of which an evaluation with the same inputs
has completed, if it is confused with none that has. -/
theorem cache_unconfused (sha256 : Sha256) (deadlineSecs : Time) :
    (∀ c xs c' ys, (xs.map DeclarativeJobsetInput.name).Nodup → (ys.map DeclarativeJobsetInput.name).Nodup →
      ((computeInputsHash sha256 c xs = computeInputsHash sha256 c' ys ↔ c = c' ∧ xs.Perm ys) ↔
        Unconfused c xs c' ys)) ∧
    ∀ s₀ as s, Initial s₀ → Along sha256 deadlineSecs (Handover sha256 deadlineSecs) s₀ as →
      exec sha256 deadlineSecs s₀ as = some s → ∀ t jobset commit inputs,
      Skips sha256 deadlineSecs s t jobset commit inputs →
      (∀ c ∈ s.completed, c.jobsetId = jobset.id → Unconfused c.commitHash c.inputs commit inputs) →
      ∃ c ∈ s.completed, c.jobsetId = jobset.id ∧ c.commitHash = commit ∧ c.inputs.Perm inputs := by
  refine ⟨fun c xs c' ys hx _ => computeInputsHash_iff sha256 hx, ?_⟩
  intro s₀ as s h₀ hrun h t jobset commit inputs hskip hu
  obtain ⟨id, e, he, hj, hst, hhash⟩ := hskip.found
  obtain ⟨c, hc, hcj, heq⟩ := (CacheInv.exec h₀ hrun h).rows id e _ he hst hhash
  have hcj' : c.jobsetId = jobset.id := hcj.trans hj
  obtain ⟨hcommit, hperm⟩ := perm_of_hashedText (hu c hc hcj') (sha256.injective heq)
  exact ⟨c, hc, hcj', hcommit, hperm⟩

/-! ### Runs -/

theorem toChar_injective : Function.Injective UInt8.toChar := by
  intro a b h
  have hval : a.toUInt32.toNat = b.toUInt32.toNat := congrArg (fun c : Char => c.val.toNat) h
  rw [UInt8.toNat_toUInt32, UInt8.toNat_toUInt32] at hval
  exact UInt8.toNat_inj.mp hval

/-- Every byte as a character. -/
def plain : Sha256 where
  digest bytes := String.ofList (bytes.map UInt8.toChar)
  injective _ _ h := List.map_injective_iff.mpr toChar_injective (String.ofList_injective h)

def instance₀ : State := { evaluator := withJobset mainJobset }

def pinned (url : String) (revision : Option String) : List DeclarativeJobsetInput :=
  [{ name := "pin", inputType := .git, value := url, revision := revision }]

/-- Task `t` goes through `n` statements. -/
def nexts (t n : ℕ) : List Action := (Evaluator.nexts t n).map .evaluator

/-- Task `t` polls the jobset up to the lookup. -/
def lookup (t : ℕ) : List Action := .evaluator (.poll t 0) :: nexts t 2 ++ [.listInputs t true]

/-- Task `t` has nothing to build, and records that. -/
def finish (t : ℕ) : List Action := .evaluator (.task t (.evaluated [] none)) :: nexts t 2

/-- The tip of `main` is evaluated with these inputs. -/
def evaluated (inputs : List DeclarativeJobsetInput) : List Action :=
  [.setInputs 0 inputs, .evaluator (.gitPush 0 "main" (some "a"))] ++ lookup 1 ++ nexts 1 3 ++ finish 1

def polledAgain : List Action := evaluated (pinned "url" (some "1")) ++ lookup 2

theorem cache_unconfused_again :
    ∃ s ∈ exec plain 10 instance₀ polledAgain,
      Skips plain 10 s 2 mainJobset "a" (pinned "url" (some "1")) ∧
      ∃ c ∈ s.completed, c.jobsetId = 0 ∧ c.commitHash = "a" ∧ c.inputs.Perm (pinned "url" (some "1")) := by
  refine ⟨_, rfl, ⟨rfl, rfl, _, rfl, rfl⟩, ?_⟩
  exact (cache_unconfused plain 10).2 instance₀ polledAgain _ ⟨fun _ => rfl, rfl, fun _ => rfl, rfl⟩
    (by decide +kernel) rfl 2 mainJobset "a" _ ⟨rfl, rfl, _, rfl, rfl⟩ (by decide +kernel)

/-- The end of the value becomes a revision: the poll is skipped, though no evaluation of those inputs has completed.
The text that is hashed is the same. -/
theorem revision_confused :
    (computeInputsHash plain "a" (pinned "url1" none) = computeInputsHash plain "a" (pinned "url" (some "1")) ∧
      ¬ (pinned "url1" none).Perm (pinned "url" (some "1"))) ∧
    ∃ s ∈ exec plain 10 instance₀
        (evaluated (pinned "url1" none) ++ .setInputs 0 (pinned "url" (some "1")) :: lookup 2),
      Skips plain 10 s 2 mainJobset "a" (pinned "url" (some "1")) ∧
      ∀ c ∈ s.completed, ¬ c.inputs.Perm (pinned "url" (some "1")) := by
  exact ⟨by decide +kernel, _, rfl, ⟨rfl, rfl, _, rfl, rfl⟩, by decide +kernel⟩

end InputsCache

end Circus.Evaluator
