/-
# One-shot jobsets

A jobset in the state `one_shot` is meant to be evaluated once. It is stopped
by `mark_one_shot_complete`, which a task calls after Nix has run, if the copy
of the jobset it works with is a one-shot one. Until then the jobset is active,
and a task that has it goes on with its copy: the refs that match, one after
the other, and what other tasks have taken up.

The declarative bootstrap and a repository's own configuration write the
jobset again, with `enabled` as its state says; so does a restart of an
evaluation, an operator's or that of `claim_existing`.

`one_shot_runs_once` bounds the evaluations between two operator actions, in
runs in which the jobset is worked on by one task at a time, for one ref, with
its mark, and not declared again. `one_shot_runs_twice` has a run for each of
the ways out.
-/
import Circus.Evaluator.Jobsets
import Circus.Evaluator.Streams

namespace Circus.Evaluator

/-! ### What becomes of a jobset -/

variable {now : Time} {id : Uuid}

/-- A restart leaves the jobsets of other evaluations as they are. -/
theorem Db.jobsets_restart {db db' : Db} (h : db.restart now id = some db') (j : Uuid) :
    db'.jobsets.get j = db.jobsets.get j ∨ ∃ e, db.evaluations.get id = some e ∧ e.jobsetId = j := by
  unfold restart at h
  obtain ⟨e, he, h⟩ := Option.bind_eq_some_iff.mp h
  by_cases hj : e.jobsetId = j
  · exact .inr ⟨e, he, hj⟩
  · split_ifs at h
    cases h
    refine .inl ?_
    unfold reenableOneShot
    cases hrow : (Db.jobsets _).get e.jobsetId with
    | none => rfl
    | some row =>
      have hid : row.id = e.jobsetId := id_of_getJobset hrow
      have hid' : row.reenableOneShot.id = e.jobsetId := by
        unfold JobsetRow.reenableOneShot
        split_ifs <;> exact hid
      rw [Option.elim_some, configure, Table.get_upsert, hid', if_neg fun h => hj h.symm]
      rfl

inductive JobsetStep (cfg : Config) (s : State) (a : Action) (s' : State) (j : Uuid) : Prop
  | same (h : s'.db.jobsets.get j = s.db.jobsets.get j)
  | configured (row : JobsetRow) (ha : a = .configure row) (hid : row.id = j) (h : s'.db.jobsets.get j = some row)
  | restarted (id : Uuid) (e : EvaluationRow) (row : JobsetRow) (hr : restartOf cfg s a = some id)
      (he : s.db.evaluations.get id = some e) (hj : e.jobsetId = j) (hrow : s.db.jobsets.get j = some row)
      (h : s'.db.jobsets.get j = some { row with enabled := true })

variable {cfg : Config} {a : Action}

/-- A restart either goes through or changes nothing. -/
theorem restart_of_step {s s' : State} (hr : restartOf cfg s a = some id)
    (h : step cfg s a = some s') : s'.db = s.db ∨ s.db.restart s.now id = some s'.db := by
  cases a with
  | restart id' =>
    obtain rfl := Option.some.inj hr
    obtain rfl := Option.some.inj h
    cases hres : s.db.restart s.now id' with
    | none => exact .inl rfl
    | some => exact .inr rfl
  | task t event =>
    obtain ⟨m, hm, hp⟩ := Option.bind_eq_some_iff.mp h
    cases m with
    | restart id' =>
      obtain rfl : id' = id := by simpa [restartOf, hm] using hr
      cases performed hp with
      | kept => exact .inl rfl
      | restarted hres => exact .inr hres
    | _ => simp [restartOf, hm] at hr
  | _ => cases hr

theorem jobsetStep {s s' : State} (h : step cfg s a = some s') (j : Uuid) : JobsetStep cfg s a s' j := by
  have heffect := step_effect h
  generalize hdb : s'.db = db at heffect
  cases heffect with
  | none => exact .same (by rw [hdb])
  | statement =>
    refine .same ?_
    rw [hdb]
    rfl
  | create r e db hr hc => exact .same (by rw [hdb, hc.jobsets])
  | restart id db hr hres =>
    rcases hres.jobsets j with hj | ⟨row, hrow, hj⟩
    · exact .same (by rw [hdb, hj])
    · rcases restart_of_step hr h with hsame | hdone
      · exact .same (by rw [hsame])
      · rcases Db.jobsets_restart hdone j with hsame | ⟨e, he, hje⟩
        · exact .same hsame
        · exact .restarted id e row hr he hje hrow (by rw [hdb, hj])
  | record => exact .same (by rw [hdb, Db.jobsets_record])
  | configure jobset ha =>
    have hget : s'.db.jobsets.get j = if j = jobset.id then some jobset else s.db.jobsets.get j := by
      rw [hdb, Db.configure, Table.get_upsert]
    by_cases hj : j = jobset.id
    · exact .configured jobset ha hj.symm (by rw [hget, if_pos hj])
    · exact .same (by rw [hget, if_neg hj])
  | report =>
    refine .same ?_
    rw [hdb]
    rfl

namespace OneShot

/-! ### The system -/

inductive Action
  | base (a : Evaluator.Action)
  /-- `upsert` of a declared jobset: by the bootstrap, when a service starts, or
  by `sync_repo_declarative_config`. -/
  | declare (id : Uuid) (input : CreateJobset)
  /-- `mark_one_shot_complete` of task `t`; a failure is logged. -/
  | mark (t : ℕ) (ok : Bool)

structure State where
  base : Evaluator.State
  /-- The jobset a task works for, as its cycle has read it. -/
  copies : AList fun _ : ℕ => JobsetRow := ∅
  /-- The tasks that are about to call `mark_one_shot_complete`. -/
  marks : List ℕ := []

def taskOf : Evaluator.Action → Option ℕ
  | .deliver t _ | .poll t _ | .drain t _ | .task t _ => some t
  | _ => none

/-- `run_path_filtered_evaluation` returns `true` to task `t`, in the step to
`b`: Nix has run, and its result is recorded or not wanted any more. -/
def returns (cfg : Config) (s b : Evaluator.State) (t : ℕ) (event : TaskEvent) : Bool :=
  match s.phase t, event with
  | .evaluating _ _, .failed _ _ => true
  | .evaluating _ id, .evaluated _ _ => !(b.phase t).locks id
  | .recording _ _, .next => (commitOf cfg s (.task t .next)).isSome
  | _, _ => false

namespace State

def worksFor (s : State) (jobsetId : Uuid) (t : ℕ) : Bool := (s.copies.lookup t).any fun j => decide (j.id = jobsetId)

def copied (s : State) : Evaluator.Action → AList fun _ : ℕ => JobsetRow
  | .poll t id => (s.base.db.jobsets.get id).elim s.copies (s.copies.insert t)
  | .drain t id => ((s.base.db.evaluations.get id).bind fun e => s.base.db.jobsets.get e.jobsetId).elim s.copies
      (s.copies.insert t)
  | _ => s.copies

/-- The marks to come after a step to `b`. -/
def marked (cfg : Config) (s : State) (b : Evaluator.State) : Evaluator.Action → List ℕ
  | .task t event =>
    if returns cfg s.base b t event && (s.copies.lookup t).any fun j => decide (j.state = .oneShot) then t :: s.marks
    else s.marks
  | _ => s.marks

/-- A task makes its mark before it goes on. -/
def forbids (s : State) (a : Evaluator.Action) : Bool := (taskOf a).any fun t => decide (t ∈ s.marks)

/-- The state after a step of the evaluator to `b`. -/
def after (cfg : Config) (s : State) (a : Evaluator.Action) (b : Evaluator.State) : State where
  base := b
  copies := s.copied a
  marks := s.marked cfg b a

/-- `mark_one_shot_complete` of task `t`. -/
def mark (s : State) (t : ℕ) (ok : Bool) : Option State :=
  if t ∈ s.marks then (s.copies.lookup t).map fun j => { s with
    base := { s.base with db := if ok then s.base.db.markOneShotComplete j.id else s.base.db }
    marks := s.marks.filter fun t' => decide (t' ≠ t) }
  else none

end State

def step (cfg : Config) (s : State) : Action → Option State
  | .base a =>
    if s.forbids a then none else (Evaluator.step cfg s.base a).map (s.after cfg a)
  | .declare id input => some { s with base := { s.base with db := s.base.db.configure (input.row id) } }
  | .mark t ok => s.mark t ok

abbrev exec (cfg : Config) := Lts.exec (step cfg)

abbrev Along (cfg : Config) := Lts.Along (step cfg)

/-! ### Operator actions and completions -/

/-- An operator enables the jobset, or restarts an evaluation of it. -/
def Reenables (jobsetId : Uuid) (s : State) : Action → Bool
  | .base (.restart id) => (s.base.db.evaluations.get id).any fun e => decide (e.jobsetId = jobsetId)
  | .base (.configure jobset) => decide (jobset.id = jobsetId) && jobset.enabled
  | _ => false

/-- An evaluation of the jobset is completed, with what Nix has found. -/
def Completes (cfg : Config) (jobsetId : Uuid) (s : State) : Action → Bool
  | .base a => (commitOf cfg s.base a).any fun x =>
      (s.base.db.evaluations.get x.1).any fun e => decide (e.jobsetId = jobsetId)
  | _ => false

/-! ### The condition -/

/-- The task may come to complete an evaluation. -/
def mayComplete : Phase → Bool
  | .idle | .triggering _ | .rejecting _ | .failing _ _ | .enqueuing _ [] => false
  | _ => true

/-- Task `t` works on the jobset: it may still complete an evaluation, or has
its mark to make. -/
def State.engaged (s : State) (jobsetId : Uuid) (t : ℕ) : Bool :=
  s.worksFor jobsetId t && (decide (t ∈ s.marks) || mayComplete (s.base.phase t))

/-- No task works on the jobset. -/
def State.free (s : State) (jobsetId : Uuid) : Bool := s.copies.keys.all fun t => !s.engaged jobsetId t

/-- The jobset a task fetches for. -/
def fetches : Phase → Option JobsetRow
  | .fetching jobset => some jobset
  | _ => none

/-- The jobset stays a one-shot one and is not declared while it is disabled;
it is taken up by one task at a time and for at most one ref; and its marks go
through. -/
def RunsAlone (jobsetId : Uuid) (s : State) : Action → Prop
  | .base (.configure jobset) => jobset.id = jobsetId → jobset.state = .oneShot
  | .base (.poll _ id) => id = jobsetId → s.free jobsetId = true
  | .base (.drain _ id) => ∀ e ∈ s.base.db.evaluations.get id, e.jobsetId = jobsetId → s.free jobsetId = true
  | .base (.task t .next) => ∀ jobset ∈ fetches (s.base.phase t), jobset.id = jobsetId →
      (matchingRefs jobset (s.base.repos jobset.projectId).fetchAllRefs).length ≤ 1
  | .declare id input => id = jobsetId → (input.row id).state = .oneShot ∧
      ∀ row ∈ s.base.db.jobsets.get jobsetId, row.enabled = true
  | .mark t ok => s.worksFor jobsetId t = true → ok = true
  | _ => True

instance (jobsetId : Uuid) (s : State) : DecidablePred (RunsAlone jobsetId s) := fun a => by
  unfold RunsAlone
  split <;> infer_instance

/-! ### Tasks -/

/-- The evaluation a task is going to complete. -/
def target : Phase → Option Uuid
  | .claiming e | .claimed _ e | .hashing _ e => some e.id
  | .restarted id | .rerunning id | .listed _ id | .evaluating _ id => some id
  | .recording _ attempt => some attempt.id
  | _ => none

variable {p : Phase}

theorem target_onError {message : String} (h : target (p.onError message) = some id) :
    target p = some id := by
  unfold Phase.onError at h
  split at h <;> first | exact h | cases h

variable {db : Db} {e : EvaluationRow}

theorem id_of_claim
    (h : (Statement.tryClaimPending id).returning now db = some e) : e.id = id := by
  obtain ⟨e₀, -, hsel, rfl⟩ := Statement.returning_eq_some h
  exact (decide_eq_true_iff.mp hsel).1

theorem id_of_updateStatus {status : EvaluationStatus}
    {message : Option String} (h : (Statement.updateStatus id status message).returning now db = some e) :
    e.id = id := by
  obtain ⟨e₀, -, hsel, rfl⟩ := Statement.returning_eq_some h
  exact decide_eq_true_iff.mp hsel

/-- A created evaluation is in the jobset it was asked for. -/
theorem get_of_created {r : Request} {db' : Db} (h : r.run now db = .ok (e, db')) :
    db'.evaluations.get e.id = some e ∧ e.jobsetId = r.input.jobsetId := by
  have hc := Request.created h
  obtain ⟨base, rfl⟩ := hc.row
  exact ⟨(hc.get _).trans (if_pos rfl), rfl⟩

variable {t : ℕ} {event : TaskEvent}

variable {m : Move}

/-- A task comes to an evaluation of the jobset it polls, and keeps to it. -/
theorem target_of_performed {s s' : Evaluator.State}
    (hm : (s.phase t).move cfg event = some m) (hp : Performed s t m s')
    (h : target (s'.phase t) = some id) : target (s.phase t) = some id ∨
      ∃ j e, (s.phase t).jobset = some j ∧ s'.db.evaluations.get id = some e ∧ e.jobsetId = j.id := by
  generalize s.phase t = p at hm ⊢
  unfold Phase.move at hm
  split at hm <;> try first | cases hm | (split at hm <;> cases hm) | (split_ifs at hm <;> cases hm)
  all_goals
    cases hp <;> rw [State.phase_goto, if_pos rfl] at h <;> try dsimp only at h
  all_goals try (repeat' split at h)
  all_goals first
    | exact .inl h
    | exact .inl (target_onError h)
    | (unfold Flow.next at h; split at h <;> cases h)
    | cases h
  all_goals first
    | cases ‹Except.error _ = Except.ok _›
    | exact .inl (congrArg some (id_of_claim ‹_›).symm)
    | exact .inl (congrArg some (id_of_updateStatus ‹_›).symm)
    | exact .inr ⟨_, _, rfl, (Db.mem_of_getByJobsetAndCommit ‹_›).1, (Db.mem_of_getByJobsetAndCommit ‹_›).2.1⟩
    | exact .inr ⟨_, _, rfl, (get_of_created ‹_›).1, (get_of_created ‹_›).2.trans
        (by unfold pollRequest; split_ifs <;> rfl)⟩
    | exact .inr ⟨_, _, rfl, (get_of_created ‹_›).1, (get_of_created ‹_›).2.trans (by unfold refRequest; split <;> rfl)⟩

/-- A task that cannot complete an evaluation does not come to. -/
theorem mayComplete_of_leads {p' : Phase}
    (hm : p.move cfg event = some m) (hl : m.Leads p') (h : mayComplete p' = true) : mayComplete p = true := by
  cases p with
  | idle => cases hm
  | triggering requests =>
    cases requests <;> cases event <;> cases hm <;> obtain ⟨x, rfl⟩ := hl <;> cases h
  | rejecting | failing => cases event <;> cases hm <;> obtain ⟨x, rfl⟩ := hl <;> cases h
  | enqueuing jobset refs =>
    cases refs with
    | nil => cases event <;> cases hm <;> obtain ⟨x, rfl⟩ := hl <;> cases h
    | cons => rfl
  | _ => rfl

/-- No refs are left but the one at hand. -/
def Last : Flow → Prop
  | .refs _ refs => refs = []
  | .drain | .single => True

def Narrow : Phase → Prop
  | .enqueuing _ refs => refs.length ≤ 1
  | .listed flow _ | .claimed flow _ | .hashing flow _ | .evaluating flow _ | .recording flow _ => Last flow
  | _ => True

theorem Last.next {flow : Flow} (h : Last flow) : Narrow flow.next ∧ mayComplete flow.next = false := by
  cases flow with
  | drain | single => exact ⟨trivial, rfl⟩
  | refs jobset refs =>
    obtain rfl : refs = [] := h
    exact ⟨Nat.zero_le _, rfl⟩

theorem Narrow.onError {message : String} (h : Narrow p) : Narrow (p.onError message) := by
  unfold Phase.onError
  split <;> first | exact h | trivial

/-- What is fetched is what there is to go through. -/
theorem Narrow.performed {s s' : Evaluator.State}
    (hf : ∀ jobset, s.phase t = .fetching jobset → event = .next →
      (matchingRefs jobset (s.repos jobset.projectId).fetchAllRefs).length ≤ 1)
    (hn : Narrow (s.phase t)) (hm : (s.phase t).move cfg event = some m) (hp : Performed s t m s') :
    Narrow (s'.phase t) := by
  generalize s.phase t = p at hm hn hf
  unfold Phase.move at hm
  split at hm <;> try first | cases hm | (split at hm <;> cases hm) | (split_ifs at hm <;> cases hm)
  all_goals
    cases hp <;> rw [State.phase_goto, if_pos rfl] <;> try dsimp only
  all_goals try (repeat' split)
  all_goals first
    | exact trivial
    | exact hn
    | exact hn.onError
    | exact (Last.next hn).1
    | exact hf _ rfl rfl
    | exact List.length_eq_zero_iff.mp (Nat.le_zero.mp (Nat.le_of_succ_le_succ hn))
    | exact (Nat.le_of_succ_le_succ hn).trans (Nat.zero_le 1)

variable {b : Evaluator.State}

theorem mayComplete_of_returns {s : Evaluator.State}
    (h : returns cfg s b t event = true) : mayComplete (s.phase t) = true := by
  unfold returns at h
  split at h
  · next hq => rw [hq]; rfl
  · next hq => rw [hq]; rfl
  · next hq => rw [hq]; rfl
  · cases h

/-- The results of an evaluation come back to its caller. -/
theorem mayComplete_of_returned {s : Evaluator.State}
    (h : returns cfg s b t event = true) (hs : Evaluator.step cfg s (.task t event) = some b)
    (hn : Narrow (s.phase t)) : mayComplete (b.phase t) = false := by
  obtain ⟨m, hm, hp⟩ := Option.bind_eq_some_iff.mp hs
  unfold returns at h
  split at h
  · next flow id timedOut message hq =>
    rw [hq] at hm hn
    cases hm
    cases performed hp with
    | statement hw =>
      rw [State.phase_goto, if_pos rfl]
      exact (Last.next hn).2
  · next flow id jobs allowed hq =>
    rw [hq] at hm hn
    cases hm
    cases performed hp with
    | notRunning =>
      rw [State.phase_goto, if_pos rfl]
      exact (Last.next hn).2
    | locked =>
      rw [State.phase_goto, if_pos rfl] at h
      simp [Phase.locks] at h
  · next flow attempt hq =>
    cases m with
    | commit id jobs next =>
      rw [hq] at hm hn
      obtain rfl : next = flow.next := by
        simp only [Phase.move] at hm
        split_ifs at hm <;> cases hm
        rfl
      cases performed hp with
      | committed =>
        rw [State.phase_goto, if_pos rfl]
        exact (Last.next hn).2
    | _ => simp [commitOf, hm] at h
  · cases h

/-! ### The invariant -/

/-- At most one task works on the jobset, with a one-shot copy and for one ref,
and on its evaluations. -/
structure OneShotInv (jobsetId : Uuid) (s : State) : Prop where
  state : ∃ row, s.base.db.jobsets.get jobsetId = some row ∧ row.state = .oneShot
  alone : ∀ t t', s.engaged jobsetId t = true → s.engaged jobsetId t' = true → t = t'
  copy : ∀ t j, s.copies.lookup t = some j → j.id = jobsetId → j.state = .oneShot
  polls : ∀ t j, (s.base.phase t).jobset = some j → s.copies.lookup t = some j
  target : ∀ t id, target (s.base.phase t) = some id →
    ∃ e j, s.base.db.evaluations.get id = some e ∧ s.copies.lookup t = some j ∧ e.jobsetId = j.id
  narrow : ∀ t, s.worksFor jobsetId t = true → Narrow (s.base.phase t)
  marks : ∀ t ∈ s.marks, s.worksFor jobsetId t = true → mayComplete (s.base.phase t) = false

theorem oneShotInv_init {jobsetId : Uuid} (h : b.Idle)
    (hrow : ∃ row, b.db.jobsets.get jobsetId = some row ∧ row.state = .oneShot) :
    OneShotInv jobsetId { base := b } := by
  refine ⟨hrow, fun t t' ht => ?_, fun t j hj => ?_, fun t j hj => ?_, fun t id hid => ?_, fun t ht => ?_,
    fun t ht => ?_⟩
  · cases ht
  · cases hj
  · rw [h t] at hj
    cases hj
  · rw [h t] at hid
    cases hid
  · cases ht
  · cases ht

section Step

variable {cfg : Config} {jobsetId : Uuid} {s s' : State}

theorem State.worksFor_iff : s.worksFor jobsetId t = true ↔ ∃ j, s.copies.lookup t = some j ∧ j.id = jobsetId := by
  simp [State.worksFor, Option.any_eq_true]

theorem State.engaged_iff : s.engaged jobsetId t = true ↔
    s.worksFor jobsetId t = true ∧ (t ∈ s.marks ∨ mayComplete (s.base.phase t) = true) := by
  simp [State.engaged]

theorem State.free_iff : s.free jobsetId = true ↔ ∀ t, s.engaged jobsetId t = false := by
  unfold State.free
  rw [List.all_eq_true]
  constructor
  · intro h t
    by_cases ht : t ∈ s.copies
    · simpa using h t (AList.mem_keys.mp ht)
    · have hnone : s.copies.lookup t = none := AList.lookup_eq_none.mpr ht
      simp [State.engaged, State.worksFor, hnone]
  · intro h t _
    simp [h t]

/-! ### What a base step does to a task -/

theorem base_of_step {a : Evaluator.Action} (h : step cfg s (.base a) = some s') :
    s.forbids a = false ∧ ∃ b, Evaluator.step cfg s.base a = some b ∧ s' = s.after cfg a b := by
  simp only [step] at h
  split_ifs at h with hf
  obtain ⟨b, hb, rfl⟩ := Option.map_eq_some_iff.mp h
  exact ⟨by simpa using hf, b, hb, rfl⟩

/-- A task with the same copy works for the same jobset. -/
theorem State.worksFor_after {a : Evaluator.Action} (hc : (s.copied a).lookup t = s.copies.lookup t) :
    (s.after cfg a b).worksFor jobsetId t = s.worksFor jobsetId t := by
  unfold State.worksFor State.after
  rw [hc]

/-- What a base step to `b` does to task `t`. -/
inductive Turn (cfg : Config) (s : State) (a : Evaluator.Action) (b : Evaluator.State) (t : ℕ) : Prop
  | other (hp : b.phase t = s.base.phase t) (hc : (s.copied a).lookup t = s.copies.lookup t)
      (hm : t ∈ s.marked cfg b a ↔ t ∈ s.marks)
  | moved (event : TaskEvent) (m : Move) (ha : a = .task t event) (hmove : (s.base.phase t).move cfg event = some m)
      (hp : Performed s.base t m b) (hc : (s.copied a).lookup t = s.copies.lookup t) (hfree : t ∉ s.marks)
      (hm : t ∈ s.marked cfg b a → returns cfg s.base b t event = true)
  | delivered (k : ℕ) (requests : List Request) (ha : a = .deliver t k) (hi : s.base.phase t = .idle)
      (hp : b.phase t = .triggering requests) (hc : (s.copied a).lookup t = s.copies.lookup t)
      (hm : t ∉ s.marked cfg b a)
  | polled (j : JobsetRow) (ha : a = .poll t j.id) (hj : s.base.db.jobsets.get j.id = some j) (hact : j.active = true)
      (hi : s.base.phase t = .idle) (hp : b.phase t = .polling j) (hc : (s.copied a).lookup t = some j)
      (hm : t ∉ s.marked cfg b a)
  | drained (id : Uuid) (e : EvaluationRow) (j : JobsetRow) (ha : a = .drain t id)
      (he : s.base.db.evaluations.get id = some e) (hej : e.jobsetId = j.id)
      (hj : s.base.db.jobsets.get j.id = some j) (hact : j.active = true) (hi : s.base.phase t = .idle)
      (hp : b.phase t = .listed .drain id ∨ b.phase t = .rejecting id) (hc : (s.copied a).lookup t = some j)
      (hm : t ∉ s.marked cfg b a)

theorem turn {a : Evaluator.Action} (hf : s.forbids a = false)
    (h : Evaluator.step cfg s.base a = some b) (t : ℕ) : Turn cfg s a b t := by
  have hfree : ∀ t', taskOf a = some t' → t' ∉ s.marks := by
    intro t' ht' hmem
    simp [State.forbids, ht', hmem] at hf
  cases a with
  | poll t' i =>
    obtain ⟨j, hi, hj, hact, rfl⟩ := poll_of_step h
    have hid : j.id = i := Db.id_of_getJobset hj
    by_cases ht : t = t'
    · subst ht
      refine .polled j (by rw [hid]) (by rw [hid, hj]) hact hi (by rw [State.phase_goto, if_pos rfl]) ?_ (hfree t rfl)
      simp [State.copied, hj]
    · refine .other (by rw [State.phase_goto, if_neg ht]) ?_ Iff.rfl
      simp [State.copied, hj, AList.lookup_insert_ne ht]
  | drain t' i =>
    obtain ⟨e, j, p, hi, he, -, hj, hact, hp, rfl⟩ := drain_of_step h
    have hid : j.id = e.jobsetId := Db.id_of_getJobset hj
    by_cases ht : t = t'
    · subst ht
      refine .drained i e j rfl he hid.symm (by rw [hid, hj]) hact hi (by rwa [State.phase_goto, if_pos rfl]) ?_
        (hfree t rfl)
      simp [State.copied, he, hj]
    · refine .other (by rw [State.phase_goto, if_neg ht]) ?_ Iff.rfl
      simp [State.copied, he, hj, AList.lookup_insert_ne ht]
  | deliver t' k =>
    cases phase_of_step h t with
    | kept hp => exact .other hp rfl Iff.rfl
    | delivered k d ha hd hi hp =>
      cases ha
      exact .delivered k _ rfl hi hp rfl (hfree t rfl)
    | moved event m ha | polled j ha | drained i ha => cases ha
  | task t' event =>
    cases phase_of_step h t with
    | kept hp ha =>
      have hne : t ≠ t' := fun ht => ha event (by rw [ht])
      refine .other hp rfl ?_
      simp only [State.marked]
      split_ifs
      · simp [hne]
      · rfl
    | moved event' m ha hm hp =>
      cases ha
      refine .moved event m rfl hm hp rfl (hfree t rfl) fun hmem => ?_
      simp only [State.marked] at hmem
      split_ifs at hmem with hret
      · exact (Bool.and_eq_true_iff.mp hret).1
      · exact absurd hmem (hfree t rfl)
    | delivered k d ha | polled j ha | drained i ha => cases ha
  | _ =>
    cases phase_of_step h t with
    | kept hp => exact .other hp rfl Iff.rfl
    | moved event m ha | delivered k d ha | polled j ha | drained i ha => cases ha

/-- A task comes to work on the jobset when a cycle takes the jobset, or an
evaluation of it, up for the task. -/
theorem engaged_of_base {a : Evaluator.Action} (hf : s.forbids a = false)
    (h : Evaluator.step cfg s.base a = some b) (ht : (s.after cfg a b).engaged jobsetId t = true) :
    s.engaged jobsetId t = true ∨ taskOf a = some t ∧
      (∃ j, s.base.db.jobsets.get jobsetId = some j ∧ j.active = true) ∧
      (RunsAlone jobsetId s (.base a) → s.free jobsetId = true) := by
  obtain ⟨hworks, hbusy⟩ := State.engaged_iff.mp ht
  obtain ⟨j, hj, rfl⟩ := State.worksFor_iff.mp hworks
  cases turn hf h t with
  | other hp hc hm =>
    refine .inl (State.engaged_iff.mpr ⟨(State.worksFor_after hc).symm.trans hworks, ?_⟩)
    rcases hbusy with hmem | hmay
    · exact .inl (hm.mp hmem)
    · exact .inr (hp ▸ hmay)
  | moved event m ha hmove hp hc hfree hm =>
    refine .inl (State.engaged_iff.mpr ⟨(State.worksFor_after hc).symm.trans hworks, .inr ?_⟩)
    rcases hbusy with hmem | hmay
    · exact mayComplete_of_returns (hm hmem)
    · exact mayComplete_of_leads hmove hp.leads hmay
  | delivered k requests ha hi hp hc hm =>
    rcases hbusy with hmem | hmay
    · exact absurd hmem hm
    · have hmay : mayComplete (b.phase t) = true := hmay
      rw [hp] at hmay
      cases hmay
  | polled j' ha hj' hact hi hp hc =>
    obtain rfl := Option.some.inj (hc.symm.trans hj)
    exact .inr ⟨by rw [ha]; rfl, ⟨j', hj', hact⟩, fun hruns => by subst ha; exact hruns rfl⟩
  | drained id e j' ha he hej hj' hact hi hp hc =>
    obtain rfl := Option.some.inj (hc.symm.trans hj)
    exact .inr ⟨by rw [ha]; rfl, ⟨j', hj', hact⟩, fun hruns => by subst ha; exact hruns e he hej⟩

theorem OneShotInv.base {a : Evaluator.Action} (hI : OneShotInv jobsetId s)
    (ha : RunsAlone jobsetId s (.base a)) (hf : s.forbids a = false) (hs : Evaluator.step cfg s.base a = some b) :
    OneShotInv jobsetId (s.after cfg a b) where
  state := by
    obtain ⟨row, hrow, hshot⟩ := hI.state
    cases jobsetStep hs jobsetId with
    | same h => exact ⟨row, h.trans hrow, hshot⟩
    | configured row' hact hid h =>
      subst hact
      exact ⟨row', h, ha hid⟩
    | restarted id e row' hr he hj hrow' h =>
      obtain rfl := Option.some.inj (hrow.symm.trans hrow')
      exact ⟨_, h, hshot⟩
  alone := by
    intro t t' ht ht'
    rcases engaged_of_base hf hs ht with hold | ⟨htask, -, hfree⟩ <;>
      rcases engaged_of_base hf hs ht' with hold' | ⟨htask', -, hfree'⟩
    · exact hI.alone t t' hold hold'
    · exact absurd hold (by rw [State.free_iff.mp (hfree' ha) t]; simp)
    · exact absurd hold' (by rw [State.free_iff.mp (hfree ha) t']; simp)
    · exact Option.some.inj (htask.symm.trans htask')
  copy := by
    intro t j hj hid
    have htable : s.base.db.jobsets.get j.id = some j → j.state = .oneShot := by
      intro hget
      obtain ⟨row, hrow, hshot⟩ := hI.state
      obtain rfl := Option.some.inj (hrow.symm.trans (hid ▸ hget))
      exact hshot
    cases turn hf hs t with
    | other hp hc | moved event m ha hmove hp hc
    | delivered k requests ha hi hp hc => exact hI.copy t j (hc.symm.trans hj) hid
    | polled j' ha hj' hact hi hp hc | drained id e j' ha he hej hj' hact hi hp hc =>
      obtain rfl := Option.some.inj (hc.symm.trans hj)
      exact htable hj'
  polls := by
    intro t j hj
    have hj : (b.phase t).jobset = some j := hj
    cases turn hf hs t with
    | other hp hc => exact hc.trans (hI.polls t j (hp ▸ hj))
    | moved event m ha hmove hp hc => exact hc.trans (hI.polls t j (Phase.jobset_of_leads hmove hp.leads hj))
    | delivered k requests ha hi hp => simp [hp, Phase.jobset] at hj
    | polled j' ha hj' hact hi hp hc =>
      rw [hp] at hj
      exact hc.trans hj
    | drained id e j' ha he hej hj' hact hi hp =>
      rcases hp with hp | hp <;> simp [hp, Phase.jobset, Flow.jobset] at hj
  target := by
    intro t id hid
    have hid : OneShot.target (b.phase t) = some id := hid
    -- an evaluation stays in its jobset
    have hkeep : ∀ e j, s.base.db.evaluations.get id = some e → (s.copied a).lookup t = some j → e.jobsetId = j.id →
        ∃ e j, b.db.evaluations.get id = some e ∧ (s.copied a).lookup t = some j ∧ e.jobsetId = j.id := by
      intro e j he hj hej
      obtain ⟨e', he', hident⟩ := identity_of_effect (step_effect hs) he
      exact ⟨e', j, he', hj, (EvaluationRow.jobsetId_of_identity hident).trans hej⟩
    cases turn hf hs t with
    | other hp hc =>
      obtain ⟨e, j, he, hj, hej⟩ := hI.target t id (hp ▸ hid)
      exact hkeep e j he (hc.trans hj) hej
    | moved event m ha hmove hp hc =>
      rcases target_of_performed hmove hp hid with hold | ⟨j, e, hpoll, he, hej⟩
      · obtain ⟨e, j, he, hj, hej⟩ := hI.target t id hold
        exact hkeep e j he (hc.trans hj) hej
      · exact ⟨e, j, he, hc.trans (hI.polls t j hpoll), hej⟩
    | delivered k requests ha hi hp | polled j' ha hj' hact hi hp => simp [hp, OneShot.target] at hid
    | drained id' e j' ha he hej hj' hact hi hp hc =>
      rcases hp with hp | hp
      · obtain rfl : id' = id := by simpa [hp, OneShot.target] using hid
        exact hkeep e j' he hc hej
      · simp [hp, OneShot.target] at hid
  narrow := by
    intro t ht
    obtain ⟨j, hj, hid⟩ := State.worksFor_iff.mp ht
    show Narrow (b.phase t)
    cases turn hf hs t with
    | other hp hc =>
      rw [hp]
      exact hI.narrow t ((State.worksFor_after hc).symm.trans ht)
    | moved event m hact hmove hp hc hfree hm =>
      have hworks := (State.worksFor_after hc).symm.trans ht
      refine Narrow.performed (fun jobset hfetch hnext => ?_) (hI.narrow t hworks) hmove hp
      subst hact hnext
      have hcopy := hI.polls t jobset (by rw [hfetch]; rfl)
      obtain rfl := Option.some.inj (hcopy.symm.trans (hc.symm.trans hj))
      exact ha jobset (by rw [hfetch]; rfl) hid
    | delivered k requests ha hi hp | polled j' ha hj' hact hi hp => rw [hp]; trivial
    | drained id e j' ha he hej hj' hact hi hp => rcases hp with hp | hp <;> rw [hp] <;> trivial
  marks := by
    intro t ht hworks
    show mayComplete (b.phase t) = false
    cases turn hf hs t with
    | other hp hc hm =>
      rw [hp]
      exact hI.marks t (hm.mp ht) ((State.worksFor_after hc).symm.trans hworks)
    | moved event m hact hmove hp hc hfree hm =>
      subst hact
      have hnarrow := hI.narrow t ((State.worksFor_after hc).symm.trans hworks)
      exact mayComplete_of_returned (hm ht) hs hnarrow
    | delivered k requests ha hi hp hc hm | polled j' ha hj' hact hi hp hc hm
    | drained id e j' ha he hej hj' hact hi hp hc hm => exact absurd ht hm

/-- Writes to the jobsets leave the tasks where they are. -/
theorem OneShotInv.frame (hI : OneShotInv jobsetId s) (hp : ∀ t, s'.base.phase t = s.base.phase t)
    (he : s'.base.db.evaluations = s.base.db.evaluations) (hc : s'.copies = s.copies)
    (hm : ∀ t ∈ s'.marks, t ∈ s.marks)
    (hstate : ∃ row, s'.base.db.jobsets.get jobsetId = some row ∧ row.state = .oneShot) : OneShotInv jobsetId s' := by
  have hworks : ∀ t, s'.worksFor jobsetId t = s.worksFor jobsetId t := fun t => by rw [State.worksFor, hc]; rfl
  have hengaged : ∀ t, s'.engaged jobsetId t = true → s.engaged jobsetId t = true := by
    intro t ht
    obtain ⟨hw, hbusy⟩ := State.engaged_iff.mp ht
    exact State.engaged_iff.mpr ⟨hworks t ▸ hw, hbusy.imp (hm t) fun hmay => hp t ▸ hmay⟩
  refine ⟨hstate, fun t t' ht ht' => hI.alone t t' (hengaged t ht) (hengaged t' ht'), fun t j hj => ?_,
    fun t j hj => ?_, fun t id hid => ?_, fun t ht => ?_, fun t ht hw => ?_⟩
  · exact hI.copy t j (hc ▸ hj)
  · rw [hc]
    exact hI.polls t j (hp t ▸ hj)
  · rw [hc, he]
    exact hI.target t id (hp t ▸ hid)
  · rw [hp t]
    exact hI.narrow t (hworks t ▸ ht)
  · rw [hp t]
    exact hI.marks t (hm t ht) (hworks t ▸ hw)

theorem mark_of_step {ok : Bool} (hs : step cfg s (.mark t ok) = some s') :
    t ∈ s.marks ∧ ∃ j, s.copies.lookup t = some j ∧ s'.copies = s.copies ∧
      s'.marks = s.marks.filter (fun t' => decide (t' ≠ t)) ∧ s'.base.db.evaluations = s.base.db.evaluations ∧
      (∀ t', s'.base.phase t' = s.base.phase t') ∧
      ∀ k, s'.base.db.jobsets.get k = (s.base.db.jobsets.get k).map fun row =>
        if ok = true ∧ row.id = j.id ∧ row.state = .oneShot then { row with enabled := false } else row := by
  have hs : s.mark t ok = some s' := hs
  unfold State.mark at hs
  by_cases ht : t ∈ s.marks
  · rw [if_pos ht] at hs
    obtain ⟨j, hj, rfl⟩ := Option.map_eq_some_iff.mp hs
    refine ⟨ht, j, hj, rfl, rfl, ?_, fun _ => rfl, fun k => ?_⟩
    · cases ok <;> rfl
    · cases ok with
      | false => simp
      | true => simp [Db.markOneShotComplete, Table.get_update]
  · rw [if_neg ht] at hs
    cases hs

theorem OneShotInv.step (hI : OneShotInv jobsetId s) (ha : RunsAlone jobsetId s a)
    (hs : step cfg s a = some s') : OneShotInv jobsetId s' := by
  obtain ⟨row, hrow, hshot⟩ := hI.state
  cases a with
  | base =>
    obtain ⟨hf, b, hb, rfl⟩ := base_of_step hs
    exact hI.base ha hf hb
  | declare id input =>
    cases hs
    refine hI.frame (fun _ => rfl) rfl rfl (fun _ h => h) ?_
    by_cases hid : jobsetId = id
    · exact ⟨input.row id, (Table.get_upsert _ _ _).trans (if_pos hid), (ha hid.symm).1⟩
    · exact ⟨row, ((Table.get_upsert _ _ _).trans (if_neg hid)).trans hrow, hshot⟩
  | mark =>
    obtain ⟨ht, j, hj, hc, hm, he, hp, hget⟩ := mark_of_step hs
    refine hI.frame hp he hc (fun t' h => List.mem_of_mem_filter (hm ▸ h)) ?_
    refine ⟨_, (hget jobsetId).trans (by rw [hrow, Option.map_some]), ?_⟩
    split_ifs <;> exact hshot

/-! ### The bound -/

/-- A task is about to mark the jobset. -/
def State.marking (s : State) (jobsetId : Uuid) : Bool := s.marks.any fun t => s.worksFor jobsetId t

def State.enabled (s : State) (jobsetId : Uuid) : Bool := (s.base.db.jobsets.get jobsetId).any fun j => j.enabled

/-- What the jobset may still complete. -/
def State.left (s : State) (jobsetId : Uuid) : ℕ :=
  if s.marking jobsetId then 0 else if s.enabled jobsetId || !s.free jobsetId then 1 else 0

theorem State.left_le_one (s : State) (jobsetId : Uuid) : s.left jobsetId ≤ 1 := by
  unfold State.left
  split_ifs <;> decide

theorem State.left_eq_zero_iff : s.left jobsetId = 0 ↔
    s.marking jobsetId = true ∨ s.enabled jobsetId = false ∧ ∀ t, s.engaged jobsetId t = false := by
  unfold State.left
  cases hm : s.marking jobsetId <;> cases he : s.enabled jobsetId <;> cases hf : s.free jobsetId <;>
    simp [← State.free_iff, hf]

theorem State.marking_iff : s.marking jobsetId = true ↔ ∃ t ∈ s.marks, s.worksFor jobsetId t = true := by
  simp [State.marking]

/-- When the jobset completes an evaluation, its mark is to come. -/
theorem left_of_completes (hI : OneShotInv jobsetId s) (hs : step cfg s a = some s')
    (hc : Completes cfg jobsetId s a = true) : s.left jobsetId = 1 ∧ s'.left jobsetId = 0 := by
  cases a with
  | declare | mark => cases hc
  | base a =>
    obtain ⟨hf, b, hb, rfl⟩ := base_of_step hs
    obtain ⟨⟨id, jobs⟩, hcommit, hc⟩ := (Option.any_eq_true _ _).mp hc
    obtain ⟨e, he, hej⟩ := (Option.any_eq_true _ _).mp hc
    obtain ⟨t, flow, x, rfl, hp, rfl, -, -⟩ := commitOf_eq hcommit
    -- the task works on the jobset
    obtain ⟨e', j, he', hj, hid⟩ := hI.target t x.id (by rw [hp]; rfl)
    obtain rfl := Option.some.inj (he.symm.trans he')
    have hid : j.id = jobsetId := hid.symm.trans (of_decide_eq_true hej)
    have hworks : s.worksFor jobsetId t = true := State.worksFor_iff.mpr ⟨j, hj, hid⟩
    have hengaged : s.engaged jobsetId t = true := State.engaged_iff.mpr ⟨hworks, .inr (by rw [hp]; rfl)⟩
    have hfree : t ∉ s.marks := by simpa [State.forbids, taskOf] using hf
    constructor
    · have hne : s.left jobsetId ≠ 0 := by
        intro h
        rcases State.left_eq_zero_iff.mp h with hm | ⟨-, hnone⟩
        · obtain ⟨t', ht', hw'⟩ := State.marking_iff.mp hm
          obtain rfl := hI.alone t' t (State.engaged_iff.mpr ⟨hw', .inl ht'⟩) hengaged
          exact hfree ht'
        · rw [hnone t] at hengaged
          cases hengaged
      exact le_antisymm (s.left_le_one jobsetId) (Nat.pos_of_ne_zero hne)
    · have hret : returns cfg s.base b t .next = true := by simp [returns, hp, hcommit]
      have hmem : t ∈ s.marked cfg b (.task t .next) := by
        simp [State.marked, hret, hj, hI.copy t j hj hid]
      exact State.left_eq_zero_iff.mpr (.inl (State.marking_iff.mpr ⟨t, hmem, hworks⟩))

/-- A jobset that is disabled and worked on by no task stays so. -/
theorem rest_of_base {a : Evaluator.Action} (hI : OneShotInv jobsetId s)
    (hno : Reenables jobsetId s (.base a) = false) (hf : s.forbids a = false)
    (hs : Evaluator.step cfg s.base a = some b) (hoff : s.enabled jobsetId = false)
    (hnone : ∀ t, s.engaged jobsetId t = false) :
    (s.after cfg a b).enabled jobsetId = false ∧ ∀ t, (s.after cfg a b).engaged jobsetId t = false := by
  constructor
  · have hgoal : (s.after cfg a b).enabled jobsetId = (b.db.jobsets.get jobsetId).any fun j => j.enabled := rfl
    rw [hgoal]
    cases jobsetStep hs jobsetId with
    | same h => rwa [h]
    | configured row ha hid h =>
      subst ha
      rw [h, Option.any_some]
      simpa [Reenables, hid] using hno
    | restarted id e row hr he hj =>
      rcases restartOf_task hr with rfl | ⟨t, e', hp, hid, -⟩
      · simp [Reenables, he, hj] at hno
      · -- only a task that works on the jobset restarts its evaluations
        obtain ⟨e₁, j, he₁, hj₁, hej⟩ := hI.target t id (by rw [hp]; exact congrArg some hid)
        obtain rfl := Option.some.inj (he.symm.trans he₁)
        have hengaged : s.engaged jobsetId t = true := State.engaged_iff.mpr
          ⟨State.worksFor_iff.mpr ⟨j, hj₁, hej.symm.trans hj⟩, .inr (by rw [hp]; rfl)⟩
        rw [hnone t] at hengaged
        cases hengaged
  · intro t
    by_contra ht
    rcases engaged_of_base hf hs (by simpa using ht) with hold | ⟨-, ⟨j, hj, hact⟩, -⟩
    · rw [hnone t] at hold
      cases hold
    · have hen : j.enabled = true := (Bool.and_eq_true_iff.mp hact).2
      simp [State.enabled, hj, hen] at hoff

/-- After its mark the jobset is disabled, and its task done with it. -/
theorem rest_of_mark {ok : Bool} (hI : OneShotInv jobsetId s) (ha : RunsAlone jobsetId s (.mark t ok))
    (hs : step cfg s (.mark t ok) = some s') (hworks : s.worksFor jobsetId t = true) :
    s'.enabled jobsetId = false ∧ ∀ t', s'.engaged jobsetId t' = false := by
  obtain ⟨ht, j, hj, hc, hm, he, hp, hget⟩ := mark_of_step hs
  obtain ⟨row, hrow, hshot⟩ := hI.state
  obtain ⟨j', hj', hid⟩ := State.worksFor_iff.mp hworks
  obtain rfl := Option.some.inj (hj.symm.trans hj')
  constructor
  · have hkey : row.id = j.id := (Db.id_of_getJobset hrow).trans hid.symm
    rw [State.enabled, hget, hrow, Option.map_some, if_pos ⟨ha hworks, hkey, hshot⟩]
    rfl
  · intro t'
    by_contra hbusy
    obtain ⟨hw', hbusy⟩ := State.engaged_iff.mp (by simpa using hbusy)
    rw [State.worksFor, hc] at hw'
    rw [hm, hp t'] at hbusy
    have hold : s.engaged jobsetId t' = true :=
      State.engaged_iff.mpr ⟨hw', hbusy.imp_left List.mem_of_mem_filter⟩
    obtain rfl := hI.alone t' t hold (State.engaged_iff.mpr ⟨hworks, .inl ht⟩)
    rcases hbusy with hmem | hmay
    · simpa using (List.mem_filter.mp hmem).2
    · rw [hI.marks t' ht hworks] at hmay
      cases hmay

theorem left_of_step (hI : OneShotInv jobsetId s) (ha : RunsAlone jobsetId s a)
    (hno : Reenables jobsetId s a = false) (hs : step cfg s a = some s') (h : s.left jobsetId = 0) :
    s'.left jobsetId = 0 := by
  rw [State.left_eq_zero_iff] at h ⊢
  cases a with
  | base =>
    obtain ⟨hf, b, hb, rfl⟩ := base_of_step hs
    rcases h with hmarking | ⟨hoff, hnone⟩
    · -- the task that is about to make its mark does nothing else
      obtain ⟨t, ht, hw⟩ := State.marking_iff.mp hmarking
      refine .inl (State.marking_iff.mpr ⟨t, ?_⟩)
      cases turn hf hb t with
      | other hp hc hm => exact ⟨hm.mpr ht, (State.worksFor_after hc).trans hw⟩
      | moved event m hact hmove hp hc hfree => exact absurd ht hfree
      | delivered k requests hact hi hp hc hm | polled j' hact hj' hact' hi hp hc hm
      | drained id e j' hact he hej hj' hact' hi hp hc hm => subst hact; exact absurd ht hm
    · exact .inr (rest_of_base hI hno hf hb hoff hnone)
  | declare id input =>
    cases hs
    rcases h with hmarking | ⟨hoff, hnone⟩
    · exact .inl hmarking
    · refine .inr ⟨?_, hnone⟩
      obtain ⟨row, hrow, -⟩ := hI.state
      have hdisabled : row.enabled = false := by simpa [State.enabled, hrow] using hoff
      have hid : jobsetId ≠ id := by
        rintro rfl
        have henabled := (ha rfl).2 row hrow
        rw [hdisabled] at henabled
        cases henabled
      have hget : (s.base.db.configure (input.row id)).jobsets.get jobsetId = s.base.db.jobsets.get jobsetId :=
        (Table.get_upsert _ _ _).trans (if_neg hid)
      simpa [State.enabled, hget] using hoff
  | mark t =>
    by_cases hw : s.worksFor jobsetId t = true
    · exact .inr (rest_of_mark hI ha hs hw)
    · obtain ⟨ht, j, hj, hc, hm, he, hp, hget⟩ := mark_of_step hs
      have hworks : ∀ t', s'.worksFor jobsetId t' = s.worksFor jobsetId t' := fun t' => by rw [State.worksFor, hc]; rfl
      rcases h with hmarking | ⟨hoff, hnone⟩
      · obtain ⟨t', ht', hw'⟩ := State.marking_iff.mp hmarking
        have hne : t' ≠ t := by
          rintro rfl
          exact hw hw'
        exact .inl (State.marking_iff.mpr ⟨t', hm ▸ List.mem_filter.mpr ⟨ht', by simpa using hne⟩, hworks t' ▸ hw'⟩)
      · refine .inr ⟨?_, fun t' => ?_⟩
        · obtain ⟨row, hrow, -⟩ := hI.state
          have hkey : row.id = jobsetId := Db.id_of_getJobset hrow
          have hne : row.id ≠ j.id := fun h => hw (State.worksFor_iff.mpr ⟨j, hj, h.symm.trans hkey⟩)
          rw [State.enabled, hget, hrow, Option.map_some, if_neg fun h => hne h.2.1]
          simpa [State.enabled, hrow] using hoff
        · by_contra hbusy
          obtain ⟨hw', hbusy⟩ := State.engaged_iff.mp (by simpa using hbusy)
          rw [hworks] at hw'
          rw [hm, hp t'] at hbusy
          have hold := State.engaged_iff.mpr ⟨hw', hbusy.imp_left List.mem_of_mem_filter⟩
          rw [hnone t'] at hold
          cases hold

end Step

/-- **One-shot jobsets.** In every run in which the jobset is worked on by one
task at a time, for one ref, with its mark, and not declared while disabled, at
most one evaluation of it is completed between two operator actions that enable
it. -/
theorem one_shot_runs_once {cfg : Config} {jobsetId : Uuid} {b₀ : Evaluator.State} {row : JobsetRow} {s s' : State}
    {before between : List Action} (h₀ : b₀.Idle) (hrow : b₀.db.jobsets.get jobsetId = some row)
    (hshot : row.state = .oneShot) (hrun : Along cfg (RunsAlone jobsetId) { base := b₀ } (before ++ between))
    (hbefore : exec cfg { base := b₀ } before = some s) (hbetween : exec cfg s between = some s')
    (hno : Along cfg (fun s a => Reenables jobsetId s a = false) s between) :
    Lts.count (step cfg) (Completes cfg jobsetId) s between ≤ 1 := by
  obtain ⟨hrun₁, hrun₂⟩ := hrun.append
  have hI : OneShotInv jobsetId s := Lts.exec_inv (fun _ _ _ hI ha hs => hI.step ha hs)
    (oneShotInv_init h₀ ⟨row, hrow, hshot⟩) hrun₁ hbefore
  have hstep : ∀ s a s', OneShotInv jobsetId s → RunsAlone jobsetId s a ∧ Reenables jobsetId s a = false →
      step cfg s a = some s' → OneShotInv jobsetId s' ∧
        s'.left jobsetId + (if Completes cfg jobsetId s a then 1 else 0) ≤ s.left jobsetId := by
    intro s a s' hI ha hs
    refine ⟨hI.step ha.1 hs, ?_⟩
    by_cases hc : Completes cfg jobsetId s a = true
    · obtain ⟨h1, h0⟩ := left_of_completes hI hs hc
      rw [if_pos hc, h1, h0]
    · rw [if_neg hc, Nat.add_zero]
      rcases Nat.eq_zero_or_pos (s.left jobsetId) with h | h
      · rw [left_of_step hI ha.1 ha.2 hs h]
        exact Nat.zero_le _
      · exact (s'.left_le_one jobsetId).trans h
  calc Lts.count (step cfg) (Completes cfg jobsetId) s between ≤ s.left jobsetId :=
        Lts.count_le (fun s => s.left jobsetId) hstep hI ((hrun₂ s hbefore).and hno) hbetween
    _ ≤ 1 := s.left_le_one jobsetId

def oneShot : JobsetRow := { mainJobset with state := .oneShot, onlyBuildLatest := false }

def ofBase (as : List Evaluator.Action) : List Action := as.map .base

/-- Nix returns, and the results are recorded. -/
def recorded (t : ℕ) : List Evaluator.Action := .task t (.evaluated [] none) :: nexts t 2

/-- A poll evaluates the tip of `main`, and makes its mark. -/
def polled (t : ℕ) (ok : Bool) : List Action :=
  List.flatten [ofBase (List.flatten [[.poll t 0], nexts t 5, recorded t]), [.mark t ok]]

theorem one_shot_runs_once_polled : ∃ s ∈ exec small { base := withJobset oneShot }
    [.base (.gitPush 0 "main" (some "a"))], (exec small s (polled 1 true)).isSome = true ∧
      Lts.count (step small) (Completes small 0) s (polled 1 true) ≤ 1 := by
  obtain ⟨s, h, hno, hsome⟩ : ∃ s ∈ exec small { base := withJobset oneShot } [.base (.gitPush 0 "main" (some "a"))],
      Along small (fun s a => Reenables 0 s a = false) s (polled 1 true) ∧
      (exec small s (polled 1 true)).isSome = true := by
    decide
  have hrun : Along small (RunsAlone 0) { base := withJobset oneShot }
      ([.base (.gitPush 0 "main" (some "a"))] ++ polled 1 true) := by
    decide
  obtain ⟨s', h'⟩ := Option.isSome_iff_exists.mp hsome
  exact ⟨s, h, hsome, one_shot_runs_once (idle_withJobset _) rfl rfl hrun h h' hno⟩

/-- A ref of a poll is evaluated, and makes its mark. -/
def nextRef : List Action := List.flatten [ofBase (List.flatten [nexts 1 4, recorded 1]), [.mark 1 true]]

/-- Two pushes are handled, and then evaluated at the same time. -/
def concurrent : List Action :=
  List.flatten [ofBase (List.flatten [[.gitPush 0 "main" (some "a"), .deliver 1 0], nexts 1 2,
    [.gitPush 0 "main" (some "b"), .deliver 1 1], nexts 1 2, [.drain 1 1, .drain 2 2], nexts 1 3, nexts 2 3,
    recorded 1, recorded 2]), [.mark 1 true, .mark 2 true]]

def declared : CreateJobset :=
  { projectId := 0, name := "jobset", nixExpression := "hydraJobs", state := some .oneShot, branch := some "main" }

/-- Two evaluations are completed, and no operator enables the jobset. -/
def Twice (s : State) (as : List Action) : Prop :=
  (exec small s as).isSome = true ∧ Along small (fun s a => Reenables 0 s a = false) s as ∧
    Lts.count (step small) (Completes small 0) s as = 2

instance (s : State) (as : List Action) : Decidable (Twice s as) := inferInstanceAs (Decidable (_ ∧ _ ∧ _))

/-- In one poll with two refs, in two tasks at the same time, after a bootstrap
and after a mark that has failed. -/
theorem one_shot_runs_twice :
    Twice { base := withJobset { oneShot with branchPattern := some "*" } } (List.flatten
      [ofBase (List.flatten [[.gitPush 0 "main" (some "a"), .gitPush 0 "dev" (some "b"), .poll 1 0], nexts 1 2]),
        nextRef, nextRef]) ∧
    Twice { base := withJobset oneShot } concurrent ∧
    Twice { base := withJobset oneShot } (List.flatten [[.base (.gitPush 0 "main" (some "a"))], polled 1 true,
      [.declare 0 declared, .base (.gitPush 0 "main" (some "b"))], polled 1 true]) ∧
    Twice { base := withJobset oneShot } (List.flatten [[.base (.gitPush 0 "main" (some "a"))], polled 1 false,
      [.base (.gitPush 0 "main" (some "b"))], polled 1 true]) := by
  decide

end OneShot

end Circus.Evaluator
