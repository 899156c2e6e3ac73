/-
# The order of a stream

`create_automated` moves the stored head of a stream to the commit of the new
evaluation and supersedes the older evaluations of the stream. Nothing else
moves the head, so a stream keeps the order in which its head moves: for any
transitive relation in which every accepted request is newer than the head it
replaces, no evaluation of the stream is newer than the head, and each is
superseded by newer ones only (`StreamInv`).
-/
import Circus.Evaluator.LatestOnly
import Circus.Evaluator.Tasks

namespace Circus.Evaluator

section Rows

variable {cfg : Config} {s : State} {a : Action} {db : Db} {jobsetId : Uuid} {scope : String}

variable {k : Uuid}

/-- No evaluation goes, and none changes its identity. -/
theorem identity_of_effect (h : Effect cfg s a db) {e : EvaluationRow}
    (he : s.db.evaluations.get k = some e) : ∃ e', db.evaluations.get k = some e' ∧ e'.identity = e.identity := by
  have hrow := row_of_effect h k
  generalize db.evaluations.get k = o at hrow
  cases hrow with
  | same => exact ⟨e, he, rfl⟩
  | created r base hr hc hid =>
    rw [hid, Db.get_nextId] at he
    cases he
  | superseded r new e₀ hr hc he₀ =>
    obtain rfl := Option.some.inj (he.symm.trans he₀)
    exact ⟨_, rfl, rfl⟩
  | statement q e₀ hq he₀ =>
    obtain rfl := Option.some.inj (he.symm.trans he₀)
    exact ⟨_, rfl, Statement.identity_set _ _ _⟩
  | restarted e₀ hr he₀ =>
    obtain rfl := Option.some.inj (he.symm.trans he₀)
    exact ⟨_, rfl, EvaluationRow.identity_restartRequeue _ _⟩
  | recorded jobs e₀ hc he₀ =>
    obtain rfl := Option.some.inj (he.symm.trans he₀)
    exact ⟨_, rfl, rfl⟩

/-- The copies tasks work with are of rows of the table, which keep their identity. -/
def CopiesOfRows (s : State) : Prop :=
  ∀ t e, (s.phase t).copy = some e → ∃ row, s.db.evaluations.get e.id = some row ∧ row.identity = e.identity

theorem CopiesOfRows.step {s' : State} (hI : CopiesOfRows s) (h : step cfg s a = some s') : CopiesOfRows s' := by
  intro t e hc
  have hold : (s.phase t).copy = some e →
      ∃ row, s'.db.evaluations.get e.id = some row ∧ row.identity = e.identity := fun hc => by
    obtain ⟨row, hrow, hid⟩ := hI t e hc
    obtain ⟨row', hrow', hid'⟩ := identity_of_effect (step_effect h) hrow
    exact ⟨row', hrow', hid'.trans hid⟩
  rcases held_of_step (P := (·.copy = some e)) (fun _ hb h => by cases hb <;> cases h) h hc with
    ⟨hc, -⟩ | ⟨event, m, -, hm, hp⟩
  · exact hold hc
  · rcases copy_of_performed hm hp hc with hc | ⟨r, hr⟩ | ⟨q, next, rfl, hret, -⟩
    · exact hold hc
    · have hcreated := Request.created hr
      obtain ⟨base, rfl⟩ := hcreated.row
      exact ⟨_, (hcreated.get _).trans (if_pos rfl), rfl⟩
    · cases hp
      exact ⟨e, Statement.get_of_returning hret, rfl⟩

/-- An evaluation is what it was created as. -/
theorem identity_before (h : Effect cfg s a db) {e' : EvaluationRow}
    (he' : db.evaluations.get k = some e') :
    (∃ e, s.db.evaluations.get k = some e ∧ e'.identity = e.identity) ∨
    ∃ r base, requestOf cfg s a = some r ∧ k = s.db.nextId ∧
      e' = .create s.db.nextId s.now r.input r.kind r.status r.scope base := by
  have hrow := row_of_effect h k
  rw [he'] at hrow
  generalize ho : some e' = o at hrow
  cases hrow with
  | same => exact .inl ⟨e', ho.symm, rfl⟩
  | created r base hr hc hid => exact .inr ⟨r, base, hr, hid, Option.some.inj ho⟩
  | superseded r new e hr hc he =>
    cases ho
    exact .inl ⟨e, he, rfl⟩
  | statement q e hq he =>
    cases ho
    exact .inl ⟨e, he, Statement.identity_set _ _ _⟩
  | restarted e hr he =>
    cases ho
    exact .inl ⟨e, he, EvaluationRow.identity_restartRequeue _ _⟩
  | recorded jobs e hc he =>
    cases ho
    exact .inl ⟨e, he, rfl⟩

variable {commit : String}

theorem sourceTaken_iff {db : Db} : db.sourceTaken jobsetId commit = true ↔
    ∃ k e, db.evaluations.get k = some e ∧ e.triggerKind ≠ .interval ∧ e.jobsetId = jobsetId ∧
      e.commitHash = commit := by
  rw [Db.sourceTaken, List.any_eq_true]
  constructor
  · rintro ⟨e, hm, h⟩
    exact ⟨e.id, e, Db.get_of_mem hm, of_decide_eq_true h⟩
  · rintro ⟨k, e, he, h⟩
    exact ⟨e, Table.mem_of_get he, decide_eq_true h⟩

/-- A creation adds its own commit. -/
theorem sourceTaken_created {now : Time} {r : Request} {db db' : Db} {e : EvaluationRow}
    (hc : r.Created now db e db') (jobsetId : Uuid) (commit : String) :
    db'.sourceTaken jobsetId commit = true ↔ db.sourceTaken jobsetId commit = true ∨
      r.kind ≠ .interval ∧ r.input.jobsetId = jobsetId ∧ r.input.commitHash = commit := by
  obtain ⟨base, rfl⟩ := hc.row
  rw [sourceTaken_iff, sourceTaken_iff]
  constructor
  · rintro ⟨k, e', he', hi, hj, hcommit⟩
    rw [hc.get] at he'
    split_ifs at he' with hid
    · cases he'
      exact .inr ⟨hi, hj, hcommit⟩
    · obtain ⟨e₀, he₀, rfl⟩ := Option.map_eq_some_iff.mp he'
      refine .inl ⟨k, e₀, he₀, ?_⟩
      split_ifs at hi hj hcommit <;> exact ⟨hi, hj, hcommit⟩
  · rintro (⟨k, e₀, he₀, hi, hj, hcommit⟩ | ⟨hi, hj, hcommit⟩)
    · have hne : k ≠ db.nextId := fun h => by
        rw [h, Db.get_nextId] at he₀
        cases he₀
      refine ⟨k, _, by rw [hc.get, if_neg hne, he₀]; rfl, ?_⟩
      dsimp only
      split_ifs <;> exact ⟨hi, hj, hcommit⟩
    · exact ⟨db.nextId, _, by rw [hc.get, if_pos rfl], hi, hj, hcommit⟩

/-- What a commit has been evaluated for stays. -/
theorem sourceTaken_effect (h : Effect cfg s a db) (ht : s.db.sourceTaken jobsetId commit = true) :
    db.sourceTaken jobsetId commit = true := by
  obtain ⟨k, e, he, hi, rfl, rfl⟩ := sourceTaken_iff.mp ht
  obtain ⟨e', he', hid⟩ := identity_of_effect h he
  refine sourceTaken_iff.mpr ⟨k, e', he', ?_, EvaluationRow.jobsetId_of_identity hid,
    EvaluationRow.commitHash_of_identity hid⟩
  rwa [Ne, EvaluationRow.interval_of_identity hid]

/-- The action creates an evaluation of `commit` in the stream, and leaves `db`. -/
def CreatesIn (cfg : Config) (s : State) (a : Action) (db : Db) (jobsetId : Uuid) (scope commit : String) : Prop :=
  ∃ r e, requestOf cfg s a = some r ∧ r.Created s.now s.db e db ∧ r.input.jobsetId = jobsetId ∧
    r.scope = some scope ∧ r.input.commitHash = commit

theorem CreatesIn.head (h : CreatesIn cfg s a db jobsetId scope commit) :
    db.head jobsetId scope = some commit := by
  obtain ⟨r, e, -, hc, hj, hs, rfl⟩ := h
  rw [hc.head, if_pos ⟨hj.symm, hs⟩]

theorem CreatesIn.get (h : CreatesIn cfg s a db jobsetId scope commit) :
    ∃ e, db.evaluations.get s.db.nextId = some e ∧ e.jobsetId = jobsetId ∧ e.commitHash = commit := by
  obtain ⟨r, e, -, hc, rfl, hs, rfl⟩ := h
  obtain ⟨base, rfl⟩ := hc.row
  exact ⟨_, by rw [hc.get, if_pos rfl], rfl, rfl⟩

/-- Only a creation moves a head. -/
theorem head_of_effect (h : Effect cfg s a db) (jobsetId : Uuid) (scope : String) :
    db.head jobsetId scope = s.db.head jobsetId scope ∨
    ∃ commit, CreatesIn cfg s a db jobsetId scope commit := by
  cases h with
  | create r e db hr hc =>
    rw [hc.head]
    split_ifs with hs
    · exact .inr ⟨_, r, e, hr, hc, hs.1.symm, hs.2, rfl⟩
    · exact .inl rfl
  | restart id db hr hre => exact .inl (by rw [Db.head, hre.sourceHeads]; rfl)
  | record => exact .inl (by rw [Db.head, Db.sourceHeads_record]; rfl)
  | _ => exact .inl rfl

/-- The evaluations of a stream: a new one, or an old one, perhaps superseded. -/
theorem inScope_of_effect (h : Effect cfg s a db) {e' : EvaluationRow}
    (he' : db.evaluations.get k = some e') (hs : e'.InScope jobsetId scope) :
    (k = s.db.nextId ∧ e'.supersededBy = none ∧ CreatesIn cfg s a db jobsetId scope e'.commitHash) ∨
    ∃ e, s.db.evaluations.get k = some e ∧ e.InScope jobsetId scope ∧ e'.commitHash = e.commitHash ∧
      (e'.supersededBy = e.supersededBy ∨
        e'.supersededBy = some s.db.nextId ∧ ∃ commit, CreatesIn cfg s a db jobsetId scope commit) := by
  have hrow := row_of_effect h k
  rw [he'] at hrow
  generalize ho : some e' = o at hrow
  cases hrow with
  | same => exact .inr ⟨e', ho.symm, hs, rfl, .inl rfl⟩
  | created r base hr hc hid =>
    cases ho
    exact .inl ⟨hid, rfl, r, _, hr, hc, hs.1, hs.2.2, rfl⟩
  | superseded r new e hr hc he hsup =>
    cases ho
    obtain ⟨sc, hsc, hsup⟩ := (Option.any_eq_true _ _).mp hsup
    have hin := (of_decide_eq_true (Bool.and_eq_true_iff.mp (Bool.and_eq_true_iff.mp hsup).2).1).1
    refine .inr ⟨e, he, hs, rfl, .inr ⟨rfl, _, r, new, hr, hc, hin.1.symm.trans hs.1, ?_, rfl⟩⟩
    rw [hsc, ← hin.2.2]
    exact hs.2.2
  | statement q e hq he =>
    cases ho
    have hin : e.InScope jobsetId scope := by cases q <;> exact hs
    refine .inr ⟨e, he, hin, ?_, .inl ?_⟩
    · cases q <;> rfl
    · cases q <;> rfl
  | restarted e =>
    cases ho
    exact absurd hs (EvaluationRow.not_inScope_restartRequeue s.now e)
  | recorded jobs e hc he =>
    cases ho
    exact .inr ⟨e, he, hs, rfl, .inl rfl⟩

end Rows

/-! ### Order -/

/-- The stream is in the order of `older`. -/
structure StreamInv (older : String → String → Prop) (jobsetId : Uuid) (scope : String) (db : Db) : Prop where
  below : ∀ k e, db.evaluations.get k = some e → e.InScope jobsetId scope →
    ∃ h, db.head jobsetId scope = some h ∧ (e.commitHash = h ∨ older e.commitHash h)
  ascending : ∀ k e, db.evaluations.get k = some e → e.InScope jobsetId scope → ∀ i, e.supersededBy = some i →
    ∃ e', db.evaluations.get i = some e' ∧ e'.jobsetId = jobsetId ∧ older e.commitHash e'.commitHash

/-- The head is older than what enters the stream. -/
def Advances (older : String → String → Prop) (jobsetId : Uuid) (scope : String) (cfg : Config) (s : State)
    (a : Action) : Prop :=
  ∀ db commit, CreatesIn cfg s a db jobsetId scope commit → ∀ h, s.db.head jobsetId scope = some h → older h commit

namespace StreamInv

variable {older : String → String → Prop} {jobsetId : Uuid} {scope : String} {cfg : Config} {s : State} {a : Action}
  {db : Db}

/-- A stream without evaluations. -/
theorem of_none (h : ∀ k e, db.evaluations.get k = some e → e.jobsetId ≠ jobsetId) :
    StreamInv older jobsetId scope db where
  below k e he hs := absurd hs.1 (h k e he)
  ascending k e he hs := absurd hs.1 (h k e he)

theorem mono {older' : String → String → Prop} (hle : ∀ x y, older x y → older' x y)
    (hI : StreamInv older jobsetId scope db) : StreamInv older' jobsetId scope db where
  below k e he hs := by
    obtain ⟨h, hh, heq | hlt⟩ := hI.below k e he hs
    · exact ⟨h, hh, .inl heq⟩
    · exact ⟨h, hh, .inr (hle _ _ hlt)⟩
  ascending k e he hs i hi := by
    obtain ⟨e', he', hj, hlt⟩ := hI.ascending k e he hs i hi
    exact ⟨e', he', hj, hle _ _ hlt⟩

/-- The head goes on to newer commits. -/
theorem head_le (hr : Advances older jobsetId scope cfg s a) (h : Effect cfg s a db) {c : String}
    (hc : s.db.head jobsetId scope = some c) : ∃ c', db.head jobsetId scope = some c' ∧ (c = c' ∨ older c c') := by
  rcases head_of_effect h jobsetId scope with hh | ⟨c', hin⟩
  · exact ⟨c, hh.trans hc, .inl rfl⟩
  · exact ⟨c', hin.head, .inr (hr db c' hin c hc)⟩

theorem effect [IsTrans String older] (hI : StreamInv older jobsetId scope s.db)
    (hr : Advances older jobsetId scope cfg s a) (h : Effect cfg s a db) : StreamInv older jobsetId scope db where
  below k e' he' hs := by
    rcases inScope_of_effect h he' hs with ⟨-, -, hin⟩ | ⟨e, he, hsc, hcommit, -⟩
    · exact ⟨_, hin.head, .inl rfl⟩
    · obtain ⟨c, hc, hle⟩ := hI.below k e he hsc
      obtain ⟨c', hc', hle'⟩ := head_le hr h hc
      refine ⟨c', hc', hcommit ▸ ?_⟩
      rcases hle with rfl | hlt <;> rcases hle' with rfl | hlt'
      · exact .inl rfl
      · exact .inr hlt'
      · exact .inr hlt
      · exact .inr (IsTrans.trans _ _ _ hlt hlt')
  ascending k e' he' hs i hi := by
    rcases inScope_of_effect h he' hs with ⟨-, hnone, -⟩ | ⟨e, he, hsc, hcommit, hsame | ⟨hnew, c, hin⟩⟩
    · rw [hnone] at hi
      cases hi
    · obtain ⟨e₂, he₂, hj, hlt⟩ := hI.ascending k e he hsc i (hsame ▸ hi)
      obtain ⟨e₂', he₂', hid⟩ := identity_of_effect h he₂
      exact ⟨e₂', he₂', (EvaluationRow.jobsetId_of_identity hid).trans hj,
        by rwa [hcommit, EvaluationRow.commitHash_of_identity hid]⟩
    · obtain rfl := Option.some.inj (hnew.symm.trans hi)
      obtain ⟨e₂, he₂, hj, rfl⟩ := hin.get
      obtain ⟨c, hc, hle⟩ := hI.below k e he hsc
      refine ⟨e₂, he₂, hj, hcommit ▸ ?_⟩
      have hlt := hr db _ hin c hc
      rcases hle with rfl | hlt'
      · exact hlt
      · exact IsTrans.trans _ _ _ hlt' hlt

end StreamInv

end Circus.Evaluator
