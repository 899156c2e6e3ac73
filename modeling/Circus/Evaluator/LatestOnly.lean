/-
# Latest-only exclusivity

A jobset with `only_build_latest` is meant to have at most one pending or
running evaluation per stream: `create_automated` cancels the others in the
transaction that adds a new one, and a restart takes an evaluation out of its
stream. `latest_only_exclusive` follows this through every run.

One path does not supersede: `claim_existing` sets a completed evaluation
without builds back to `running`, whatever has entered the stream since. The
theorem asks for that statement to meet no other active evaluation of the
stream; `rerun_beside_newer` is the run in which it does.
-/
import Circus.Evaluator.Effects

namespace Circus.Evaluator

/-- Evaluation `k` is an active one of the stream. -/
def Db.Live (jobsetId : Uuid) (scope : String) (db : Db) (k : Uuid) : Prop :=
  ∃ e, db.evaluations.get k = some e ∧ e.InScope jobsetId scope ∧ e.status.isActive = true

instance (jobsetId : Uuid) (scope : String) (db : Db) (k : Uuid) : Decidable (db.Live jobsetId scope k) :=
  inferInstanceAs (Decidable (∃ e ∈ db.evaluations.get k, _))

/-- The stream has at most one active evaluation. -/
def Db.Exclusive (jobsetId : Uuid) (scope : String) (db : Db) : Prop :=
  ∀ k k', db.Live jobsetId scope k → db.Live jobsetId scope k' → k = k'

/-- The jobset's latest-only flag stays set. -/
def KeepsLatest (jobsetId : Uuid) : Action → Prop
  | .configure jobset => jobset.id = jobsetId → jobset.onlyBuildLatest = true
  | _ => True

instance (jobsetId : Uuid) : DecidablePred (KeepsLatest jobsetId) := fun a => by
  unfold KeepsLatest
  split <;> infer_instance

/-- A completed evaluation of the stream is run again only while no other of
the stream is active. -/
def RerunsAlone (cfg : Config) (jobsetId : Uuid) (scope : String) (s : State) (a : Action) : Prop :=
  ∀ id ∈ rerunOf cfg s a, ∀ e ∈ s.db.evaluations.rows, e.id = id → e.InScope jobsetId scope →
    ∀ e' ∈ s.db.evaluations.rows, e'.InScope jobsetId scope → e'.status.isActive = true → e'.id = id

instance (cfg : Config) (jobsetId : Uuid) (scope : String) (s : State) (a : Action) :
    Decidable (RerunsAlone cfg jobsetId scope s a) := by
  unfold RerunsAlone
  infer_instance

variable {cfg : Config} {jobsetId : Uuid} {scope : String} {s s' : State} {a : Action}

theorem onlyBuildLatest_effect {db : Db} (hk : KeepsLatest jobsetId a) (hl : s.db.onlyBuildLatest jobsetId = true)
    (h : Effect cfg s a db) : db.onlyBuildLatest jobsetId = true := by
  cases h with
  | none | statement => exact hl
  | create r e db hr hc =>
    rw [Db.onlyBuildLatest, hc.jobsets]
    exact hl
  | restart id db hr hre => exact (hre.onlyBuildLatest jobsetId).trans hl
  | record =>
    rw [Db.onlyBuildLatest, Db.jobsets_record]
    exact hl
  | configure jobset ha =>
    subst ha
    rw [Db.onlyBuildLatest, Db.configure, Table.get_upsert]
    split_ifs with h
    · exact hk h.symm
    · exact hl
  | report => exact hl

theorem EvaluationRow.inScope_apply {now : Time} {q : Statement} {e : EvaluationRow} :
    (q.apply now e).InScope jobsetId scope ↔ e.InScope jobsetId scope := by
  unfold Statement.apply
  split_ifs
  · cases q <;> rfl
  · rfl

theorem EvaluationRow.not_inScope_restartRequeue (now : Time) (e : EvaluationRow) :
    ¬ (e.restartRequeue now).InScope jobsetId scope := fun h => by
  have := h.2.2
  simp [EvaluationRow.restartRequeue] at this

/-- Recording results makes no evaluation active. -/
theorem active_of_record {now : Time} {id k : Uuid} {jobs : List NixJob} {db : Db}
    (h : (db.record now id jobs).Live jobsetId scope k) : db.Live jobsetId scope k := by
  obtain ⟨e, he, hsc, hact⟩ := h
  rw [Db.get_record] at he
  obtain ⟨e₀, he₀, rfl⟩ := Option.map_eq_some_iff.mp he
  refine ⟨e₀, he₀, EvaluationRow.inScope_apply.mp hsc, ?_⟩
  unfold Statement.apply at hact
  split_ifs at hact
  · cases hact
  · exact hact

section Create

variable {now : Time} {r : Request} {db db' : Db} {e : EvaluationRow} {k : Uuid}

/-- A creation makes no old evaluation active. -/
theorem live_of_created (hc : r.Created now db e db') (hk : k ≠ db.nextId) (h : db'.Live jobsetId scope k) :
    ∃ e₀, db.evaluations.get k = some e₀ ∧ e₀.InScope jobsetId scope ∧ e₀.status.isActive = true ∧
      r.supersedes db e₀ = false := by
  obtain ⟨e₁, he₁, hsc, hact⟩ := h
  rw [hc.get, if_neg hk] at he₁
  obtain ⟨e₀, he₀, rfl⟩ := Option.map_eq_some_iff.mp he₁
  split_ifs at hsc hact with hs
  · -- superseded: active before means cancelled after
    simp only [EvaluationRow.supersede] at hact
    split_ifs at hact with h
    · cases hact
    · exact absurd hact h
  · exact ⟨e₀, he₀, hsc, hact, by simpa using hs⟩

/-- A creation in the stream leaves only its own evaluation active. -/
theorem eq_of_created (hl : db.onlyBuildLatest jobsetId = true) (hc : r.Created now db e db')
    (hj : r.input.jobsetId = jobsetId) (hs : r.scope = some scope) (h : db'.Live jobsetId scope k) :
    k = db.nextId := by
  by_contra hk
  obtain ⟨e₀, he₀, hsc, hact, hns⟩ := live_of_created hc hk h
  have hid : e₀.id ≠ db.nextId := Db.id_of_get he₀ ▸ hk
  simp [Request.supersedes, hs, hj, hl, Db.superseded, hsc, hid, hact] at hns

/-- A creation elsewhere leaves the stream as it is. -/
theorem live_of_created_elsewhere (hc : r.Created now db e db')
    (hs : ¬ (r.input.jobsetId = jobsetId ∧ r.scope = some scope)) (h : db'.Live jobsetId scope k) :
    db.Live jobsetId scope k := by
  by_cases hk : k = db.nextId
  · obtain ⟨e₁, he₁, hsc, -⟩ := h
    rw [hc.get, if_pos hk] at he₁
    cases he₁
    obtain ⟨base, hrow⟩ := hc.row
    rw [hrow] at hsc
    exact absurd ⟨hsc.1, hsc.2.2⟩ hs
  · obtain ⟨e₀, he₀, hsc, hact, -⟩ := live_of_created hc hk h
    exact ⟨e₀, he₀, hsc, hact⟩

end Create

theorem exclusive_effect {db : Db} (hl : s.db.onlyBuildLatest jobsetId = true)
    (hx : s.db.Exclusive jobsetId scope) (hr : RerunsAlone cfg jobsetId scope s a) (h : Effect cfg s a db) :
    db.Exclusive jobsetId scope := by
  cases h with
  | none => exact hx
  | statement q hq =>
    -- what is active after the statement was so before it, or is run again by it
    have hbefore : ∀ {k}, (q.run s.now s.db).Live jobsetId scope k →
        ∃ e, s.db.evaluations.get k = some e ∧ e.InScope jobsetId scope ∧
          (e.status.isActive = true ∨ rerunOf cfg s a = some k) := by
      rintro k ⟨e, he, hsc, hact⟩
      rw [Statement.get_run] at he
      obtain ⟨e₀, he₀, rfl⟩ := Option.map_eq_some_iff.mp he
      refine ⟨e₀, he₀, EvaluationRow.inScope_apply.mp hsc, ?_⟩
      rw [← Db.id_of_get he₀]
      exact active_of_apply hq hact
    have halone : ∀ {k k' e e'}, s.db.evaluations.get k = some e → e.InScope jobsetId scope →
        rerunOf cfg s a = some k → s.db.evaluations.get k' = some e' → e'.InScope jobsetId scope →
        e'.status.isActive = true → k' = k := by
      intro k k' e e' he hsc hk he' hsc' hact'
      have := hr k hk e (Table.mem_of_get he) (Db.id_of_get he) hsc e' (Table.mem_of_get he') hsc' hact'
      rwa [Db.id_of_get he'] at this
    intro k k' hk hk'
    obtain ⟨e, he, hsc, hact⟩ := hbefore hk
    obtain ⟨e', he', hsc', hact'⟩ := hbefore hk'
    rcases hact with hact | hrun <;> rcases hact' with hact' | hrun'
    · exact hx k k' ⟨e, he, hsc, hact⟩ ⟨e', he', hsc', hact'⟩
    · exact halone he' hsc' hrun' he hsc hact
    · exact (halone he hsc hrun he' hsc' hact').symm
    · exact Option.some.inj (hrun.symm.trans hrun')
  | create r e db hreq hc =>
    intro k k' hk hk'
    by_cases hs : r.input.jobsetId = jobsetId ∧ r.scope = some scope
    · rw [eq_of_created hl hc hs.1 hs.2 hk, eq_of_created hl hc hs.1 hs.2 hk']
    · exact hx k k' (live_of_created_elsewhere hc hs hk) (live_of_created_elsewhere hc hs hk')
  | restart id db hre hres =>
    have hbefore : ∀ {k}, db.Live jobsetId scope k → s.db.Live jobsetId scope k := by
      rintro k ⟨e, he, hsc, hact⟩
      rw [hres.get] at he
      split_ifs at he
      · obtain ⟨e₀, -, rfl⟩ := Option.map_eq_some_iff.mp he
        exact absurd hsc (EvaluationRow.not_inScope_restartRequeue s.now e₀)
      · exact ⟨e, he, hsc, hact⟩
    exact fun k k' hk hk' => hx k k' (hbefore hk) (hbefore hk')
  | record => exact fun k k' hk hk' => hx k k' (active_of_record hk) (active_of_record hk')
  | configure | report => exact hx

/-- **Latest-only exclusivity.** While the jobset's latest-only flag is set, and
a completed evaluation of the stream is run again only when no other of the
stream is active, no run of webhooks, polls, claims, result transactions,
cancellations and sweeps reaches a state with two active evaluations of one
stream. -/
theorem latest_only_exclusive {as : List Action} (hl : s.db.onlyBuildLatest jobsetId = true)
    (hx : s.db.Exclusive jobsetId scope)
    (hrun : Along cfg (fun s a => KeepsLatest jobsetId a ∧ RerunsAlone cfg jobsetId scope s a) s as)
    (h : exec cfg s as = some s') : s'.db.Exclusive jobsetId scope := by
  have hstep : ∀ s a s', s.db.onlyBuildLatest jobsetId = true ∧ s.db.Exclusive jobsetId scope →
      KeepsLatest jobsetId a ∧ RerunsAlone cfg jobsetId scope s a → step cfg s a = some s' →
      s'.db.onlyBuildLatest jobsetId = true ∧ s'.db.Exclusive jobsetId scope := by
    rintro s a s' ⟨hl, hx⟩ ⟨hk, hr⟩ hs
    exact ⟨onlyBuildLatest_effect hk hl (step_effect hs), exclusive_effect hl hx hr (step_effect hs)⟩
  exact (Lts.exec_inv hstep ⟨hl, hx⟩ hrun h).2

/-- Two polls have read the tip `a`; the first has evaluated it, to no builds,
and the second has found that, and is about to run it again. -/
def aboutToRerun : List Action :=
  [.gitPush 0 "main" (some "a"), .poll 1 0, .poll 2 0] ++ nexts 1 3 ++ nexts 2 3 ++ nexts 1 2 ++
    [.task 1 .skip] ++ nexts 2 3

/-- The poll runs `a` again, and then `b` is pushed. -/
def rerunBefore : List Action := aboutToRerun ++ nexts 2 1 ++ [.gitPush 0 "main" (some "b"), .deliver 3 1] ++ nexts 3 1

theorem latest_only_exclusive_rerunBefore : ∃ s ∈ exec small (withJobset mainJobset) rerunBefore,
    s.db.Live 0 "branch:main" 2 ∧ s.db.Exclusive 0 "branch:main" := by
  obtain ⟨s, hs, hl⟩ : ∃ s ∈ exec small (withJobset mainJobset) rerunBefore, s.db.Live 0 "branch:main" 2 := by decide
  exact ⟨s, hs, hl, latest_only_exclusive (by decide) (fun _ _ ⟨_, he, _⟩ => by cases he) (by decide) hs⟩

/-- `b` is pushed first: then `a`, run again, is active beside it. -/
theorem rerun_beside_newer : (withJobset mainJobset).db.onlyBuildLatest 0 = true ∧
    ∃ s ∈ exec small (withJobset mainJobset)
      (aboutToRerun ++ [.gitPush 0 "main" (some "b"), .deliver 3 1] ++ nexts 3 1 ++ nexts 2 1),
      s.db.Live 0 "branch:main" 1 ∧ s.db.Live 0 "branch:main" 2 := by
  decide

end Circus.Evaluator
