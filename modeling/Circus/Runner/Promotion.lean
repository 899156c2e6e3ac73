/-
# Promotion of channels

A task whose build succeeded counts the builds of its evaluation and, if all
have succeeded, points every channel of the jobset to the evaluation, one
`promote` a channel (`auto_promote_if_complete`). Nothing compares the
evaluation with the one a channel points to: `older_promoted_last` has two
evaluations complete in the other order and the channel end at the older.

From the count to its last `promote` a task is in a pass. `never_backwards`:
a channel never goes to an earlier evaluation, in every run in which a pass
begins only for an evaluation no channel of the jobset is past, and not
beside a pass for an evaluation of another time (`PromotesInOrder`).
-/
import Circus.Runner.Tasks

namespace Circus

/-! ### Evaluations and channels -/

namespace Db

/-- Evaluation `e` has builds, and they have all succeeded. -/
def FullySucceeded (db : Db) (e : Uuid) : Prop :=
  (∃ b ∈ db.builds.rows, b.evaluationId = e) ∧ ∀ b ∈ db.builds.rows, b.evaluationId = e → b.status = .succeeded

instance (db : Db) (e : Uuid) : Decidable (db.FullySucceeded e) :=
  inferInstanceAs (Decidable (_ ∧ _))

def evaluationTime (db : Db) (e : Uuid) : Time := (db.evaluations.get e).elim 0 (·.evaluationTime)

def evaluationJobset (db : Db) (e : Uuid) : Option Uuid := (db.evaluations.get e).map (·.jobsetId)

def channelJobset (db : Db) (c : Uuid) : Option Uuid := (db.channels.get c).map (·.jobsetId)

/-- The evaluation channel `c` points to. -/
def current (db : Db) (c : Uuid) : Option Uuid := (db.channels.get c).bind (·.currentEvaluationId)

/-- No channel of the jobset points to a later evaluation than `e`. -/
def NotPast (db : Db) (jobsetId e : Uuid) : Prop :=
  ∀ c ∈ db.channels.rows, c.jobsetId = jobsetId →
    ∀ e₁ ∈ c.currentEvaluationId, db.evaluationTime e₁ ≤ db.evaluationTime e

instance (db : Db) (jobsetId e : Uuid) : Decidable (db.NotPast jobsetId e) :=
  inferInstanceAs (Decidable (∀ c ∈ db.channels.rows, _))

variable {db db' : Db}

theorem notPast_iff {jobsetId e : Uuid} : db.NotPast jobsetId e ↔
    ∀ c e₁, db.channelJobset c = some jobsetId → db.current c = some e₁ →
      db.evaluationTime e₁ ≤ db.evaluationTime e := by
  constructor
  · intro h c e₁ hj he
    obtain ⟨ch, hc, hj⟩ := Option.map_eq_some_iff.mp hj
    rw [current, hc, Option.bind_some] at he
    exact h ch (Table.mem_of_get hc) hj e₁ he
  · intro h ch hm hj e₁ he
    have hc := Table.get_of_mem hm
    exact h ch.id e₁ (by rw [channelJobset, hc, Option.map_some, hj]) (by rw [current, hc, Option.bind_some, he])

/-- The same, build by build. -/
theorem fullySucceeded_iff {e : Uuid} : db.FullySucceeded e ↔
    (∃ k j, db.job k = some j ∧ j.evaluationId = e) ∧
      ∀ k j, db.job k = some j → j.evaluationId = e → db.status k = some .succeeded := by
  have hjob : ∀ {b : Build}, b ∈ db.builds.rows → db.job b.id = some b.toJob := fun hb => by simp [job, get_of_mem hb]
  constructor
  · rintro ⟨⟨b, hb, he⟩, hall⟩
    refine ⟨⟨b.id, b.toJob, hjob hb, he⟩, fun k j hj he => ?_⟩
    obtain ⟨b, hb, rfl⟩ := Option.map_eq_some_iff.mp hj
    exact status_eq_some.mpr ⟨b, hb, hall b (Table.mem_of_get hb) he⟩
  · rintro ⟨⟨k, j, hj, he⟩, hall⟩
    obtain ⟨b, hb, rfl⟩ := Option.map_eq_some_iff.mp hj
    refine ⟨⟨b, Table.mem_of_get hb, he⟩, fun b hb he => ?_⟩
    obtain ⟨b', hb', hs⟩ := status_eq_some.mp (hall b.id b.toJob (hjob hb) he)
    cases (get_of_mem hb).symm.trans hb'
    exact hs

theorem Frame.evaluationTime (h : db.Frame db') (e : Uuid) : db'.evaluationTime e = db.evaluationTime e := by
  rw [Db.evaluationTime, Db.evaluationTime, h.evaluations]

theorem Frame.evaluationJobset (h : db.Frame db') (e : Uuid) : db'.evaluationJobset e = db.evaluationJobset e := by
  rw [Db.evaluationJobset, Db.evaluationJobset, h.evaluations]

end Db

theorem Builds.channels_start (free : Bool) (now : Time) (id : Uuid) (db : Db) :
    (start free now id db).2.channels = db.channels := by
  rcases start_cases free now id db with ⟨_, _, _, h⟩ | h
  · rw [h]; rfl
  · rw [h]

namespace Channels

variable (now : Time) (c e : Uuid) (db : Db)

theorem autoPromoteCount_iff : (autoPromoteCount e db).1 ≠ 0 ∧ (autoPromoteCount e db).1 = (autoPromoteCount e db).2 ↔
    db.FullySucceeded e := by
  have hsub : db.builds.select (fun b => decide (b.evaluationId = e ∧ b.status = .succeeded)) =
      (db.builds.select fun b => decide (b.evaluationId = e)).filter fun b => decide (b.status = .succeeded) := by
    simp [Table.select, List.filter_filter, Bool.and_comm]
  unfold autoPromoteCount Db.FullySucceeded
  rw [hsub]
  refine and_congr ?_ ?_
  · rw [Ne, List.length_eq_zero_iff, Table.select, List.filter_eq_nil_iff]
    simp
  · rw [eq_comm, List.length_filter_eq_length_iff]
    simp [Table.select]

theorem channelJobset_promote (c' : Uuid) : (promote now c e db).channelJobset c' = db.channelJobset c' := by
  have := Table.get_update_key db.channels c (fun ch => { ch with currentEvaluationId := some e, updatedAt := now })
    (fun _ => rfl) c'
  unfold Db.channelJobset promote
  rw [this]
  by_cases h : c' = c
  · rw [if_pos h, Option.map_map]; rfl
  · rw [if_neg h]

/-- A promoted channel points to the evaluation, and no other one moves. -/
theorem current_promote (c' : Uuid) : (promote now c e db).current c' =
    if c' = c then (db.channels.get c).map fun _ => e else db.current c' := by
  have := Table.get_update_key db.channels c (fun ch => { ch with currentEvaluationId := some e, updatedAt := now })
    (fun _ => rfl) c'
  unfold Db.current promote
  rw [this]
  by_cases h : c' = c
  · subst h
    rw [if_pos rfl, if_pos rfl]
    cases db.channels.get c' <;> rfl
  · rw [if_neg h, if_neg h]

end Channels

namespace Runner

open Lts

/-! ### What a step does to the channels -/

section Step

variable {cfg : Config} {s s' : State} {a : Action}

theorem Move.channels_eq {task : Task} {ev : TaskEvent} {db : Db} {p : Phase} (h : Move cfg s task ev db p) :
    db.channels = s.db.channels ∨ ∃ e c cs, ev = .proceed ∧ task.phase = .promoting e (c :: cs) ∧
      db = Channels.promote s.now c e s.db := by
  cases h with
  | promote e c cs hp => exact .inr ⟨e, c, cs, rfl, hp, rfl⟩
  | wait _ _ _ _ _ h =>
    left
    rcases h with rfl | ⟨_, _, _, -, rfl⟩ <;> rfl
  | claim free => exact .inl (Builds.channels_start free s.now task.build.id s.db)
  | report o =>
    left
    rcases report_cases cfg s.now task.build o with ⟨-, h⟩ | ⟨-, -, h⟩ | ⟨_, _, _, _, _, -, h, -⟩ <;> (rw [h]; rfl)
  | cacheFailure _ _ _ _ h =>
    left
    rcases h with rfl | rfl <;> rfl
  | finish | fallback | giveBack | reload | loadEvaluation | count | channels | promoteFails => exact .inl rfl

theorem loop_channels (h : LoopMove s s') : s'.db.channels = s.db.channels := by
  cases h with
  | quiet _ h => rw [quiet_db h]
  | dispatch => rw [State.setPhase, dispatch_db]
  | doneStart b _ free => exact Builds.channels_start free s.now b.id s.db
  | list | sweep | doneComplete => rfl

/-- Only a task's `promote` writes a channel. -/
theorem step_channels (h : step cfg s a = some s') :
    s'.db.channels = s.db.channels ∨ ∃ t task e c cs, a = .task t .proceed ∧ s.task t = some task ∧
      task.phase = .promoting e (c :: cs) ∧ s'.db = Channels.promote s.now c e s.db := by
  cases step_cases h with
  | loop env _ h => exact .inl (loop_channels h)
  | loopError _ h => exact .inl (loop_channels (.quiet _ h))
  | task t ev task _ ht h =>
    cases h with
    | move _ _ _ hm =>
      rcases hm.channels_eq with h | ⟨e, c, cs, rfl, hp, h⟩
      · exact .inl h
      · exact .inr ⟨t, task, e, c, cs, rfl, ht, hp, h⟩
    | remove => exact .inl rfl
  | checker => exact .inl (by rw [checkerStep_db])
  | tick | checkerError | cancel | cancelSuperseded | restart | invalidate | cleanupExpired | drain => exact .inl rfl

theorem channelJobset_of_step (h : step cfg s a = some s') (c : Uuid) :
    s'.db.channelJobset c = s.db.channelJobset c := by
  rcases step_channels h with hc | ⟨_, _, e, c₀, _, -, -, -, hdb⟩
  · rw [Db.channelJobset, Db.channelJobset, hc]
  · rw [hdb, Channels.channelJobset_promote]

/-- A channel stays where it is, or a pass promotes it. -/
theorem current_of_step (h : step cfg s a = some s') (c : Uuid) :
    s'.db.current c = s.db.current c ∨ ∃ t task e cs, a = .task t .proceed ∧ s.task t = some task ∧
      task.phase = .promoting e (c :: cs) ∧ s'.db.current c = some e := by
  rcases step_channels h with hc | ⟨t, task, e, c₀, cs, ha, ht, hp, hdb⟩
  · exact .inl (by rw [Db.current, Db.current, hc])
  · rw [hdb, Channels.current_promote]
    by_cases hcc : c = c₀
    · subst hcc
      rw [if_pos rfl, Db.current]
      cases s.db.channels.get c with
      | none => exact .inl rfl
      | some => exact .inr ⟨t, task, e, cs, ha, ht, hp, rfl⟩
    · exact .inl (by rw [if_neg hcc])

end Step

/-! ### Passes -/

/-- The jobset and the evaluation the task is about to count for. -/
def Phase.counting : Phase → Option (Uuid × Uuid)
  | promoteCount j e => some (j, e)
  | _ => none

/-- The evaluation of the pass the task is in. -/
def Phase.pass : Phase → Option Uuid
  | promoteChannels _ e | promoting e _ => some e
  | _ => none

/-- The jobset is the evaluation's, and the channels are the jobset's. -/
def Phase.Sound (db : Db) : Phase → Prop
  | promoteCount j e | promoteChannels j e => db.evaluationJobset e = some j
  | promoting e cs => ∃ j, db.evaluationJobset e = some j ∧ ∀ c ∈ cs, db.channelJobset c = some j
  | _ => True

/-- `e` is the evaluation for the jobset's channels to point to: none is past
it, and every pass of the jobset is for an evaluation of its time. -/
def State.Leads (s : State) (jobsetId e : Uuid) : Prop :=
  s.db.NotPast jobsetId e ∧ ∀ t task, s.task t = some task → ∀ e' ∈ task.phase.pass,
    s.db.evaluationJobset e' = some jobsetId → s.db.evaluationTime e' = s.db.evaluationTime e

instance (s : State) (jobsetId e : Uuid) : Decidable (s.Leads jobsetId e) := by
  unfold State.Leads; infer_instance

/-- A pass begins only for an evaluation that leads. -/
def PromotesInOrder (s : State) : Action → Prop
  | .task t .proceed => ∀ task ∈ s.task t, ∀ x ∈ task.phase.counting, s.db.FullySucceeded x.2 → s.Leads x.1 x.2
  | _ => True

instance (s : State) (a : Action) : Decidable (PromotesInOrder s a) := by
  unfold PromotesInOrder
  split <;> infer_instance

/-- Every pass is for an evaluation that leads. -/
structure InOrder (s : State) : Prop where
  sound : ∀ t task, s.task t = some task → task.phase.Sound s.db
  leads : ∀ t task, s.task t = some task → ∀ e ∈ task.phase.pass, ∀ j, s.db.evaluationJobset e = some j → s.Leads j e

theorem Fresh.inOrder {cfg : Config} {s : State} (h : Fresh cfg s) : InOrder s where
  sound t task ht := by simp [State.task, h.tasks] at ht
  leads t task ht := by simp [State.task, h.tasks] at ht

section Move

variable {cfg : Config} {s : State} {task : Task} {ev : TaskEvent} {db : Db} {p : Phase}

theorem Move.sound (h : Move cfg s task ev db p) (hs : task.phase.Sound s.db) : p.Sound s.db := by
  cases h with
  | loadEvaluation e _ he =>
    unfold Db.evaluationOf at he
    rw [← Table.key_of_get he] at he
    simp [Phase.Sound, Db.evaluationJobset, he]
  | count j e h => rw [h] at hs; exact hs
  | channels j e h =>
    rw [h] at hs
    refine ⟨j, hs, fun c hc => ?_⟩
    obtain ⟨ch, hch, rfl⟩ := List.mem_map.mp hc
    obtain ⟨hm, hj⟩ := List.mem_filter.mp hch
    rw [Db.channelJobset, Table.get_of_mem hm, Option.map_some, of_decide_eq_true hj]
  | promote e c cs h | promoteFails e c cs h =>
    rw [h] at hs
    obtain ⟨j, hj, hcs⟩ := hs
    exact ⟨j, hj, fun c hc => hcs c (List.mem_cons_of_mem _ hc)⟩
  | wait => cases p <;> trivial
  | report o => rcases report_phase cfg s.now task.build o with h | h | ⟨st, h⟩ <;> rw [h] <;> trivial
  | finish | claim | fallback | giveBack | cacheFailure | reload => trivial

/-- A pass goes on, or it begins with a count that finds the evaluation fully
succeeded. -/
theorem Move.to_pass {e : Uuid} (h : Move cfg s task ev db p) (hp : p.pass = some e) :
    task.phase.pass = some e ∨
      ev = .proceed ∧ ∃ j, task.phase = .promoteCount j e ∧ s.db.FullySucceeded e ∧ db = s.db := by
  cases h with
  | count j e' h h0 he => cases hp; exact .inr ⟨rfl, j, h, (Channels.autoPromoteCount_iff _ _).mp ⟨h0, he⟩, rfl⟩
  | channels _ _ h | promote _ _ _ h | promoteFails _ _ _ h => cases hp; rw [h]; exact .inl rfl
  | wait => cases p <;> simp_all [Phase.isWaiting, Phase.pass]
  | report o => rcases report_phase cfg s.now task.build o with h | h | ⟨st, h⟩ <;> rw [h] at hp <;> cases hp
  | finish | claim | fallback | giveBack | cacheFailure | reload | loadEvaluation => cases hp

end Move

section Step

variable {cfg : Config} {s s' : State} {a : Action}

theorem Phase.Sound.of_step {p : Phase} (h : step cfg s a = some s') (hp : p.Sound s.db) : p.Sound s'.db := by
  have hf := step_frame h
  cases p with
  | promoteCount j e | promoteChannels j e => exact (hf.evaluationJobset e).trans hp
  | promoting e =>
    obtain ⟨j, hj, hcs⟩ := hp
    exact ⟨j, (hf.evaluationJobset e).trans hj, fun c hc => (channelJobset_of_step h c).trans (hcs c hc)⟩
  | _ => trivial

/-- A pass after a step was there before, or has just begun. -/
theorem pass_of_step (h : step cfg s a = some s') {t : ℕ} {task' : Task} {e : Uuid} (ht' : s'.task t = some task')
    (he : e ∈ task'.phase.pass) :
    (∃ task, s.task t = some task ∧ e ∈ task.phase.pass) ∨ a = .task t .proceed ∧ s.db.FullySucceeded e ∧ s'.db = s.db ∧
      ∃ task j, s.task t = some task ∧ task.phase = .promoteCount j e := by
  rcases task_of_step h ht' with ⟨task, ht, -, -, ⟨hp, -⟩ | ⟨ev, ha, hm⟩⟩ | ⟨_, b, -, -, -, rfl⟩
  · exact .inl ⟨task, ht, hp ▸ he⟩
  · rcases hm.to_pass he with hp | ⟨rfl, j, hp, hf, hdb⟩
    · exact .inl ⟨task, ht, hp⟩
    · exact .inr ⟨ha, hf, hdb, task, j, ht, hp⟩
  · cases he

/-- The evaluation of a pass after a step led before. -/
theorem leads_of_pass (hI : InOrder s) (hG : PromotesInOrder s a) (h : step cfg s a = some s') {t : ℕ} {task' : Task}
    {e j : Uuid} (ht' : s'.task t = some task') (he : e ∈ task'.phase.pass) (hj : s.db.evaluationJobset e = some j) :
    s.Leads j e := by
  rcases pass_of_step h ht' he with ⟨task, ht, hp⟩ | ⟨rfl, hf, -, task, j', ht, hp⟩
  · exact hI.leads t task ht e hp j hj
  · have hs := hI.sound t task ht
    rw [hp] at hs
    cases hj.symm.trans hs
    exact hG task ht (j, e) (by rw [hp]; rfl) hf

/-- A promotion leaves no channel past an evaluation that leads. -/
theorem notPast_of_step (hI : InOrder s) (h : step cfg s a = some s') {e j : Uuid} (hl : s.Leads j e) :
    s'.db.NotPast j e := by
  have hf := step_frame h
  rw [Db.notPast_iff]
  intro c e₁ hc he₁
  rw [hf.evaluationTime, hf.evaluationTime]
  rw [channelJobset_of_step h] at hc
  rcases current_of_step h c with heq | ⟨t, task, e₂, cs, -, ht, hp, he₂⟩
  · exact Db.notPast_iff.mp hl.1 c e₁ hc (heq ▸ he₁)
  · -- the promotion is by a pass of the channel's jobset, so at the time of `e`
    cases he₁.symm.trans he₂
    have hs := hI.sound t task ht
    rw [hp] at hs
    obtain ⟨j', hj', hcs⟩ := hs
    cases hc.symm.trans (hcs c List.mem_cons_self)
    exact (hl.2 t task ht e₁ (by rw [hp]; rfl) hj').le

theorem step_inOrder (hI : InOrder s) (hG : PromotesInOrder s a) (h : step cfg s a = some s') : InOrder s' where
  sound t task' ht' := by
    rcases task_of_step h ht' with ⟨task, ht, -, -, ⟨hp, -⟩ | ⟨ev, ha, hm⟩⟩ | ⟨_, b, -, -, -, rfl⟩
    · exact hp ▸ (hI.sound t task ht).of_step h
    · exact (hm.sound (hI.sound t task ht)).of_step h
    · trivial
  leads t task ht e he j hj := by
    have hf := step_frame h
    rw [hf.evaluationJobset] at hj
    have hl := leads_of_pass hI hG h ht he hj
    refine ⟨notPast_of_step hI h hl, fun t' task' ht' e' he' hj' => ?_⟩
    rw [hf.evaluationJobset] at hj'
    rw [hf.evaluationTime, hf.evaluationTime]
    -- of two passes after the step at most one has just begun
    rcases pass_of_step h ht' he' with ⟨task₀', ht₀', hp'⟩ | ⟨ha', -⟩
    · exact hl.2 t' task₀' ht₀' e' hp' hj'
    · rcases pass_of_step h ht he with ⟨task₀, ht₀, hp⟩ | ⟨ha, -⟩
      · exact ((leads_of_pass hI hG h ht' he' hj').2 t task₀ ht₀ e hp hj).symm
      · cases ha.symm.trans ha'
        cases ht.symm.trans ht'
        cases Option.some.inj (he.symm.trans he')
        rfl

end Step

/-- **Channels never go backwards**, if passes begin in order. -/
theorem never_backwards {cfg : Config} {s₀ s s' : State} {as : List Action} {a : Action} {c : Uuid}
    {e₁ e₂ : Evaluation} (h₀ : Fresh cfg s₀) (hG : Along (step cfg) PromotesInOrder s₀ as)
    (h : exec (step cfg) s₀ as = some s) (hs : step cfg s a = some s') (he₁ : s.db.evaluations.get e₁.id = some e₁)
    (he₂ : s.db.evaluations.get e₂.id = some e₂) (hc₁ : s.db.current c = some e₁.id)
    (hc₂ : s'.db.current c = some e₂.id) : e₁.evaluationTime ≤ e₂.evaluationTime := by
  have hI : InOrder s := exec_inv (fun _ _ _ hI hG h => step_inOrder hI hG h) h₀.inOrder hG h
  rcases current_of_step hs c with heq | ⟨t, task, e, cs, -, ht, hp, hc⟩
  · have hid : e₁.id = e₂.id := Option.some.inj (hc₁.symm.trans (heq ▸ hc₂))
    rw [hid, he₂] at he₁
    cases he₁
    exact le_rfl
  · cases hc.symm.trans hc₂
    have hso := hI.sound t task ht
    rw [hp] at hso
    obtain ⟨j, hj, hcs⟩ := hso
    have hle := Db.notPast_iff.mp (hI.leads t task ht e₂.id (by rw [hp]; rfl) j hj).1 c e₁.id
      (hcs c List.mem_cons_self) hc₁
    simpa [Db.evaluationTime, he₁, he₂] using hle

/-- Two evaluations of a jobset, a build in each, and a channel. -/
def twoEvaluations : Db :=
  .ofRows [{ id := 1 }] [{ id := 1, jobsetId := 1 }, { id := 2, jobsetId := 1, evaluationTime := 1 }]
    [{ id := 1, evaluationId := 1, drvPath := "a.drv" }, { id := 2, evaluationId := 2, drvPath := "b.drv" }] []
    [{ id := 1, jobsetId := 1 }] (by decide)

/-- Both builds are dispatched; the build of task `t` succeeds, then the other
task's, up to its `promote`. -/
def promotes (t t' : ℕ) : List Action :=
  loops 20 ++ claims t ++ succeeds t 6 ++ claims t' ++ (succeeds t' 6).take 5

theorem never_backwards_inTurn : ∃ s ∈ exec (step {}) (.start {} twoEvaluations) (promotes 0 1),
    ∃ s' ∈ step {} s (.task 1 .proceed), s.db.current 1 = some 1 ∧ s'.db.current 1 = some 2 ∧
      ∃ e₁ e₂, s.db.evaluations.get 1 = some e₁ ∧ s.db.evaluations.get 2 = some e₂ ∧
        e₁.evaluationTime ≤ e₂.evaluationTime := by
  obtain ⟨s, hs, s', hs', h1, h2, he₁, he₂⟩ : ∃ s ∈ exec (step {}) (.start {} twoEvaluations) (promotes 0 1),
      ∃ s' ∈ step {} s (.task 1 .proceed), s.db.current 1 = some 1 ∧ s'.db.current 1 = some 2 ∧
        s.db.evaluations.get 1 = some { id := 1, jobsetId := 1 } ∧
        s.db.evaluations.get 2 = some { id := 2, jobsetId := 1, evaluationTime := 1 } := by decide
  exact ⟨s, hs, s', hs', h1, h2, _, _, he₁, he₂,
    never_backwards (fresh_start {} twoEvaluations) (by decide) hs hs' he₁ he₂ h1 h2⟩

/-- The later evaluation is promoted first, and then the channel is taken back
to the earlier one. -/
theorem older_promoted_last : Fresh {} (.start {} twoEvaluations) ∧
    ∃ s ∈ exec (step {}) (.start {} twoEvaluations) (promotes 1 0), ∃ s' ∈ step {} s (.task 0 .proceed),
      s.db.current 1 = some 2 ∧ s'.db.current 1 = some 1 ∧ s.db.evaluationJobset 1 = some 1 ∧
        s.db.evaluationJobset 2 = some 1 ∧ s.db.evaluationTime 1 < s.db.evaluationTime 2 :=
  ⟨fresh_start {} twoEvaluations, by decide⟩

end Runner
end Circus
