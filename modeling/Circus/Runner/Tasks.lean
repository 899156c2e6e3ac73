/-
# What a step does to one task

`step_task`: a step leaves task `t` alone, moves it (`Move`), ends it, spawns
it or cancels its token. `Minted`: a new task gets a token of its own.
`Copies`: the builds the loop and the tasks carry
around are copies of rows, so their jobs are the rows' jobs, whatever became
of the rows since.
-/
import Circus.Runner.Rows

namespace Circus.Runner

/-! ### The phases -/

theorem report_phase (cfg : Config) (now : Time) (b : Build) (o : Outcome) :
    (report cfg now b o).2 = .returning ∨ (report cfg now b o).2 = .reloading ∨
      ∃ st, (report cfg now b o).2 = .cachingFailure st := by
  rcases report_cases cfg now b o with ⟨-, h⟩ | ⟨-, -, h⟩ | ⟨st, l, out, e, p, -, h, hp, -⟩ <;> rw [h]
  · exact .inl rfl
  · exact .inl rfl
  · rcases hp with rfl | rfl | rfl
    · exact .inl rfl
    · exact .inr (.inl rfl)
    · exact .inr (.inr ⟨st, rfl⟩)

section Move

variable {cfg : Config} {s : State} {task : Task} {ev : TaskEvent} {db : Db}

theorem Move.to_executing (h : Move cfg s task ev db .executing) :
    (∃ free, ev = .claim free ∧ task.phase = .claiming ∧ s.db.status task.build.id = some .pending ∧
      db.status task.build.id = some .running) ∨
    task.phase = .executing ∧ db = s.db := by
  generalize hp : Phase.executing = p at h
  cases h with
  | claim free h hs => exact .inl ⟨free, rfl, h, Builds.status_of_start hs⟩
  | fallback h => exact .inr ⟨h, rfl⟩
  | wait _ _ _ _ hw => subst hp; cases hw
  | report o => rcases report_phase cfg s.now task.build o with h | h | ⟨st, h⟩ <;> rw [h] at hp <;> cases hp
  | finish | giveBack | cacheFailure | reload | loadEvaluation | count | channels | promote | promoteFails => cases hp

/-- A task becomes live by a `start` that returned its row. -/
theorem Move.to_live {p : Phase} (h : Move cfg s task ev db p) (hp : p.isLive = true) :
    (∃ free, ev = .claim free ∧ task.phase = .claiming ∧ s.db.status task.build.id = some .pending ∧
      db.status task.build.id = some .running) ∨ task.phase.isLive = true := by
  cases h with
  | claim free h hs => exact .inl ⟨free, rfl, h, Builds.status_of_start hs⟩
  | wait _ _ _ _ hw => rw [Phase.not_live_of_waiting hw] at hp; cases hp
  | finish => cases hp
  | fallback h | giveBack h | report _ h _ | cacheFailure _ _ _ h _ | reload h _ | loadEvaluation _ h _
  | count _ _ h _ _ | channels _ _ h | promote _ _ _ h | promoteFails _ _ _ h => rw [h]; exact .inr rfl

/-- A task is on its way to `start` only if it has been all along. -/
theorem Move.to_waiting {p : Phase} (h : Move cfg s task ev db p) (hp : p.isWaiting = true) :
    task.phase.isWaiting = true ∧ (db = s.db ∨ ∃ computed persisted fs, ev = .features computed persisted ∧
      db = Builds.setEffectiveFeatures task.build.id fs s.db) := by
  cases h with
  | wait _ _ _ hw _ hdb => exact ⟨hw, hdb⟩
  | report o => rcases report_phase cfg s.now task.build o with h | h | ⟨st, h⟩ <;> rw [h] at hp <;> cases hp
  | finish | claim | fallback | giveBack | cacheFailure | reload | loadEvaluation | count | channels | promote
  | promoteFails => cases hp

end Move

/-! ### The tasks -/

/-- What a step `a` from `s` to `s'` leaves of task `t`. -/
inductive TaskChange (cfg : Config) (s : State) (a : Action) (t : ℕ) (s' : State) : Option Task → Prop
  | same (ha : ∀ ev, a ≠ .task t ev) : TaskChange cfg s a t s' (s.task t)
  | move (task task' : Task) (ev : TaskEvent) (ha : a = .task t ev) (ht : s.task t = some task)
      (hk : task.Kept task') (hm : Move cfg s task ev s'.db task'.phase) : TaskChange cfg s a t s' (some task')
  | remove (task : Task) (ha : a = .task t .remove) (ht : s.task t = some task) (hp : task.phase = .returned) :
      TaskChange cfg s a t s' none
  | spawn (env : LoopEnv) (b : Build) (ha : a = .loop env) (hp : s.loop.phase = .dispatch b)
      (ht : t = s.nextTask) (hn : s'.nextTask = s.nextTask + 1) : TaskChange cfg s a t s' (some { build := b })
  | cancel (task : Task) (id : Uuid) (ha : a = .checker) (hid : s.activeBuilds.lookup id = some t)
      (ht : s.task t = some task) : TaskChange cfg s a t s' (some { task with cancelled := true })

section TaskChange

variable {cfg : Config} {s s' : State}

theorem TaskChange.of_tasks {a : Action} {t : ℕ} (h : s'.tasks = s.tasks) (ha : ∀ ev, a ≠ .task t ev) :
    TaskChange cfg s a t s' (s'.task t) := by
  unfold State.task
  rw [h]
  exact .same ha

theorem taskChange_loop {env : LoopEnv} (h : LoopMove s s') (t : ℕ) :
    TaskChange cfg s (.loop env) t s' (s'.task t) := by
  cases h with
  | quiet _ h => cases h <;> exact .of_tasks rfl nofun
  | list | sweep | doneStart | doneComplete => exact .of_tasks rfl nofun
  | dispatch b hp =>
    by_cases hd : s.draining = true
    · exact .of_tasks (by simp [State.setPhase, State.dispatch, hd]) nofun
    · by_cases ht : t = s.nextTask
      · have : ((s.dispatch b).setPhase .next).task t = some { build := b } := by
          subst ht
          simp [State.task, State.setPhase, State.dispatch, hd]
        rw [this]
        exact .spawn env b rfl hp ht (by simp [State.setPhase, State.dispatch, hd])
      · have : ((s.dispatch b).setPhase .next).task t = s.task t := by
          simp only [State.task, State.setPhase, State.dispatch, hd, Bool.false_eq_true, ↓reduceIte]
          exact AList.lookup_insert_ne ht
        rw [this]
        exact .same nofun

theorem taskChange_cancelActive (id : Uuid) (t : ℕ) :
    TaskChange cfg s .checker t s' ((s.cancelActive id).task t) := by
  unfold State.cancelActive
  split
  · exact .same nofun
  · rename_i t₀ hid
    simp only
    split
    · exact .same nofun
    · rename_i task ht₀
      rw [State.task_setTask]
      by_cases ht : t = t₀
      · subst ht
        rw [if_pos rfl]
        exact .cancel task id rfl hid ht₀
      · rw [if_neg ht]
        exact .same nofun

/-- **What a step does to one task.** -/
theorem step_task {a : Action} (h : step cfg s a = some s') (t : ℕ) : TaskChange cfg s a t s' (s'.task t) := by
  cases step_cases h with
  | loop env _ h => exact taskChange_loop h t
  | loopError _ h => cases h <;> exact .same nofun
  | task t₀ ev task _ ht₀ h =>
    cases h with
    | move _ task' hk hm hts =>
      unfold State.task
      rw [hts]
      by_cases ht : t = t₀
      · subst ht
        rw [AList.lookup_insert]
        exact .move task task' ev rfl ht₀ hk hm
      · rw [AList.lookup_insert_ne ht]
        exact .same fun ev' h => ht (by cases h; rfl)
    | remove he hp =>
      by_cases ht : t = t₀
      · subst ht he
        rw [State.task, AList.lookup_erase]
        exact .remove task rfl ht₀ hp
      · rw [State.task, AList.lookup_erase_ne ht]
        exact .same fun ev' h => ht (by cases h; rfl)
  | checker =>
    unfold State.checkerStep
    split
    · split <;> exact .same nofun
    · exact .same nofun
    · exact .same nofun
    · exact taskChange_cancelActive _ t
  | tick | checkerError | cancel | cancelSuperseded | restart | invalidate | cleanupExpired | drain => exact .same nofun

/-- A task after a step is one from before, where it was or one move further,
or it has just been spawned. -/
theorem task_of_step {a : Action} (h : step cfg s a = some s') {t : ℕ} {task' : Task}
    (ht' : s'.task t = some task') :
    (∃ task, s.task t = some task ∧ task'.build.toJob = task.build.toJob ∧
      task'.build.retryCount = task.build.retryCount ∧
      (task'.phase = task.phase ∧ (∀ ev, a ≠ .task t ev) ∨
        ∃ ev, a = .task t ev ∧ Move cfg s task ev s'.db task'.phase)) ∨
    ∃ env b, a = .loop env ∧ s.loop.phase = .dispatch b ∧ t = s.nextTask ∧ task' = { build := b } := by
  have hc := step_task h t
  rw [ht'] at hc
  generalize hx : some task' = x at hc
  cases hc with
  | same ha => exact .inl ⟨task', hx.symm, rfl, rfl, Or.inl ⟨rfl, ha⟩⟩
  | remove => cases hx
  | spawn env b ha hp ht => cases hx; exact .inr ⟨env, b, ha, hp, ht, rfl⟩
  | cancel task id ha _ ht => cases hx; exact .inl ⟨task, ht, rfl, rfl, Or.inl ⟨rfl, by rw [ha]; nofun⟩⟩
  | move task task'' ev ha ht hk hm => cases hx; exact .inl ⟨task, ht, hk.job, hk.retryCount, Or.inr ⟨ev, ha, hm⟩⟩

end TaskChange

/-! ### Tokens -/

/-- No token is given out twice: the next one is new. -/
def Minted (s : State) : Prop := ∀ t task, s.task t = some task → t < s.nextTask

variable {cfg : Config} {s : State}

theorem Fresh.minted (h : Fresh cfg s) : Minted s := by
  intro t task ht
  simp [State.task, h.tasks] at ht

variable {s' : State}

theorem loop_nextTask (h : LoopMove s s') : s.nextTask ≤ s'.nextTask := by
  cases h with
  | quiet _ h => cases h <;> exact le_rfl
  | dispatch =>
    unfold State.setPhase State.dispatch
    split
    · exact le_rfl
    · exact Nat.le_succ _
  | list | sweep | doneStart | doneComplete => exact le_rfl

variable {a : Action}

theorem step_nextTask (h : step cfg s a = some s') : s.nextTask ≤ s'.nextTask := by
  cases step_cases h with
  | loop _ _ h => exact loop_nextTask h
  | loopError _ h => exact loop_nextTask (.quiet _ h)
  | task _ _ _ _ _ h =>
    cases h with
    | move _ _ _ _ _ hf => exact hf.nextTask.ge
    | remove => exact le_rfl
  | checker =>
    obtain ⟨_, _, _, h⟩ := s.checkerStep_eq
    rw [h]
  | tick | checkerError | cancel | cancelSuperseded | restart | invalidate | cleanupExpired | drain => exact le_rfl

theorem step_minted (hI : Minted s) (h : step cfg s a = some s') : Minted s' := by
  intro t task ht
  have hc := step_task h t
  rw [ht] at hc
  generalize hx : some task = x at hc
  cases hc with
  | same => exact (hI t task hx.symm).trans_le (step_nextTask h)
  | remove => cases hx
  | spawn => omega
  | cancel task₀ _ _ _ ht₀ | move task₀ _ _ _ ht₀ => exact (hI t task₀ ht₀).trans_le (step_nextTask h)

/-- Unless it takes the step itself a task stays where it is. -/
theorem task_stays (hI : Minted s) (h : step cfg s a = some s') {t : ℕ}
    {task : Task} (ht : s.task t = some task) (ha : ∀ ev, a ≠ .task t ev) :
    ∃ task', s'.task t = some task' ∧ task'.build = task.build ∧ task'.phase = task.phase := by
  have hc := step_task h t
  generalize hx : s'.task t = x at hc
  cases hc with
  | same => exact ⟨task, ht, rfl, rfl⟩
  | move _ _ ev ha' => exact absurd ha' (ha ev)
  | remove _ ha' => exact absurd ha' (ha _)
  | spawn =>
    have := hI t task ht
    omega
  | cancel task₀ _ _ _ ht₀ =>
    cases ht.symm.trans ht₀
    exact ⟨_, rfl, rfl, rfl⟩

/-! ### Shutdown -/

theorem step_draining (hd : s.draining = true) (h : step cfg s a = some s') :
    s'.draining = true ∧ s'.nextTask = s.nextTask := by
  cases step_cases h with
  | loop _ _ h =>
    cases h with
    | quiet _ h => cases h <;> exact ⟨hd, rfl⟩
    | dispatch => simp [State.setPhase, State.dispatch, hd]
    | list | sweep | doneStart | doneComplete => exact ⟨hd, rfl⟩
  | loopError _ h => cases h <;> exact ⟨hd, rfl⟩
  | task _ _ _ _ _ h =>
    cases h with
    | move _ _ _ _ _ hf => exact ⟨hf.draining.trans hd, hf.nextTask⟩
    | remove => exact ⟨hd, rfl⟩
  | checker =>
    obtain ⟨_, _, _, h⟩ := s.checkerStep_eq
    rw [h]
    exact ⟨hd, rfl⟩
  | drain => exact ⟨rfl, rfl⟩
  | tick | checkerError | cancel | cancelSuperseded | restart | invalidate | cleanupExpired => exact ⟨hd, rfl⟩

/-- **A draining runner spawns nothing**: every task it has after any run it
had before, for the same build. -/
theorem draining_spawns_nothing {as : List Action} (hm : Minted s) (hd : s.draining = true)
    (h : Lts.exec (step cfg) s as = some s') {t : ℕ} {task' : Task} (ht : s'.task t = some task') :
    ∃ task, s.task t = some task ∧ task'.build.toJob = task.build.toJob := by
  induction as generalizing s with
  | nil =>
    cases h
    exact ⟨task', ht, rfl⟩
  | cons a as ih =>
    obtain ⟨s₁, h₁, h₂⟩ := (Lts.exec_cons _).mp h
    have hm₁ := step_minted hm h₁
    obtain ⟨hd₁, hn⟩ := step_draining hd h₁
    obtain ⟨task₁, ht₁, hj⟩ := ih hm₁ hd₁ h₂
    rcases task_of_step h₁ ht₁ with ⟨task, ht, hj', -⟩ | ⟨_, _, _, _, rfl, _⟩
    · exact ⟨task, ht, hj.trans hj'⟩
    · -- a new task would have a token that has not been given out
      have := hm₁ _ task₁ ht₁
      omega

theorem draining_spawns_nothing_polls :
    ∃ s ∈ Lts.exec (step {}) { State.start {} oneBuild with draining := true } (loops 12),
      s.loop.phase = .next ∧ ∀ t, s.task t = none := by
  obtain ⟨s, hs, hp⟩ : ∃ s ∈ Lts.exec (step {}) { State.start {} oneBuild with draining := true } (loops 12),
      s.loop.phase = .next := by decide
  refine ⟨s, hs, hp, fun t => Option.eq_none_iff_forall_not_mem.mpr fun task ht => ?_⟩
  obtain ⟨_, h, -⟩ := draining_spawns_nothing (fun t task ht => by cases ht) rfl hs ht
  cases h

/-! ### Copies of rows -/

/-- `b` is a copy of a row: the row may have moved on, its job has not. -/
def IsCopy (db : Db) (b : Build) : Prop := db.job b.id = some b.toJob

/-- The builds the loop and the tasks carry are copies of rows. -/
structure Copies (s : State) : Prop where
  rest : ∀ b ∈ s.loop.rest, IsCopy s.db b
  current : ∀ b, s.loop.phase.current = some b → IsCopy s.db b
  tasks : ∀ t task, s.task t = some task → IsCopy s.db task.build

theorem IsCopy.of_mem {db : Db} {b : Build} (h : b ∈ db.builds.rows) : IsCopy db b := by
  simp [IsCopy, Db.job, Db.get_of_mem h]

theorem Fresh.copies (h : Fresh cfg s) : Copies s where
  rest b hb := by rw [h.rest] at hb; cases hb
  current b hb := by rw [h.loop] at hb; cases hb
  tasks t task ht := by simp [State.task, h.tasks] at ht

theorem firstFilter_current (iv : Bool) (b : Build) : (firstFilter iv b).current = some b := by
  unfold firstFilter
  split_ifs <;> rfl

/-- A quiet move works on the same build, on the next one, or on none. -/
theorem Passes.current {p q : LoopPhase} (h : Passes s p q) {b : Build} (hb : q.current = some b) :
    p.current = some b := by
  cases h <;> simp_all [LoopPhase.current]

/-- The builds in the loop's hands after a step were there before, or have just
been listed. -/
theorem loop_builds (h : LoopMove s s') :
    (∀ b ∈ s'.loop.rest, b ∈ s.loop.rest ∨ b ∈ Builds.eligiblePending s.db ∧ s'.db = s.db ∧ s.loop.phase = .list) ∧
    (∀ b, s'.loop.phase.current = some b → s.loop.phase.current = some b ∨ b ∈ s.loop.rest) := by
  cases h with
  | quiet _ h =>
    cases h with
    | pass l hr hp => exact ⟨fun b hb => Or.inl (hr ▸ hb), fun b hb => Or.inl (hp.current hb)⟩
    | take l b₀ iv h hr hp =>
      refine ⟨fun b hb => Or.inl (hr ▸ List.mem_cons_of_mem _ hb), fun b hb => Or.inr ?_⟩
      rw [hp, firstFilter_current] at hb
      cases hb
      rw [hr]
      exact List.mem_cons_self
  | list l limit cap h hp hr =>
    refine ⟨fun b hb => Or.inr ?_, fun b hb => by rw [hp] at hb; cases hb⟩
    rw [hr] at hb
    exact ⟨(Builds.mem_listPending hb).1, rfl, h⟩
  | sweep ids atBoot l h hr hp =>
    refine ⟨fun b hb => Or.inl (hr ▸ hb), fun b hb => ?_⟩
    rcases hp with hp | hp <;> rw [hp] at hb <;> cases hb
  | dispatch b₀ =>
    have hl : (s.dispatch b₀).loop = s.loop := by unfold State.dispatch; split <;> rfl
    refine ⟨fun b hb => Or.inl ?_, fun b hb => by cases hb⟩
    rw [State.setPhase, hl] at hb
    exact hb
  | doneStart b₀ c free h =>
    refine ⟨fun b hb => Or.inl hb, fun b hb => Or.inl ?_⟩
    cases hb
    rw [h]
    rfl
  | doneComplete => exact ⟨fun b hb => Or.inl hb, fun b hb => by cases hb⟩

/-- A step is one of the loop, or leaves the loop alone. -/
theorem step_loop (h : step cfg s a = some s') :
    LoopMove s s' ∧ a.isLoop = true ∨ s'.loop = s.loop ∧ a.isLoop = false := by
  cases step_cases h with
  | loop env _ h => exact .inl ⟨h, rfl⟩
  | loopError _ h => exact .inl ⟨.quiet _ h, rfl⟩
  | task t ev task _ _ h =>
    cases h with
    | move _ _ _ _ _ hf => exact .inr ⟨hf.loop, rfl⟩
    | remove => exact .inr ⟨rfl, rfl⟩
  | checker =>
    obtain ⟨_, _, _, h⟩ := s.checkerStep_eq
    exact .inr ⟨by rw [h], rfl⟩
  | tick | checkerError | cancel | cancelSuperseded | restart | invalidate | cleanupExpired | drain =>
    exact .inr ⟨rfl, rfl⟩

/-- What the loop leaves alone. -/
structure LoopFrame (s s' : State) : Prop where
  now : s'.now = s.now
  checker : s'.checker = s.checker
  permits : s'.permits = s.permits
  draining : s'.draining = s.draining

theorem LoopMove.frame (h : LoopMove s s') : LoopFrame s s' := by
  cases h with
  | quiet _ h => cases h <;> exact ⟨rfl, rfl, rfl, rfl⟩
  | dispatch =>
    unfold State.setPhase State.dispatch
    split <;> exact ⟨rfl, rfl, rfl, rfl⟩
  | list | sweep | doneStart | doneComplete => exact ⟨rfl, rfl, rfl, rfl⟩

/-- Only a tick moves the clock, and it moves nothing else. -/
theorem step_now (h : step cfg s a = some s') :
    s'.now = s.now ∨ ∃ secs, a = .tick secs ∧ s' = { s with now := s.now + secs } := by
  cases step_cases h with
  | tick secs => exact .inr ⟨secs, rfl, rfl⟩
  | loop env _ h => exact .inl h.frame.now
  | loopError _ h => exact .inl (LoopMove.quiet _ h).frame.now
  | task t ev task _ _ h =>
    cases h with
    | move _ _ _ _ _ hf => exact .inl hf.now
    | remove => exact .inl rfl
  | checker =>
    obtain ⟨_, _, _, h⟩ := s.checkerStep_eq
    exact .inl (by rw [h])
  | checkerError | cancel | cancelSuperseded | restart | invalidate | cleanupExpired | drain => exact .inl rfl

theorem IsCopy.frame {db db' : Db} {b : Build} (h : IsCopy db b) (hf : db.Frame db') : IsCopy db' b :=
  (hf.job b.id).trans h

theorem IsCopy.kept {db : Db} {task task' : Task} (h : IsCopy db task.build) (hk : task.Kept task') :
    IsCopy db task'.build := by
  unfold IsCopy
  rw [hk.job]
  exact h

theorem step_copies (hc : Copies s) (h : step cfg s a = some s') : Copies s' := by
  have hf := step_frame h
  refine ⟨fun b hb => ?_, fun b hb => ?_, fun t task ht => ?_⟩
  · rcases step_loop h with ⟨hl, -⟩ | hl
    · rcases (loop_builds hl).1 b hb with hb | hb
      · exact (hc.rest b hb).frame hf
      · exact (IsCopy.of_mem (Builds.mem_eligiblePending.mp hb.1).1).frame hf
    · exact (hc.rest b (hl.1 ▸ hb)).frame hf
  · rcases step_loop h with ⟨hl, -⟩ | hl
    · rcases (loop_builds hl).2 b hb with hb | hb
      · exact (hc.current b hb).frame hf
      · exact (hc.rest b hb).frame hf
    · exact (hc.current b (hl.1 ▸ hb)).frame hf
  · have ht' := step_task h t
    rw [ht] at ht'
    generalize hx : some task = x at ht'
    cases ht' with
    | same => exact (hc.tasks t task hx.symm).frame hf
    | move task₀ task' ev ha h₀ hk =>
      cases hx
      exact ((hc.tasks t task₀ h₀).kept hk).frame hf
    | remove => cases hx
    | spawn env b ha hp =>
      cases hx
      exact (hc.current b (by rw [hp]; rfl)).frame hf
    | cancel task₀ id ha hid h₀ =>
      cases hx
      exact (hc.tasks t task₀ h₀).frame hf

theorem exec_copies {as : List Action} (hc : Copies s) (h : Lts.exec (step cfg) s as = some s') : Copies s' :=
  Lts.exec_inv (fun _ _ _ hc (_ : True) h => step_copies hc h) hc (.of_mem fun _ _ _ => trivial) h

end Circus.Runner
