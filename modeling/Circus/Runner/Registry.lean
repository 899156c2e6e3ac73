/-
# The registry of active builds

`active_builds` maps a build id to the cancellation token of a task. The
orphan sweep excludes the registered builds, and the cancel checker cancels
the registered tokens, so both rest on every running task being registered
under its own token. `registry` proves that, and both consequences, for the
runs in which a build is dispatched only when no earlier task for it is left
(`DispatchesOnce`): the sweep leaves the builds of the live tasks alone, and
a tick of the checker that begins after a cancellation has cancelled the
build's task once it is through its list.

Nothing in `dispatch` asks for that: it inserts over whatever entry there is,
and a task removes the entry of its build, whoever's it is.
`second_dispatch_unregisters` dispatches a build on two polls while the first
task waits for a permit.
-/
import Circus.Runner.Tasks

namespace Circus.Runner

open Lts

/-- The build task `t` was dispatched for, and whether its token was
cancelled. -/
def State.token (s : State) (t : ℕ) : Option (Uuid × Bool) :=
  (s.task t).map fun task => (task.build.id, task.cancelled)

/-- The loop dispatches a build only when no task for it is left. -/
def DispatchesOnce (s : State) : Action → Prop
  | .loop _ => ∀ b ∈ s.loop.phase.dispatched, ∀ t task, s.task t = some task → task.build.id ≠ b.id
  | _ => True

instance (s : State) (a : Action) : Decidable (DispatchesOnce s a) := by
  induction a using Action.casesOn <;> dsimp only [DispatchesOnce] <;> infer_instance

structure Registered (s : State) : Prop where
  one : ∀ t t' b c c', s.token t = some (b, c) → s.token t' = some (b, c') → t = t'
  entry : ∀ t b, s.token t = some (b, false) → s.activeBuilds.lookup b = some t
  old : ∀ t b c, s.token t = some (b, c) → t < s.nextTask
  swept : ∀ ids ∈ s.loop.phase.sweptIds, ∀ t b, s.token t = some (b, false) → b ∈ ids

theorem Fresh.registered {cfg : Config} {s : State} (h : Fresh cfg s) : Registered s := by
  have ht : ∀ t, s.token t = none := fun t => by simp [State.token, State.task, h.tasks]
  constructor <;> simp [ht]

section Step

variable {cfg : Config} {s s' : State} {a : Action}

variable {t : ℕ} {b : Uuid}

theorem Registered.mem_keys (hI : Registered s) (h : s.token t = some (b, false)) :
    b ∈ s.activeBuilds.keys :=
  AList.mem_keys.mp (AList.lookup_isSome.mp (by rw [hI.entry t b h]; rfl))

/-- A step that touches neither the tokens nor the registry. -/
theorem Registered.frame (hI : Registered s) (ht : ∀ t, s'.token t = s.token t)
    (ha : s'.activeBuilds = s.activeBuilds) (hn : s'.nextTask = s.nextTask)
    (hp : s'.loop.phase.sweptIds = none ∨ s'.loop.phase.sweptIds = s.loop.phase.sweptIds ∨
      s'.loop.phase.sweptIds = some s.activeBuilds.keys) : Registered s' where
  one t t' b c c' h h' := hI.one t t' b c c' (ht t ▸ h) (ht t' ▸ h')
  entry t b h := by rw [ha]; exact hI.entry t b (ht t ▸ h)
  old t b c h := by rw [hn]; exact hI.old t b c (ht t ▸ h)
  swept ids hids t b h := by
    rw [ht] at h
    rcases hp with hp | hp | hp <;> rw [hp] at hids
    · cases hids
    · exact hI.swept ids hids t b h
    · cases hids
      exact hI.mem_keys h

theorem Passes.sweptIds {p q : LoopPhase} (h : Passes s p q) :
    q.sweptIds = none ∨ q.sweptIds = some s.activeBuilds.keys := by
  cases h <;> first | exact .inl rfl | exact .inr rfl

theorem token_dispatch (s : State) (b : Build) (t : ℕ) : ((s.dispatch b).setPhase .next).token t =
    if t = s.nextTask ∧ s.draining = false then some (b.id, false) else s.token t := by
  unfold State.token State.task State.setPhase State.dispatch
  by_cases hd : s.draining = true
  · simp [hd]
  · by_cases ht : t = s.nextTask
    · subst ht
      simp [hd]
    · simp only [hd, ht, Bool.false_eq_true, ↓reduceIte, AList.lookup_insert_ne ht, false_and]

theorem Registered.dispatch (hI : Registered s) {b : Build}
    (hG : ∀ t task, s.task t = some task → task.build.id ≠ b.id) : Registered ((s.dispatch b).setPhase .next) := by
  by_cases hd : s.draining = true
  · have he : s.dispatch b = s := if_pos hd
    rw [he]
    exact hI.frame (fun _ => rfl) rfl rfl (Or.inl rfl)
  have hb : ∀ t c, s.token t ≠ some (b.id, c) := fun t c ht => by
    obtain ⟨task, htask, heq⟩ := Option.map_eq_some_iff.mp ht
    exact hG t task htask (Prod.ext_iff.mp heq).1
  have ha : ((s.dispatch b).setPhase .next).activeBuilds = s.activeBuilds.insert b.id s.nextTask := by
    simp [State.setPhase, State.dispatch, hd]
  have hn : ((s.dispatch b).setPhase .next).nextTask = s.nextTask + 1 := by
    simp [State.setPhase, State.dispatch, hd]
  have ht : ∀ {t b' c}, ((s.dispatch b).setPhase .next).token t = some (b', c) →
      t = s.nextTask ∧ b' = b.id ∨ s.token t = some (b', c) ∧ b' ≠ b.id := by
    intro t b' c h
    rw [token_dispatch] at h
    split_ifs at h with hc
    · exact .inl ⟨hc.1, by cases h; rfl⟩
    · exact .inr ⟨h, fun he => hb t c (he ▸ h)⟩
  constructor
  · intro t t' b' c c' h h'
    rcases ht h with ⟨rfl, rfl⟩ | ⟨h, hne⟩ <;> rcases ht h' with ⟨rfl, h2⟩ | ⟨h', hne'⟩
    · rfl
    · exact absurd rfl hne'
    · exact absurd h2 hne
    · exact hI.one t t' b' c c' h h'
  · intro t b' h
    rw [ha]
    rcases ht h with ⟨rfl, rfl⟩ | ⟨h, hne⟩
    · exact AList.lookup_insert _
    · rw [AList.lookup_insert_ne hne]
      exact hI.entry t b' h
  · intro t b' c h
    rw [hn]
    rcases ht h with ⟨rfl, -⟩ | ⟨h, -⟩
    · exact Nat.lt_succ_self _
    · exact Nat.lt_succ_of_lt (hI.old t b' c h)
  · intro ids hids
    cases hids

theorem token_cancelActive {id : Uuid} {t₀ : ℕ} (h : s.activeBuilds.lookup id = some t₀) (t : ℕ) :
    (s.cancelActive id).token t = if t = t₀ then (s.token t).map fun x => (x.1, true) else s.token t := by
  simp only [State.cancelActive, h]
  cases hc : s.task t₀ with
  | none =>
    by_cases ht : t = t₀
    · subst ht
      simp [State.token, State.task] at hc ⊢
      simp [hc]
    · simp [State.token, State.task, ht]
  | some =>
    simp only [State.token, State.task_setTask]
    by_cases ht : t = t₀
    · subst ht
      simp [hc]
    · simp [ht, State.task]

theorem Registered.cancelActive (hI : Registered s) (id : Uuid) : Registered (s.cancelActive id) := by
  cases h : s.activeBuilds.lookup id with
  | none =>
    have : s.cancelActive id = s := by simp [State.cancelActive, h]
    rw [this]
    exact hI
  | some t₀ =>
    have ht := token_cancelActive h
    have ha : (s.cancelActive id).activeBuilds = s.activeBuilds.erase id := by
      simp only [State.cancelActive, h]
      split <;> rfl
    obtain ⟨active, tasks, he⟩ := s.cancelActive_eq id
    have hl : (s.cancelActive id).loop = s.loop := by rw [he]
    have hn : (s.cancelActive id).nextTask = s.nextTask := by rw [he]
    have hid : ∀ {t b c}, (s.cancelActive id).token t = some (b, c) →
        ∃ c₀, s.token t = some (b, c₀) ∧ (c = false → t ≠ t₀ ∧ c₀ = false) := by
      intro t b c h'
      rw [ht] at h'
      split_ifs at h' with htt
      · obtain ⟨⟨b₀, c₀⟩, h1, h2⟩ := Option.map_eq_some_iff.mp h'
        cases h2
        exact ⟨c₀, h1, nofun⟩
      · exact ⟨c, h', fun hc => ⟨htt, hc⟩⟩
    constructor
    · intro t t' b c c' h1 h2
      obtain ⟨c₀, h1, -⟩ := hid h1
      obtain ⟨c₁, h2, -⟩ := hid h2
      exact hI.one t t' b c₀ c₁ h1 h2
    · intro t b h1
      obtain ⟨c₀, h1, hc⟩ := hid h1
      obtain ⟨hne, rfl⟩ := hc rfl
      have hb := hI.entry t b h1
      rw [ha, AList.lookup_erase_ne, hb]
      rintro rfl
      exact hne (Option.some.inj (hb.symm.trans h))
    · intro t b c h1
      obtain ⟨c₀, h1, -⟩ := hid h1
      rw [hn]
      exact hI.old t b c₀ h1
    · intro ids hids t b h1
      obtain ⟨c₀, h1, hc⟩ := hid h1
      obtain ⟨-, rfl⟩ := hc rfl
      exact hI.swept ids (hl ▸ hids) t b h1

theorem token_remove (s : State) (t₀ : ℕ) (active : AList fun _ : Uuid => ℕ) (t : ℕ) :
    ({ s with activeBuilds := active, tasks := s.tasks.erase t₀ } : State).token t =
      if t = t₀ then none else s.token t := by
  unfold State.token State.task
  by_cases ht : t = t₀
  · subst ht
    simp
  · simp [AList.lookup_erase_ne ht, ht]

theorem Registered.remove (hI : Registered s) {t₀ : ℕ} {task : Task} (h : s.task t₀ = some task) :
    Registered { s with activeBuilds := s.activeBuilds.erase task.build.id, tasks := s.tasks.erase t₀ } := by
  have h₀ : s.token t₀ = some (task.build.id, task.cancelled) := by simp [State.token, h]
  have ht : ∀ {t x}, ({ s with
      activeBuilds := s.activeBuilds.erase task.build.id, tasks := s.tasks.erase t₀ } : State).token t = some x →
      t ≠ t₀ ∧ s.token t = some x := by
    intro t x h
    rw [token_remove] at h
    split_ifs at h with htt
    exact ⟨htt, h⟩
  constructor
  · exact fun t t' b c c' h1 h2 => hI.one t t' b c c' (ht h1).2 (ht h2).2
  · intro t b h1
    obtain ⟨hne, h1⟩ := ht h1
    rw [AList.lookup_erase_ne]
    · exact hI.entry t b h1
    · rintro rfl
      exact hne (hI.one t t₀ _ _ _ h1 h₀)
  · exact fun t b c h1 => hI.old t b c (ht h1).2
  · exact fun ids hids t b h1 => hI.swept ids hids t b (ht h1).2

theorem Registered.quiet (hI : Registered s) (h : QuietMove s s') : Registered s' := by
  cases h with
  | pass l _ hp => exact hI.frame (fun _ => rfl) rfl rfl (hp.sweptIds.imp_right Or.inr)
  | take l b iv _ _ hp =>
    refine hI.frame (fun _ => rfl) rfl rfl (Or.inl ?_)
    simp only [hp, firstFilter]
    split_ifs <;> rfl

theorem step_registered (hI : Registered s) (hG : DispatchesOnce s a) (h : step cfg s a = some s') :
    Registered s' := by
  cases step_cases h with
  | loop env _ h =>
    cases h with
    | quiet _ h => exact hI.quiet h
    | list l _ _ _ hp => exact hI.frame (fun _ => rfl) rfl rfl (Or.inl (by simp only [hp]; rfl))
    | sweep _ _ l _ _ hp =>
      exact hI.frame (fun _ => rfl) rfl rfl (Or.inl (by rcases hp with hp | hp <;> simp only [hp] <;> rfl))
    | dispatch b hp => exact hI.dispatch (hG b (by rw [hp]; rfl))
    | doneStart | doneComplete => exact hI.frame (fun _ => rfl) rfl rfl (Or.inl rfl)
  | loopError _ h => exact hI.quiet h
  | task t ev task _ ht h =>
    cases h with
    | move _ task' hk hm hts hf =>
      refine hI.frame (fun t' => ?_) hf.activeBuilds hf.nextTask (Or.inr (.inl (by rw [hf.loop])))
      unfold State.token State.task
      rw [hts]
      by_cases htt : t' = t
      · subst htt
        rw [AList.lookup_insert, ← State.task, ht]
        simp [hk.id, hk.cancelled]
      · rw [AList.lookup_insert_ne htt]
    | remove => exact hI.remove ht
  | checker =>
    unfold State.checkerStep
    split
    · split
      · exact hI
      · exact hI.frame (fun _ => rfl) rfl rfl (Or.inr (.inl rfl))
    · exact hI.frame (fun _ => rfl) rfl rfl (Or.inr (.inl rfl))
    · exact hI.frame (fun _ => rfl) rfl rfl (Or.inr (.inl rfl))
    · exact (hI.cancelActive _).frame (fun _ => rfl) rfl rfl (Or.inr (.inl rfl))
  | tick | checkerError | cancel | cancelSuperseded | restart | invalidate | cleanupExpired | drain =>
    exact hI.frame (fun _ => rfl) rfl rfl (Or.inr (.inl rfl))

/-- The sweep leaves the builds of the tasks alone. -/
theorem Registered.sweep_spares (hI : Registered s) {ids : List Uuid} {atBoot : Bool}
    (hp : s.loop.phase = .sweeping ids atBoot) (ht : s.token t = some (b, false)) :
    (Builds.resetOrphaned s.now 300 ids s.db).builds.get b = s.db.builds.get b := by
  have hb : b ∈ ids := hI.swept ids (by rw [hp]; rfl) t b ht
  unfold Builds.resetOrphaned
  rw [Db.get_updateBuilds]
  cases hg : s.db.builds.get b with
  | none => rfl
  | some => simp [Db.id_of_get hg, hb]

/-! ### A tick of the cancel checker -/

theorem token_of_step (h : step cfg s a = some s') (ht : t < s.nextTask) {c : Bool}
    (hc : s'.token t = some (b, c)) : ∃ c₀, s.token t = some (b, c₀) ∧ (c = false → c₀ = false) := by
  obtain ⟨task', ht', heq⟩ := Option.map_eq_some_iff.mp hc
  cases heq
  have := step_task h t
  rw [ht'] at this
  generalize hx : some task' = x at this
  cases this with
  | same => exact ⟨_, by rw [State.token, ← hx]; rfl, id⟩
  | move task _ _ _ h₀ hk => cases hx; exact ⟨_, by rw [State.token, h₀, hk.id]; rfl, by simp [hk.cancelled]⟩
  | remove => cases hx
  | spawn => omega
  | cancel task _ _ _ h₀ => cases hx; exact ⟨_, by rw [State.token, h₀]; rfl, nofun⟩

theorem step_checker (h : step cfg s a = some s') :
    s'.checker = s.checker ∨ s'.checker = .idle ∨ s' = s.checkerStep := by
  cases step_cases h with
  | loop _ _ h => exact .inl h.frame.checker
  | loopError _ h => exact .inl (LoopMove.quiet _ h).frame.checker
  | task _ _ _ _ _ h =>
    cases h with
    | move _ _ _ _ _ hf => exact .inl hf.checker
    | remove => exact .inl rfl
  | checker => exact .inr (.inr rfl)
  | checkerError => exact .inr (.inl rfl)
  | tick | cancel | cancelSuperseded | restart | invalidate | cleanupExpired | drain => exact .inl rfl

/-- Task `t` runs build `b`, and a tick of the checker that has begun has `b`
on its list as long as `t` is not cancelled. -/
structure Watched (t : ℕ) (b : Uuid) (s : State) : Prop where
  registered : Registered s
  old : t < s.nextTask
  build : ∀ b' c, s.token t = some (b', c) → b' = b
  listed : s.token t = some (b, false) → ∀ ids, s.checker = .snapshot ids ∨ s.checker = .removing ids → b ∈ ids

theorem Watched.checkerStep (hI : Watched t b s) (hb : s.db.status b = some .cancelled)
    (ht : s.token t = some (b, false)) (ht' : s.checkerStep.token t = some (b, false)) {ids : List Uuid}
    (hids : s.checkerStep.checker = .snapshot ids ∨ s.checkerStep.checker = .removing ids) : b ∈ ids := by
  unfold State.checkerStep at ht' hids
  split at hids
  · rename_i hc
    split at hids
    · simp [hc] at hids
    · rcases hids with h | h <;> cases h
      exact hI.registered.mem_keys ht
  · rename_i ids₀ hc
    rcases hids with h | h <;> cases h
    exact Builds.mem_getCancelledAmong (hI.listed ht _ (Or.inl hc)) hb
  · rcases hids with h | h <;> cases h
  · rename_i id ids₀ hc
    rcases hids with h | h <;> cases h
    rcases List.mem_cons.mp (hI.listed ht _ (Or.inr hc)) with rfl | hmem
    · -- the task's own entry is the one that is removed
      rw [hc] at ht'
      have := token_cancelActive (hI.registered.entry t b ht) t
      rw [if_pos rfl, ht] at this
      exact absurd (ht'.symm.trans this) (by simp)
    · exact hmem

theorem step_watched (hI : Watched t b s) (hG : DispatchesOnce s a)
    (hb : s.db.status b = some .cancelled) (h : step cfg s a = some s') : Watched t b s' where
  registered := step_registered hI.registered hG h
  old := lt_of_lt_of_le hI.old (step_nextTask h)
  build b' c ht := by
    obtain ⟨c₀, h₀, -⟩ := token_of_step h hI.old ht
    exact hI.build b' c₀ h₀
  listed ht ids hids := by
    obtain ⟨c₀, h₀, hc⟩ := token_of_step h hI.old ht
    rw [hc rfl] at h₀
    rcases step_checker h with heq | heq | rfl
    · exact hI.listed h₀ ids (heq ▸ hids)
    · simp [heq] at hids
    · exact hI.checkerStep hb h₀ ht hids

end Step

theorem token_of_task {s : State} {t : ℕ} {task : Task} (h : s.task t = some task) (hc : task.cancelled = false) :
    s.token t = some (task.build.id, false) := by
  rw [State.token, h, ← hc]
  rfl

/-- **The registry.** In every state of a run in which a build is dispatched
only when no task for it is left: a task that has not been cancelled is
registered under its own token; the orphan sweep leaves its build alone; and
a tick of the cancel checker that begins here, while its build is cancelled,
has cancelled it when it is through its list, if the task is still there. -/
theorem registry {cfg : Config} {s₀ s : State} {as : List Action} (h₀ : Fresh cfg s₀)
    (hG : Along (step cfg) DispatchesOnce s₀ as) (h : exec (step cfg) s₀ as = some s) (t : ℕ) (task : Task)
    (ht : s.task t = some task) (hc : task.cancelled = false) :
    s.activeBuilds.lookup task.build.id = some t ∧
    (∀ ids atBoot, s.loop.phase = .sweeping ids atBoot →
      (Builds.resetOrphaned s.now 300 ids s.db).builds.get task.build.id = s.db.builds.get task.build.id) ∧
    (s.checker = .idle → ∀ bs s', Along (step cfg) (fun s a => DispatchesOnce s a ∧
        s.db.status task.build.id = some .cancelled) s bs → exec (step cfg) s bs = some s' →
      s'.checker = .removing [] → ∀ task', s'.task t = some task' → task'.cancelled = true) := by
  have hI : Registered s := exec_inv (fun _ _ _ hI hG h => step_registered hI hG h) h₀.registered hG h
  have htok := token_of_task ht hc
  refine ⟨hI.entry t _ htok, fun ids atBoot hp => hI.sweep_spares hp htok, fun hidle bs s' hbs hs' hend task' ht' => ?_⟩
  have hW₀ : Watched t task.build.id s :=
    ⟨hI, hI.old t _ _ htok, fun b' c h => by rw [htok] at h; cases h; rfl, fun _ ids hids => by simp [hidle] at hids⟩
  have hW : Watched t task.build.id s' :=
    exec_inv (fun _ _ _ hI hP h => step_watched hI hP.1 hP.2 h) hW₀ hbs hs'
  by_contra hc'
  have htok' := token_of_task ht' (by simpa using hc')
  have hb := hW.build _ _ htok'
  rw [hb] at htok'
  simpa using hW.listed htok' [] (Or.inr hend)

/-- The build of a live task is cancelled, and the checker ticks. -/
theorem registry_cancelled :
    ∃ s ∈ exec (step {}) (.start {} oneBuild) (loops 12 ++ claims 0 ++ [.cancel 1]),
      s.Live 0 1 ∧ s.activeBuilds.lookup 1 = some 0 ∧
      ∃ s' ∈ exec (step {}) s [.checker, .checker, .checker], ∀ task' ∈ s'.task 0, task'.cancelled = true := by
  obtain ⟨s, hs, hl, hidle, task, ht, hid, hc, s', hs', hG, hend⟩ :
      ∃ s ∈ exec (step {}) (.start {} oneBuild) (loops 12 ++ claims 0 ++ [.cancel 1]),
        s.Live 0 1 ∧ s.checker = .idle ∧ ∃ task ∈ s.task 0, task.build.id = 1 ∧ task.cancelled = false ∧
        ∃ s' ∈ exec (step {}) s [.checker, .checker, .checker],
          Along (step {}) (fun s a => DispatchesOnce s a ∧ s.db.status task.build.id = some .cancelled) s
            [.checker, .checker, .checker] ∧ s'.checker = .removing [] := by decide
  obtain ⟨h1, -, h3⟩ := registry (fresh_start {} oneBuild) (by decide) hs 0 task ht hc
  exact ⟨s, hs, hl, hid ▸ h1, s', hs', h3 hidle _ s' hG hs' hend⟩

/-- The build is dispatched on two polls while the first task waits; the first
task then claims it and runs unregistered. -/
theorem second_dispatch_unregisters : Fresh {} (.start {} oneBuild) ∧
    ∃ s ∈ exec (step {}) (.start {} oneBuild) (loops 12 ++ loops 11 ++ claims 0),
      s.Live 0 1 ∧ (∀ task ∈ s.task 0, task.cancelled = false) ∧ s.activeBuilds.lookup 1 = some 1 :=
  ⟨fresh_start {} oneBuild, by decide⟩

end Circus.Runner
