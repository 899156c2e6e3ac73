/-
# The runner refines the row protocol

Seen from one build, a run of the queue runner is a run of the row protocol:
`Shows k s r` says that the runner's state `s` shows build `k` as `r`, and
`step_shows` matches every step of the runner by at most one statement on the
row. So `RowProtocol` is about the runner's builds, and a run without a
restart of `k` stays one without a restart (`exec_shows`).
-/
import Circus.RowProtocol
import Circus.Runner.Tasks

namespace Circus.Runner

open Lts

/-- The runner's state `s` shows build `k` as `r`. -/
structure Shows (k : Uuid) (s : State) (r : RowProtocol.State) : Prop where
  row : s.db.builds.get k = some r.row
  now : r.now = s.now
  claimed : ∀ t task, s.task t = some task → task.build.id = k → task.phase = .executing → r.claimed t = true
  listed : ∀ b, b ∈ s.loop.rest ∨ s.loop.phase.current = some b → b.id = k → r.listed 0 = true
  marking : ∀ b c, s.loop.phase = .doneComplete b c → b.id = k → r.marking 0 = true

section Shows

variable {cfg : Config} {k : Uuid} {s s' : State} {a : Action} {r : RowProtocol.State}

theorem Shows.fresh {b : Build} (h : Fresh cfg s) (hb : s.db.builds.get k = some b) :
    Shows k s { row := b, now := s.now } where
  row := hb
  now := rfl
  claimed t task ht := by simp [State.task, h.tasks] at ht
  listed b' hb' := by simp [h.rest, h.loop, LoopPhase.current] at hb'
  marking b' c hp := by simp [h.loop] at hp

/-- A task that executes `k` after a step did so before, or has just claimed
it. -/
theorem executing_of_step (h : step cfg s a = some s') {t : ℕ} {task' : Task} (ht' : s'.task t = some task')
    (hk : task'.build.id = k) (hp : task'.phase = .executing) :
    (∃ task, s.task t = some task ∧ task.build.id = k ∧ task.phase = .executing) ∨
      ∃ free task, a = .task t (.claim free) ∧ s.task t = some task ∧ task.phase = .claiming ∧
        s.db.status k = some .pending ∧ s'.db.status k = some .running := by
  rcases task_of_step h ht' with ⟨task, ht, hj, -, ⟨hp', -⟩ | ⟨ev, ha, hm⟩⟩ | ⟨_, _, _, _, _, rfl⟩
  · exact .inl ⟨task, ht, by rw [← hj, hk], by rw [← hp', hp]⟩
  · rw [hj] at hk
    rcases (hp ▸ hm).to_executing with ⟨free, rfl, hc, hs⟩ | ⟨he, -⟩
    · exact .inr ⟨free, task, ha, ht, hc, hk ▸ hs⟩
    · exact .inl ⟨task, ht, hk, he⟩
  · cases hp

/-- The loop is between the statements of `mark_build_done` after its own step
only if it was before them. -/
theorem marking_of_loop (h : LoopMove s s') {b : Build} {c : Completion} (hp : s'.loop.phase = .doneComplete b c) :
    s.loop.phase = .doneStart b c := by
  cases h with
  | quiet _ h =>
    cases h with
    | pass l _ hl =>
      simp only at hp
      rw [hp] at hl
      generalize hq : s.loop.phase = q at hl
      cases hl
      rfl
    | take l b' iv _ _ hl =>
      have := firstFilter_current iv b'
      simp only [hl, firstFilter] at hp
      split_ifs at hp
  | list l _ _ _ hl => simp [hl] at hp
  | sweep _ _ l _ _ hl => rcases hl with hl | hl <;> simp [hl] at hp
  | dispatch | doneComplete => cases hp
  | doneStart b' c' free h => cases hp; exact h

/-- What the state `r'` has to be for `s'` to show it, after the step `a` from
`s`, which shows `r`: the row is the same, a task that claimed it is entered,
and the loop's listing and its `mark_build_done` are followed. -/
structure Follows (k : Uuid) (s : State) (a : Action) (s' : State) (r r' : RowProtocol.State) : Prop where
  row : s'.db.builds.get k = some r'.row
  now : r'.now = s'.now
  claimed : ∀ t, r.claimed t = true → r'.claimed t = true
  claims : ∀ t task free, a = .task t (.claim free) → s.task t = some task → task.phase = .claiming →
    s'.db.status k ≠ s.db.status k → r'.claimed t = true
  listed : r.listed 0 = true → r'.listed 0 = true
  lists : a.isLoop = true → s.loop.phase = .list → (∃ b ∈ s'.loop.rest, b.id = k) → r'.listed 0 = true
  marking : a.isLoop = false → r'.marking = r.marking
  marks : a.isLoop = true → ∀ b c, s.loop.phase = .doneStart b c → b.id = k → r'.marking 0 = true

theorem Follows.shows {r' : RowProtocol.State} (h : Shows k s r) (hs : step cfg s a = some s')
    (hf : Follows k s a s' r r') : Shows k s' r' where
  row := hf.row
  now := hf.now
  claimed t task ht hk hp := by
    rcases executing_of_step hs ht hk hp with ⟨task₀, h1, h2, h3⟩ | ⟨free, task₀, ha, h1, h2, h3, h4⟩
    · exact hf.claimed t (h.claimed t task₀ h1 h2 h3)
    · exact hf.claims t task₀ free ha h1 h2 (by simp [h3, h4])
  listed b hb hk := by
    rcases step_loop hs with ⟨hm, ha⟩ | ⟨hm, -⟩
    · rcases hb with hb | hb
      · rcases (loop_builds hm).1 b hb with hb' | ⟨-, -, hp⟩
        · exact hf.listed (h.listed b (Or.inl hb') hk)
        · exact hf.lists ha hp ⟨b, hb, hk⟩
      · exact hf.listed (h.listed b ((loop_builds hm).2 b hb).symm hk)
    · exact hf.listed (h.listed b (hm ▸ hb) hk)
  marking b c hp hk := by
    rcases step_loop hs with ⟨hm, ha⟩ | ⟨hm, ha⟩
    · exact hf.marks ha b c (marking_of_loop hm hp) hk
    · rw [hf.marking ha]
      exact h.marking b c (hm ▸ hp) hk

/-- Only the row changes, by a step that is neither a claim nor one of the
loop's that is followed otherwise. -/
theorem Follows.of_row (h : Shows k s r) {b : Build} (hrow : s'.db.builds.get k = some b) (hnow : s'.now = s.now)
    (hc : ∀ t task free, a = .task t (.claim free) → s.task t = some task → task.phase = .claiming →
      s'.db.status k = s.db.status k)
    (hl : a.isLoop = true → s.loop.phase ≠ .list ∧ ∀ b c, s.loop.phase ≠ .doneStart b c) :
    Follows k s a s' r { r with row := b } where
  row := hrow
  now := h.now.trans hnow.symm
  claimed _ hr := hr
  claims t task free ha ht hp hne := absurd (hc t task free ha ht hp) hne
  listed hr := hr
  lists ha hp _ := absurd hp (hl ha).1
  marking _ := rfl
  marks ha b c hp _ := absurd hp ((hl ha).2 b c)

/-- **A move of the row is a statement of the row protocol.** -/
theorem RowMove.follows (h : Shows k s r) {b' : Build} (hm : RowMove cfg s a k r.row b')
    (hb' : s'.db.builds.get k = some b') (hnow : s'.now = s.now) :
    ∃ act r', RowProtocol.step r act = some r' ∧ Follows k s a s' r r' ∧ (act = .restart → a = .restart k) := by
  generalize hb : r.row = b at hm
  cases hm with
  | features t task computed persisted fs _ ha =>
    subst ha hb
    exact ⟨.setEffectiveFeatures fs, _, rfl,
      .of_row h hb' hnow (fun _ _ _ h => by cases h) (fun h => by cases h), by simp⟩
  | claim t task free b ha ht hp hk hst =>
    subst ha hb
    refine ⟨.start t true, { r with row := r.row.claim r.now, claimed := Function.update r.claimed t true }, ?_,
      ⟨by rw [h.now]; exact hb', h.now.trans hnow.symm, fun t' ht' => ?_, fun t' _ _ ha' _ _ _ => ?_, id,
        (fun h => by cases h), fun _ => rfl, fun h => by cases h⟩, by simp⟩
    · simp [RowProtocol.step, RowProtocol.started, hst]
    · by_cases htt : t' = t <;> simp [Function.update, htt, ht']
    · cases ha'
      simp
  | doneStart env b₀ c free b ha hp hk hst =>
    subst ha hb
    refine ⟨.markStart 0 true, { r with row := r.row.claim r.now, marking := Function.update r.marking 0 true }, ?_,
      ⟨by rw [h.now]; exact hb', h.now.trans hnow.symm, fun _ ht => ht, (fun _ _ _ h => by cases h), id,
        fun _ hl => ?_, (fun h => by cases h), fun _ _ _ _ _ => by simp⟩, by simp⟩
    · have hl : r.listed 0 = true := h.listed b₀ (Or.inr (by rw [hp]; rfl)) hk
      simp [RowProtocol.step, RowProtocol.started, hst, hl]
    · rw [hp] at hl
      cases hl
  | requeue t task ev b ha ht hp =>
    subst ha hb
    refine ⟨.requeue, _, rfl, .of_row h hb' hnow (fun t' task' free ha ht' hp' => ?_) ?_, by simp⟩
    · cases ha
      rw [ht] at ht'
      cases ht'
      rw [hp] at hp'
      cases hp'
    · intro hl
      cases hl
  | retry t task c e l b ha ht hp hk =>
    subst ha hb
    exact ⟨.retry t, _, if_pos (h.claimed t task ht hk hp),
      .of_row h hb' hnow (fun _ _ _ h => by cases h) (fun h => by cases h), by simp⟩
  | complete t task o st l out e b ha ht hp hk hf =>
    subst ha hb
    rw [← h.now] at hb'
    exact ⟨.complete t ⟨st, l, out, e, hf⟩, _, if_pos (h.claimed t task ht hk hp),
      .of_row h hb' hnow (fun _ _ _ h => by cases h) (fun h => by cases h), by simp⟩
  | doneComplete env b₀ c b ha hp hk =>
    subst ha hb
    rw [← h.now] at hb'
    refine ⟨.markComplete 0 c, _, if_pos (h.marking b₀ c hp hk),
      ⟨hb', h.now.trans hnow.symm, fun _ ht => ht, (fun _ _ _ h => by cases h), id, fun _ hl => ?_,
        (fun h => by cases h), fun _ _ _ hd => ?_⟩, by simp⟩
    · rw [hp] at hl
      cases hl
    · rw [hp] at hd
      cases hd
  | cancel b ha =>
    subst ha hb
    rw [← h.now] at hb'
    exact ⟨.cancel, _, rfl, .of_row h hb' hnow (fun _ _ _ h => by cases h) (fun h => by cases h), by simp⟩
  | supersede e j sc b ha =>
    subst ha hb
    rw [← h.now] at hb'
    exact ⟨.cancelSuperseded e, _, rfl, .of_row h hb' hnow (fun _ _ _ h => by cases h) (fun h => by cases h), by simp⟩
  | sweep env ids atBoot b ha hp hk ho =>
    subst ha hb
    rw [← h.now] at ho
    refine ⟨.resetOrphaned 300, { r with row := r.row.resetOrphaned }, by simp [RowProtocol.step, ho],
      .of_row h hb' hnow (fun _ _ _ h => by cases h) fun _ => ⟨?_, fun _ _ => ?_⟩, by simp⟩ <;> rw [hp] <;> simp
  | restart b ha =>
    subst ha hb
    exact ⟨.restart, _, rfl, .of_row h hb' hnow (fun _ _ _ h => by cases h) (fun h => by cases h), fun _ => rfl⟩

/-- A step that leaves the row is matched by the loop's listing, by a
`mark_build_done` whose `start` finds nothing, or by no statement. -/
theorem follows_unmoved (h : Shows k s r) (hs : step cfg s a = some s')
    (heq : s'.db.builds.get k = s.db.builds.get k) (hnow : s'.now = s.now) :
    ∃ bs r', exec RowProtocol.step r bs = some r' ∧ Follows k s a s' r r' ∧ .restart ∉ bs := by
  have hrow : s'.db.builds.get k = some r.row := heq.trans h.row
  have hst : s'.db.status k = s.db.status k := by rw [Db.status, heq, Db.status]
  have hnone : ∀ t task free, a = .task t (.claim free) → s.task t = some task → task.phase = .claiming →
      s'.db.status k ≠ s.db.status k → r.claimed t = true := fun _ _ _ _ _ _ hne => absurd hst hne
  by_cases hl : a.isLoop = true ∧ s.loop.phase = .list ∧ ∃ b ∈ s'.loop.rest, b.id = k
  · obtain ⟨ha, hp, b, hb, hk⟩ := hl
    have hnd : ∀ b c, s.loop.phase ≠ .doneStart b c := by rw [hp]; exact fun _ _ h => by cases h
    have hnl : ∀ {r' : RowProtocol.State}, a.isLoop = false → r'.marking = r.marking := fun h => by simp [ha] at h
    rcases step_loop hs with ⟨hm, -⟩ | ⟨-, hf⟩
    · rcases (loop_builds hm).1 b hb with hb | ⟨hb, -, -⟩
      · have hlisted := h.listed b (Or.inl hb) hk
        exact ⟨[], r, rfl, ⟨hrow, h.now.trans hnow.symm, fun _ => id, hnone, id, fun _ _ _ => hlisted, hnl,
          fun _ b c hd => absurd hd (hnd b c)⟩, by simp⟩
      · obtain ⟨hmem, hpend, -⟩ := Builds.mem_eligiblePending.mp hb
        have hr : b = r.row := Option.some.inj ((Db.get_of_mem hmem).symm.trans (hk ▸ h.row))
        refine ⟨[.list 0], { r with listed := Function.update r.listed 0 true }, ?_,
          ⟨hrow, h.now.trans hnow.symm, fun _ => id, hnone, fun _ => by simp, fun _ _ _ => by simp, hnl,
            fun _ b c hd => absurd hd (hnd b c)⟩, by simp⟩
        simp [exec, RowProtocol.step, ← hr, hpend]
    · simp [ha] at hf
  · by_cases hd : a.isLoop = true ∧ ∃ b c, s.loop.phase = .doneStart b c ∧ b.id = k
    · obtain ⟨ha, b, c, hp, hk⟩ := hd
      have hlisted := h.listed b (Or.inr (by rw [hp]; rfl)) hk
      refine ⟨[.markStart 0 false], { r with marking := Function.update r.marking 0 true }, ?_,
        ⟨hrow, h.now.trans hnow.symm, fun _ => id, hnone, id, fun _ hp' => ?_, fun h => ?_, fun _ _ _ _ _ => by simp⟩,
        by simp⟩
      · simp [exec, RowProtocol.step, RowProtocol.started, hlisted]
      · rw [hp] at hp'
        cases hp'
      · simp [ha] at h
    · exact ⟨[], r, rfl, ⟨hrow, h.now.trans hnow.symm, fun _ => id, hnone, id,
        fun ha hp he => absurd ⟨ha, hp, he⟩ hl, fun _ => rfl,
        fun ha b c hp hk => absurd ⟨ha, b, c, hp, hk⟩ hd⟩, by simp⟩

/-- **A step of the runner is matched on each build's row.** -/
theorem step_shows (h : Shows k s r) (hs : step cfg s a = some s') :
    ∃ bs r', exec RowProtocol.step r bs = some r' ∧ Shows k s' r' ∧ (a ≠ .restart k → .restart ∉ bs) := by
  rcases step_now hs with hnow | ⟨secs, -, rfl⟩
  · rcases step_row hs k with heq | ⟨b, b', hb, hb', hm⟩
    · obtain ⟨bs, r', hbs, hf, hr⟩ := follows_unmoved h hs heq hnow
      exact ⟨bs, r', hbs, hf.shows h hs, fun _ => hr⟩
    · obtain rfl : r.row = b := Option.some.inj (h.row.symm.trans hb)
      obtain ⟨act, r', hact, hf, hr⟩ := hm.follows h hb' hnow
      refine ⟨[act], r', (exec_cons _).mpr ⟨r', hact, rfl⟩, hf.shows h hs, fun ha hmem => ha (hr ?_)⟩
      exact (List.mem_singleton.mp hmem).symm
  · exact ⟨[.tick secs], { r with now := r.now + secs }, rfl,
      ⟨h.row, by simp [h.now], h.claimed, h.listed, h.marking⟩, by simp⟩

/-- **Every run of the runner is a run of the row protocol** on each of its
builds, without a restart if it restarts the build nowhere. -/
theorem exec_shows {as : List Action} (h : Shows k s r) (hr : .restart k ∉ as)
    (hs : exec (step cfg) s as = some s') :
    ∃ bs r', exec RowProtocol.step r bs = some r' ∧ Shows k s' r' ∧ .restart ∉ bs := by
  obtain ⟨bs, r', hbs, hr', hQ⟩ := exec_sim (P := fun a : Action => a ≠ .restart k)
    (Q := fun b : RowProtocol.Action => b ≠ .restart)
    (fun s a s' r h ha hs => by
      obtain ⟨bs, r', hbs, hr', hQ⟩ := step_shows h hs
      exact ⟨bs, r', hbs, hr', fun b hb hn => hQ ha (hn ▸ hb)⟩) h (fun a ha hn => hr (hn ▸ ha)) hs
  exact ⟨bs, r', hbs, hr', fun hb => hQ _ hb rfl⟩

theorem exec_shows_succeeded : ∃ s ∈ exec (step {}) (.start {} oneBuild) (loops 12 ++ claims 0 ++ succeeds 0 5),
    ∃ bs r, exec RowProtocol.step { row := RowProtocol.demoRow } bs = some r ∧ Shows 1 s r ∧ .restart ∉ bs := by
  have h₀ : Shows 1 (.start {} oneBuild) { row := RowProtocol.demoRow } := .fresh (fresh_start {} oneBuild) rfl
  have hr : .restart 1 ∉ loops 12 ++ claims 0 ++ succeeds 0 5 := by simp [loops, claims, succeeds]
  exact ⟨_, rfl, @exec_shows {} 1 _ _ _ _ h₀ hr rfl⟩

end Shows

end Circus.Runner
