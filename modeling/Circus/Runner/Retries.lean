/-
# Automatic retries

`run_build` retries a failed build while `retry_count < max_retries`, but it
reads both from the copy of the row the build was dispatched with. As long as
a copy's count is the row's when the task retries (`CountsRow`), every `retry`
uses up one of the build's `max_retries`, and there are no more of them until
the operator restarts the build: `bounded_retries`.

A copy goes stale when the build is dispatched once more while a task for it
waits: each of the tasks then retries on the same count, and
`stale_copies_retry` is a run with more retries than the build has.
-/
import Circus.Runner.Tasks

namespace Circus.Runner

open Lts

/-- The task whose report of a failure is a `retry`. -/
def retrying (s : State) : Action → Option Task
  | .task t (.report (.failure _ _ _)) =>
    (s.task t).filter fun task => decide (task.build.retryCount < task.build.maxRetries)
  | _ => none

/-- The step is a `retry` of build `k`. -/
def retries (k : Uuid) (s : State) (a : Action) : Bool :=
  (retrying s a).any fun task => decide (task.build.id = k)

/-- A task retries build `k` only on the row's own count. -/
def CountsRow (k : Uuid) (s : State) (a : Action) : Prop :=
  ∀ task ∈ retrying s a, task.build.id = k → (s.db.builds.get k).map (·.retryCount) = some task.build.retryCount

instance (k : Uuid) (s : State) (a : Action) : Decidable (CountsRow k s a) :=
  inferInstanceAs (Decidable (∀ task ∈ retrying s a, _))

section Retries

variable {cfg : Config} {s s' : State} {a : Action} {k : Uuid}

theorem retrying_eq_some {task : Task} : retrying s a = some task ↔
    ∃ t exitCode stderr logPath, a = .task t (.report (.failure exitCode stderr logPath)) ∧ s.task t = some task ∧
      task.build.retryCount < task.build.maxRetries := by
  constructor
  · intro h
    unfold retrying at h
    split at h
    · rename_i t c e l
      obtain ⟨ht, hr⟩ := Option.filter_eq_some_iff.mp h
      exact ⟨t, c, e, l, rfl, ht, of_decide_eq_true hr⟩
    · cases h
  · rintro ⟨t, c, e, l, rfl, ht, hr⟩
    exact Option.filter_eq_some_iff.mpr ⟨ht, decide_eq_true hr⟩

theorem retries_iff : retries k s a = true ↔ ∃ task, retrying s a = some task ∧ task.build.id = k := by
  simp [retries, Option.any_eq_true]

/-- What is counted is the statement `retry`. -/
theorem db_of_retrying {task : Task} (h : step cfg s a = some s') (hr : retrying s a = some task) :
    s'.db = Builds.retry task.build.id s.db := by
  obtain ⟨t, c, e, l, rfl, ht, hr⟩ := retrying_eq_some.mp hr
  simp only [step, ht, Option.bind_some, State.taskStep, report, if_pos hr] at h
  split at h
  · cases h; rfl
  · cases h

theorem retryCount_of_step (h : step cfg s a = some s') (hr : retries k s a = false) (ha : a ≠ .restart k) :
    (s'.db.builds.get k).map (·.retryCount) = (s.db.builds.get k).map (·.retryCount) := by
  rcases step_row h k with heq | ⟨b, b', hb, hb', hm⟩
  · rw [heq]
  · rw [hb, hb', Option.map_some, Option.map_some]
    congr 1
    cases hm with
    | retry t task c e l _ ha' ht _ hk hlt =>
      have : retries k s a = true := retries_iff.mpr ⟨task, retrying_eq_some.mpr ⟨t, c, e, l, ha', ht, hlt⟩, hk⟩
      rw [hr] at this
      cases this
    | restart _ ha' => exact absurd ha' ha
    | requeue | cancel | supersede =>
      simp only [Build.requeue, Build.cancel, Build.cancelSuperseded]
      split <;> rfl
    | features | claim | doneStart | complete | doneComplete | sweep => rfl

def retriesLeft (k : Uuid) (s : State) : ℕ := (s.db.builds.get k).elim 0 fun b => b.maxRetries - b.retryCount

theorem retriesLeft_of_get {b : Build} (h : s.db.builds.get k = some b) :
    retriesLeft k s = b.maxRetries - b.retryCount := by
  rw [retriesLeft, h, Option.elim_some]

/-- A `retry` takes one of them, -/
theorem retriesLeft_of_retrying (hc : Copies s) (hg : CountsRow k s a) (h : step cfg s a = some s') {task : Task}
    (hr : retrying s a = some task) (hk : task.build.id = k) : retriesLeft k s' + 1 = retriesLeft k s := by
  obtain ⟨b, hb, hcount⟩ := Option.map_eq_some_iff.mp (hg task hr hk)
  obtain ⟨t, -, -, -, -, ht, hlt⟩ := retrying_eq_some.mp hr
  -- the copy has the row's count by the guard, and its limit because it is a copy
  have hjob : b.toJob = task.build.toJob := by
    simpa [IsCopy, Db.job, hk, hb] using hc.tasks t task ht
  have hb' : s'.db.builds.get k = some b.retry := by
    rw [db_of_retrying h hr, Builds.retry, Db.get_updateBuild, if_pos hk.symm, hb, Option.map_some]
  rw [retriesLeft_of_get hb, retriesLeft_of_get hb']
  have hmax : b.maxRetries = task.build.maxRetries := by rw [hjob]
  have : b.retry.maxRetries = b.maxRetries := rfl
  have : b.retry.retryCount = b.retryCount + 1 := rfl
  omega

/-- and no other step but a `restart` changes them. -/
theorem retriesLeft_of_step (hr : retries k s a = false) (ha : a ≠ .restart k) (h : step cfg s a = some s') :
    retriesLeft k s' = retriesLeft k s := by
  have hcount := retryCount_of_step h hr ha
  have hjob := (step_frame h).job k
  unfold Db.job at hjob
  cases hb : s.db.builds.get k with
  | none =>
    rw [hb] at hcount
    rw [retriesLeft, retriesLeft, hb, Option.map_eq_none_iff.mp hcount]
  | some =>
    rw [hb] at hcount hjob
    obtain ⟨b', hb', hc⟩ := Option.map_eq_some_iff.mp hcount
    obtain ⟨b'', hb'', hj⟩ := Option.map_eq_some_iff.mp hjob
    rw [retriesLeft_of_get hb, retriesLeft_of_get hb', hc]
    cases hb'.symm.trans hb''
    rw [hj]

theorem step_retriesLeft (hc : Copies s) (hg : CountsRow k s a) (ha : a ≠ .restart k) (h : step cfg s a = some s') :
    retriesLeft k s' + (if retries k s a then 1 else 0) ≤ retriesLeft k s := by
  by_cases hr : retries k s a = true
  · obtain ⟨task, ht, hk⟩ := retries_iff.mp hr
    rw [if_pos hr, retriesLeft_of_retrying hc hg h ht hk]
  · rw [if_neg hr, Nat.add_zero, retriesLeft_of_step (Bool.not_eq_true _ ▸ hr) ha h]

/-- **Bounded retries.** Between two restarts of a build there are at most
`max_retries` retries, if each is decided on the row's count. -/
theorem bounded_retries {s₀ : State} (h₀ : Fresh cfg s₀) {as bs : List Action} (hs : exec (step cfg) s₀ as = some s)
    (hs' : exec (step cfg) s bs = some s') (hg : Along (step cfg) (CountsRow k) s bs) (ha : ∀ a ∈ bs, a ≠ .restart k)
    {b : Build} (hb : s.db.builds.get k = some b) : count (step cfg) (retries k) s bs ≤ b.maxRetries := by
  have hc : Copies s := exec_copies h₀.copies hs
  have hle : count (step cfg) (retries k) s bs ≤ retriesLeft k s :=
    count_le (retriesLeft k)
      (fun s a s' hc (hP : CountsRow k s a ∧ a ≠ .restart k) h => ⟨step_copies hc h, step_retriesLeft hc hP.1 hP.2 h⟩)
      hc (hg.and (.of_mem fun a h _ => ha a h)) hs'
  rw [retriesLeft_of_get hb] at hle
  omega

end Retries

/-- Task `t` claims its build, fails and ends. -/
def fails (t : ℕ) : List Action :=
  claims t ++ [.task t (.report (.failure (some 1) "" none)), .task t .proceed, .task t .remove]

theorem bounded_retries_once : ∃ s ∈ exec (step {}) (.start {} oneBuild) (loops 12 ++ fails 0),
    s.db.status 1 = some .pending ∧ count (step {}) (retries 1) (.start {} oneBuild) (loops 12 ++ fails 0) = 1 ∧
      count (step {}) (retries 1) (.start {} oneBuild) (loops 12 ++ fails 0) ≤ 3 := by
  obtain ⟨s, hs, h1, h2⟩ : ∃ s ∈ exec (step {}) (.start {} oneBuild) (loops 12 ++ fails 0),
      s.db.status 1 = some .pending ∧ count (step {}) (retries 1) (.start {} oneBuild) (loops 12 ++ fails 0) = 1 := by
    decide
  refine ⟨s, hs, h1, h2, ?_⟩
  exact bounded_retries (k := 1) (fresh_start {} oneBuild) (exec_nil (step {}) _) hs (by decide)
    (fun a ha h => by subst h; revert ha; simp [loops, fails, claims]) rfl

/-- Four polls dispatch the waiting build, and each of the tasks retries it. -/
theorem stale_copies_retry : Fresh {} (.start {} oneBuild) ∧
    (∃ b, oneBuild.builds.get 1 = some b ∧ b.maxRetries = 3) ∧
    (exec (step {}) (.start {} oneBuild) (loops 45 ++ fails 0 ++ fails 1 ++ fails 2 ++ fails 3)).isSome = true ∧
    count (step {}) (retries 1) (.start {} oneBuild) (loops 45 ++ fails 0 ++ fails 1 ++ fails 2 ++ fails 3) = 4 := by
  exact ⟨fresh_start {} oneBuild, ⟨_, rfl, rfl⟩, by decide, by decide⟩

end Circus.Runner
