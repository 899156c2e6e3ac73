/-
# Dependency order

`list_pending` and the loop look at the dependencies of a build; `start` does
not. Between the loop's check and the task's `start` the build relies on its
dependencies staying succeeded. `dependency_order`: when a task's `start`
makes a build running all its dependencies have succeeded, in every run in
which no statement takes a succeeded build on which another one relies out of
that status (`KeepsDependencies`). Only `restart`, and a `retry` or
`complete` that comes after the success, can do that.

`restarted_dependency` restarts a dependency while its dependent waits.
-/
import Circus.Runner.Tasks

namespace Circus.Runner

open Lts

/-- Nobody relies on the dependencies of build `b`: it is not between the
loop's check and a task's `start`. -/
def State.Unrelied (s : State) (b : Uuid) : Prop :=
  (∀ b' ∈ s.loop.phase.passed, b'.id ≠ b) ∧
    ∀ t task, s.task t = some task → task.build.id = b → task.phase.isWaiting = false

instance (s : State) (b : Uuid) : Decidable (s.Unrelied b) := by
  unfold State.Unrelied; infer_instance

/-- If build `d` has succeeded, nobody relies on it. -/
def State.MayLeave (s : State) (d : Uuid) : Prop :=
  s.db.status d = some .succeeded → ∀ e ∈ s.db.buildDependencies, e.2 = d → s.Unrelied e.1

instance (s : State) (d : Uuid) : Decidable (s.MayLeave d) := by
  unfold State.MayLeave; infer_instance

/-- The step takes no build on which another one relies out of its success. -/
def KeepsDependencies (s : State) (a : Action) : Prop := ∀ d ∈ overwritten s a, s.MayLeave d

instance (s : State) (a : Action) : Decidable (KeepsDependencies s a) :=
  inferInstanceAs (Decidable (∀ d ∈ overwritten s a, s.MayLeave d))

/-- The builds that rely on their dependencies can. -/
structure Reliable (s : State) : Prop where
  passed : ∀ b ∈ s.loop.phase.passed, BuildDependencies.allDepsCompleted b.id s.db = true
  waiting : ∀ t task, s.task t = some task → task.phase.isWaiting = true →
    BuildDependencies.allDepsCompleted task.build.id s.db = true

theorem Fresh.reliable {cfg : Config} {s : State} (h : Fresh cfg s) : Reliable s where
  passed b hb := by simp [h.loop, LoopPhase.passed] at hb
  waiting t task ht := by simp [State.task, h.tasks] at ht

section Step

variable {cfg : Config} {s s' : State} {a : Action}

/-- A build that relies on its dependencies still can after the step. -/
theorem depsCompleted_step (hG : KeepsDependencies s a) (h : step cfg s a = some s') {b : Uuid}
    (hb : BuildDependencies.allDepsCompleted b s.db = true) (hr : ¬ s.Unrelied b) :
    BuildDependencies.allDepsCompleted b s'.db = true := by
  rw [BuildDependencies.allDepsCompleted_iff] at hb ⊢
  intro d hd
  rw [(step_frame h).buildDependencies] at hd
  rcases succeeded_of_step h (hb d hd) with hs | ho
  · exact hs
  · exact absurd (hG d ho (hb d hd) (b, d) hd rfl) hr

/-- The loop has passed a build's dependencies after a step only if it had
before, or has just checked them. -/
theorem passed_of_step (h : step cfg s a = some s') {b : Build} (hb : b ∈ s'.loop.phase.passed) :
    b ∈ s.loop.phase.passed ∨ BuildDependencies.allDepsCompleted b.id s.db = true ∧ s'.db = s.db := by
  rcases step_loop h with ⟨hm, -⟩ | ⟨hl, -⟩
  · cases hm with
    | quiet _ hq =>
      cases hq with
      | pass l _ hp =>
        simp only at hb
        generalize s.loop.phase = q at hp
        generalize l.phase = r at hp hb
        cases hp with
        | depsDone b' hd => cases hb; exact .inr ⟨hd, rfl⟩
        | supported | free => exact .inl hb
        | _ => cases hb
      | take l b' iv _ _ hp =>
        simp only [hp, firstFilter] at hb
        split_ifs at hb <;> cases hb
    | list l _ _ _ hp => simp only [hp] at hb; cases hb
    | sweep _ _ l _ _ hp => rcases hp with hp | hp <;> simp only [hp] at hb <;> cases hb
    | dispatch | doneStart | doneComplete => cases hb
  · exact .inl (hl ▸ hb)

theorem step_reliable (hI : Reliable s) (hG : KeepsDependencies s a) (h : step cfg s a = some s') : Reliable s' where
  passed b hb := by
    rcases passed_of_step h hb with hb | ⟨hd, hdb⟩
    · exact depsCompleted_step hG h (hI.passed b hb) fun hu => hu.1 b hb rfl
    · rw [hdb]
      exact hd
  waiting t task' ht' hw := by
    rcases task_of_step h ht' with ⟨task, ht, hj, -, hm⟩ | ⟨env, b, rfl, hp, -, rfl⟩
    · have hw₀ : task.phase.isWaiting = true := by
        rcases hm with ⟨hp, -⟩ | ⟨ev, -, hm⟩
        · rw [← hp, hw]
        · exact (hm.to_waiting hw).1
      rw [hj]
      refine depsCompleted_step hG h (hI.waiting t task ht hw₀) fun hu => ?_
      rw [hu.2 t task ht rfl] at hw₀
      cases hw₀
    · have hb : b ∈ s.loop.phase.passed := by rw [hp]; rfl
      exact depsCompleted_step hG h (hI.passed b hb) fun hu => hu.1 b hb rfl

end Step

/-- **Dependency order.** In a run in which no succeeded build leaves its
status while another relies on it, every dependency of a build has succeeded
when a task's `start` makes the build running. -/
theorem dependency_order {cfg : Config} {s₀ s s' : State} {as : List Action} {t : ℕ} {free : Bool} {b : Uuid}
    (h₀ : Fresh cfg s₀) (hG : Along (step cfg) KeepsDependencies s₀ as) (h : exec (step cfg) s₀ as = some s)
    (hs : step cfg s (.task t (.claim free)) = some s') (hp : s.db.status b = some .pending)
    (hr : s'.db.status b = some .running) (d : Uuid) (hd : (b, d) ∈ s.db.buildDependencies) :
    s.db.status d = some .succeeded := by
  have hI : Reliable s := exec_inv (fun _ _ _ hI hG h => step_reliable hI hG h) h₀.reliable hG h
  refine BuildDependencies.allDepsCompleted_iff.mp ?_ d hd
  rcases step_status hs b with heq | ⟨st, st', -, h2, hm⟩
  · rw [heq, hp] at hr
    cases hr
  · obtain rfl : st' = .running := Option.some.inj (h2.symm.trans hr)
    generalize hq : BuildStatus.running = q at hm
    cases hm with
    | claim t task _ _ ht hc hk => exact hk ▸ hI.waiting t task ht (by rw [hc]; rfl)
    | doneStart _ _ _ ha => cases ha
    | requeue | retry | cancel | sweep | restart => cases hq
    | complete _ _ _ _ _ _ _ _ _ hf => subst hq; cases hf
    | doneComplete _ _ _ _ ha => cases ha

/-- Build 1 succeeds, and build 2 is dispatched. -/
def dispatchSecond : List Action := loops 12 ++ claims 0 ++ succeeds 0 3 ++ loops 11

theorem dependency_order_chain :
    ∃ s ∈ exec (step {}) (.start {} chain) (dispatchSecond ++ (claims 1).take 2),
      ∃ s' ∈ step {} s (.task 1 (.claim true)), s'.db.status 2 = some .running ∧ s.db.status 1 = some .succeeded := by
  obtain ⟨s, hs, s', hs', hp, hr, hd⟩ :
      ∃ s ∈ exec (step {}) (.start {} chain) (dispatchSecond ++ (claims 1).take 2),
        ∃ s' ∈ step {} s (.task 1 (.claim true)), s.db.status 2 = some .pending ∧ s'.db.status 2 = some .running ∧
          (2, 1) ∈ s.db.buildDependencies := by decide
  exact ⟨s, hs, s', hs', hr, dependency_order (fresh_start {} chain) (by decide) hs hs' hp hr 1 hd⟩

/-- The operator restarts build 1 while the task of build 2 waits; build 2
starts to run on a pending dependency. -/
theorem restarted_dependency : Fresh {} (.start {} chain) ∧
    ∃ s ∈ exec (step {}) (.start {} chain) (dispatchSecond ++ [.restart 1] ++ (claims 1).take 2),
      ∃ s' ∈ step {} s (.task 1 (.claim true)), (2, 1) ∈ s.db.buildDependencies ∧
        s.db.status 2 = some .pending ∧ s'.db.status 2 = some .running ∧ s.db.status 1 = some .pending :=
  ⟨fresh_start {} chain, by decide⟩

end Circus.Runner
