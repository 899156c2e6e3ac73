/-
# The verdict on unsupported builds

`runner_loop::run` completes a build as `UnsupportedSystem` when nothing takes
its system and features and it was created more than `unsupported_timeout` ago.
The agents that are connected and the rows of `remote_builders` come and go
meanwhile; here they stand beside the runner, and the loop's check reads them.

The check looks at one moment. That no venue matched the build for as long as
the timeout follows where a venue, once there, stays to the check: `Steady`.
-/
import Circus.Runner.RowRefinement
import Circus.Venues

namespace Circus.Runner
namespace Fleet

/-- The runner's configuration, and what its own host can do. -/
structure Config extends Runner.Config where
  runnerCaps : RunnerCaps := { enabled := false }
  strategy : BuilderSchedulingStrategy := .speedFactorOnly

structure State where
  runner : Runner.State
  /-- The pool: the agents that are connected. -/
  agents : List AgentSnapshot := []
  /-- The rows of `remote_builders`. -/
  builders : List RemoteBuilder := []

inductive Action
  | runner (a : Runner.Action)
  /-- an agent registers; a connection of the same machine is replaced -/
  | connect (agent : AgentSnapshot)
  | disconnect (machineId : Uuid)
  /-- `remote_builders::create`, `update` and `upsert` -/
  | configure (builder : RemoteBuilder)
  | delete (id : Uuid)
  /-- `remote_builders::record_failure`, with the random part of the delay -/
  | recordFailure (id : Uuid) (jitter : Time)
  | recordSuccess (id : Uuid)

/-- What the loop's check reads. -/
def State.env (cfg : Config) (s : State) : Dispatch.VenueEnv where
  pool := s.agents
  now := s.runner.now
  strategy := cfg.strategy
  runnerCaps := cfg.runnerCaps
  builders := s.builders

/-- The check finds a builder, an agent or the runner. -/
def supported (cfg : Config) (s : State) (b : Build) : Bool :=
  (s.env cfg).hasBuilder b || (s.env cfg).hasAgent b || (s.env cfg).hasRunner b

/-- The check's outcome, where the loop is at it. -/
def check (cfg : Config) (s : State) : Bool :=
  match s.runner.loop.phase with
  | .unsupported b => supported cfg s b
  | _ => true

/-- A runner's action with the check's outcome filled in. -/
def answer (cfg : Config) (s : State) : Runner.Action → Runner.Action
  | .loop env => .loop { env with supported := check cfg s }
  | a => a

/-- `UPDATE remote_builders SET f WHERE id = :id`. -/
def State.updateBuilder (s : State) (id : Uuid) (f : RemoteBuilder → RemoteBuilder) : State :=
  { s with builders := s.builders.map fun r => if r.id = id then f r else r }

/-- The row after a `create` or an `update`: the backoff is not among the
columns they set. -/
def configured (builder : RemoteBuilder) (old : RemoteBuilder) : RemoteBuilder :=
  { builder with consecutiveFailures := old.consecutiveFailures, disabledUntil := old.disabledUntil }

/-- The `SET` of `record_failure`. -/
def failed (now jitter : Time) (r : RemoteBuilder) : RemoteBuilder :=
  let failures := min (r.consecutiveFailures + 1) 4
  { r with consecutiveFailures := failures, disabledUntil := some (now + 60 * 3 ^ (failures - 1) + jitter) }

def step (cfg : Config) (s : State) : Action → Option State
  | .runner a => (Runner.step cfg.toConfig s.runner (answer cfg s a)).map fun r => { s with runner := r }
  | .connect agent =>
    some { s with agents := agent :: s.agents.filter fun a => decide (a.machineId ≠ agent.machineId) }
  | .disconnect machineId => some { s with agents := s.agents.filter fun a => decide (a.machineId ≠ machineId) }
  | .configure builder =>
    if s.builders.any fun r => decide (r.id = builder.id) then some (s.updateBuilder builder.id (configured builder))
    else some { s with builders := { builder with consecutiveFailures := 0, disabledUntil := none } :: s.builders }
  | .delete id => some { s with builders := s.builders.filter fun r => decide (r.id ≠ id) }
  | .recordFailure id jitter =>
    if jitter ≤ 30 then some (s.updateBuilder id (failed s.runner.now jitter)) else none
  | .recordSuccess id =>
    some (s.updateBuilder id fun r => { r with consecutiveFailures := 0, disabledUntil := none })

/-- A matching venue: the runner, a connected agent, or an enabled remote
builder, in backoff or not. -/
def Matched (cfg : Config) (s : State) (b : Build) : Prop :=
  (s.env cfg).hasRunner b = true ∨ (s.env cfg).hasAgent b = true ∨
    ∃ r ∈ s.builders, r.enabled = true ∧ (∃ system ∈ b.system, system ∈ r.systems) ∧
      Dispatch.VenueEnv.matchesBuilder r b.schedulingFeatures = true

instance (cfg : Config) (s : State) (b : Build) : Decidable (Matched cfg s b) :=
  inferInstanceAs (Decidable (_ ∨ _ ∨ _))

end Fleet

/-- The build the loop is completing as `UnsupportedSystem`. -/
def LoopPhase.judged : LoopPhase → Option Build
  | doneStart b c | doneComplete b c => if c.status = .unsupportedSystem then some b else none
  | _ => none

/-- The loop comes to judge a build only by the check, at its own step. -/
theorem judged_of_loopStep {cfg : Config} {env : LoopEnv} {s s' : State} (h : s.loopStep cfg env = some s') {b : Build}
    (hb : s'.loop.phase.judged = some b) :
    s.loop.phase.judged = some b ∨ s.loop.phase = .unsupported b ∧ env.supported = false ∧
      ∃ timeout ∈ cfg.unsupportedTimeout, b.createdAt + timeout < s.now := by
  unfold State.loopStep at h
  split at h
  · cases h; cases hb
  · split at h <;> cases h <;> cases hb
  · cases h
    unfold State.sweepDone at hb
    split at hb <;> cases hb
  · cases h; cases hb
  · split at h
    · cases h; cases hb
    · cases h
      simp only [firstFilter] at hb
      split_ifs at hb <;> cases hb
  · split at h <;> cases h <;> cases hb
  · split at h
    · split at h <;> cases h <;> cases hb
    · cases h; cases hb
  · have hafter : ∀ iv b', (afterFod cfg iv b').judged ≠ some b := by
      intro iv b' hj
      unfold afterFod at hj
      split_ifs at hj <;> cases hj
    split at h
    · simp only at h
      split at h
      · cases h; cases hb
      · cases h; exact absurd hb (hafter _ _)
    · cases h; exact absurd hb (hafter _ _)
  · split at h <;> cases h <;> cases hb
  · split at h <;> cases h <;> cases hb
  · rename_i b' hp
    split at h
    · cases h; cases hb
    · rename_i timeout ht
      split at h
      · cases h; cases hb
      · rename_i hs
        split at h
        · rename_i hlate
          cases h; cases hb
          exact .inr ⟨hp, by simpa using hs, timeout, ht, hlate⟩
        · cases h; cases hb
  · split at h
    · cases h; cases hb
    · split at h <;> cases h <;> cases hb
  · cases h; cases hb
  · rename_i b' c hp
    cases h
    exact .inl (hp ▸ hb)
  · cases h; cases hb
  · cases h

theorem judged_of_loopFail {cfg : Config} {s s' : State} (h : s.loopFail cfg = some s') {b : Build}
    (hb : s'.loop.phase.judged = some b) : s.loop.phase.judged = some b := by
  unfold State.loopFail at h
  split at h
  case h_1 => cases h; unfold State.sweepDone at hb; split at hb <;> cases hb
  case h_2 => cases h; simp only [State.setPhase] at hb; split at hb <;> cases hb
  case h_3 =>
    split at h <;> cases h
    simp only [firstFilter] at hb
    split_ifs at hb <;> cases hb
  case h_11 b' c hp => cases h; exact hp ▸ hb
  all_goals cases h
  all_goals cases hb

namespace Fleet

/-- No matching venue of the build goes away once it is created; at the check
there is one the check sees, if there is one at all; and while the loop is
completing the build none comes up. -/
structure Steady (cfg : Config) (b : Build) (s : State) (a : Action) : Prop where
  stays : b.createdAt ≤ s.runner.now → Matched cfg s b → ∀ s' ∈ step cfg s a, Matched cfg s' b
  seen : s.runner.loop.phase = .unsupported b → Matched cfg s b → supported cfg s b = true
  late : s.runner.loop.phase.judged = some b → ¬ Matched cfg s b → ∀ s' ∈ step cfg s a, ¬ Matched cfg s' b

instance (cfg : Config) (b : Build) (s : State) (a : Action) : Decidable (Steady cfg b s a) :=
  decidable_of_iff (_ ∧ _ ∧ _) ⟨fun h => ⟨h.1, h.2.1, h.2.2⟩, fun h => ⟨h.stays, h.seen, h.late⟩⟩

section Step

variable {cfg : Config} {b : Build} {s s' : State} {a : Action}

theorem now_le_of_step (h : step cfg s a = some s') : s.runner.now ≤ s'.runner.now := by
  cases a with
  | runner =>
    obtain ⟨r, hr, rfl⟩ := Option.map_eq_some_iff.mp h
    rcases step_now hr with hn | ⟨secs, -, rfl⟩
    · exact hn.ge
    · exact Nat.le_add_right _ _
  | configure =>
    simp only [step] at h
    split at h <;> cases h <;> exact le_rfl
  | recordFailure =>
    simp only [step] at h
    split at h <;> cases h
    exact le_rfl
  | connect | disconnect | delete | recordSuccess => cases h; exact le_rfl

/-- The loop comes to judge a build only by the check, which leaves the fleet
as it is. -/
theorem judged_of_step (h : step cfg s a = some s') (hb : s'.runner.loop.phase.judged = some b) :
    s.runner.loop.phase.judged = some b ∨ s.runner.loop.phase = .unsupported b ∧ supported cfg s b = false ∧
      (∃ timeout ∈ cfg.unsupportedTimeout, b.createdAt + timeout < s.runner.now) ∧
      s'.agents = s.agents ∧ s'.builders = s.builders := by
  cases a with
  | runner a =>
    obtain ⟨r, hr, rfl⟩ := Option.map_eq_some_iff.mp h
    cases a with
    | loop =>
      rcases judged_of_loopStep hr hb with hj | ⟨hp, hs, ht⟩
      · exact .inl hj
      · simp only [check, hp] at hs
        exact .inr ⟨hp, hs, ht, rfl, rfl⟩
    | loopError => exact .inl (judged_of_loopFail hr hb)
    | _ =>
      rcases step_loop hr with ⟨-, ha⟩ | ⟨hl, -⟩
      · cases ha
      · exact .inl (hl ▸ hb)
  | configure =>
    simp only [step] at h
    split at h <;> cases h <;> exact .inl hb
  | recordFailure =>
    simp only [step] at h
    split at h <;> cases h
    exact .inl hb
  | connect | disconnect | delete | recordSuccess => cases h; exact .inl hb

/-- A venue matches or not whatever the runner does. -/
theorem matched_congr (ha : s'.agents = s.agents) (hb : s'.builders = s.builders) :
    Matched cfg s' b ↔ Matched cfg s b := by
  unfold Matched Dispatch.VenueEnv.hasRunner Dispatch.VenueEnv.hasAgent State.env
  rw [ha, hb]

end Step

/-- What the past of a state says about build `b`. -/
structure VerdictInv (cfg : Config) (b : Build) (past : List (State × Action)) (s : State) : Prop where
  clock : ∀ x ∈ past, x.1.runner.now ≤ s.runner.now
  stays : ∀ x ∈ past, b.createdAt ≤ x.1.runner.now → Matched cfg x.1 b → Matched cfg s b
  judged : s.runner.loop.phase.judged = some b → ¬ Matched cfg s b ∧
    ∃ timeout ∈ cfg.unsupportedTimeout, b.createdAt + timeout < s.runner.now

theorem VerdictInv.step {cfg : Config} {b : Build} {past : List (State × Action)} {s s' : State} {a : Action}
    (hI : VerdictInv cfg b past s) (ha : Steady cfg b s a) (h : step cfg s a = some s') :
    VerdictInv cfg b (past ++ [(s, a)]) s' where
  clock x hx := by
    rcases List.mem_append.mp hx with hx | hx
    · exact (hI.clock x hx).trans (now_le_of_step h)
    · obtain rfl := List.mem_singleton.mp hx
      exact now_le_of_step h
  stays x hx hnow hm := by
    rcases List.mem_append.mp hx with hx | hx
    · exact ha.stays (hnow.trans (hI.clock x hx)) (hI.stays x hx hnow hm) s' h
    · obtain rfl := List.mem_singleton.mp hx
      exact ha.stays hnow hm s' h
  judged hb := by
    rcases judged_of_step h hb with hj | ⟨hp, hs, ⟨timeout, ht, hlate⟩, hagents, hbuilders⟩
    · obtain ⟨hnone, timeout, ht, hlate⟩ := hI.judged hj
      exact ⟨ha.late hj hnone s' h, timeout, ht, hlate.trans_le (now_le_of_step h)⟩
    · refine ⟨fun hm => ?_, timeout, ht, hlate.trans_le (now_le_of_step h)⟩
      rw [ha.seen hp ((matched_congr hagents hbuilders).mp hm)] at hs
      cases hs

/-- **No premature verdict.** In every run from the runner's start in which the
venues of `b` are steady, the loop completes `b` as `UnsupportedSystem` only if
no venue matched it at any moment since the timeout before. -/
theorem verdict_not_premature {cfg : Config} {s₀ s : State} {as : List Action} {b : Build} {c : Completion}
    (hfresh : Fresh cfg.toConfig s₀.runner) (hrun : Lts.Along (step cfg) (Steady cfg b) s₀ as)
    (h : Lts.exec (step cfg) s₀ as = some s) (hp : s.runner.loop.phase = .doneComplete b c)
    (hc : c.status = .unsupportedSystem) :
    ∃ timeout ∈ cfg.unsupportedTimeout, ¬ Matched cfg s b ∧
      ∀ x ∈ Lts.trail (step cfg) s₀ as, s.runner.now ≤ x.1.runner.now + timeout → ¬ Matched cfg x.1 b := by
  have hI₀ : VerdictInv cfg b [] s₀ := by
    refine ⟨fun _ hx => absurd hx List.not_mem_nil, fun _ hx => absurd hx List.not_mem_nil, fun hj => ?_⟩
    rw [hfresh.loop] at hj
    cases hj
  have hI : VerdictInv cfg b ([] ++ Lts.trail (step cfg) s₀ as) s :=
    Lts.exec_trail_inv (fun _ _ _ _ hI ha hs => hI.step ha hs) hI₀ hrun h
  have hjudged : s.runner.loop.phase.judged = some b := by simp [hp, LoopPhase.judged, hc]
  obtain ⟨hnone, timeout, ht, hlate⟩ := hI.judged hjudged
  refine ⟨timeout, ht, hnone, fun x hx hnow hm => ?_⟩
  have hcreated : b.createdAt < x.1.runner.now := Nat.lt_of_add_lt_add_right (hlate.trans_le hnow)
  exact hnone (hI.stays x hx hcreated.le hm)

/-- A build for `x86_64-linux`, created at 0. -/
def linuxBuild : Build := { id := 1, evaluationId := 1, drvPath := "a.drv", system := some "x86_64-linux" }

/-- A runner on that build, with a timeout of ten seconds. -/
def tenSeconds : Config := { unsupportedTimeout := some 10 }

def waiting : State where
  runner := .start tenSeconds.toConfig (.ofRows [{ id := 1 }] [{ id := 1, jobsetId := 1 }] [linuxBuild] [] []
    (by decide))

/-- The loop takes the build to the statements of `mark_build_done`. -/
def judges : List Action := List.replicate 11 (.runner (.loop {}))

/-- An agent and a remote builder for one system. -/
def agentFor (system : String) : AgentSnapshot := { machineId := 0, systems := [system] }

def builderFor (system : String) : RemoteBuilder := { id := 0, sshUri := "ssh://builder", systems := [system] }

/-- A builder for another system comes while the build waits. -/
def otherSystem : List Action := .configure (builderFor "aarch64-linux") :: .runner (.tick 11) :: judges

theorem verdict_not_premature_otherSystem : ∃ s ∈ Lts.exec (step tenSeconds) waiting otherSystem,
    ∃ timeout ∈ tenSeconds.unsupportedTimeout, ¬ Matched tenSeconds s linuxBuild ∧
      ∀ x ∈ Lts.trail (step tenSeconds) waiting otherSystem, s.runner.now ≤ x.1.runner.now + timeout →
        ¬ Matched tenSeconds x.1 linuxBuild := by
  obtain ⟨s, hs, hp⟩ : ∃ s ∈ Lts.exec (step tenSeconds) waiting otherSystem,
      s.runner.loop.phase = .doneComplete linuxBuild unsupportedCompletion := by decide
  have hrun : Lts.Along (step tenSeconds) (Steady tenSeconds linuxBuild) waiting otherSystem := by decide
  exact ⟨s, hs, verdict_not_premature (fresh_start _ _) hrun hs hp rfl⟩

/-- The loop is about to complete `b` as `UnsupportedSystem` less than the
timeout after a moment with a matching venue. -/
def Premature (cfg : Config) (b : Build) (s₀ : State) (as : List Action) : Prop :=
  ∃ s ∈ Lts.exec (step cfg) s₀ as, s.runner.loop.phase = .doneComplete b unsupportedCompletion ∧
    ∃ x ∈ Lts.trail (step cfg) s₀ as, (∃ timeout ∈ cfg.unsupportedTimeout, s.runner.now ≤ x.1.runner.now + timeout) ∧
      Matched cfg x.1 b

instance (cfg : Config) (b : Build) (s₀ : State) (as : List Action) : Decidable (Premature cfg b s₀ as) :=
  inferInstanceAs (Decidable (∃ s ∈ Lts.exec (step cfg) s₀ as, _ ∧ _))

/-- An agent that was there all the time goes away right before the poll, or a
builder gets into backoff and stays enabled. -/
theorem premature_verdict :
    Premature tenSeconds linuxBuild waiting
      (.connect (agentFor "x86_64-linux") :: .runner (.tick 100) :: .disconnect 0 :: judges) ∧
    Premature tenSeconds linuxBuild waiting
      (.configure (builderFor "x86_64-linux") :: .runner (.tick 100) :: .recordFailure 0 0 :: judges) := by
  decide

end Fleet
end Circus.Runner
