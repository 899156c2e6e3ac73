/-
# Venues

A build runs on an agent, on a remote builder over SSH, or on the runner's own
host. Two places of the queue runner ask which of them can take it:

* `reserve_venue` of `crates/queue-runner/src/dispatch.rs`, when a worker task
  is to run it: an agent slot, else a worker permit if the runner or some
  remote builder qualifies (`reserveVenue`);
* the check of `runner_loop::run` for builds that nothing supports
  (`hasBuilder`, `hasAgent`, `hasRunner`).

The first asks for more: trust of the ref, pressure, backoff of agents, pinned
host keys. A venue the check counts and the reservation refuses whatever is
free (`Refused`) keeps a build from being reported.
-/
import Circus.Dispatch
import Circus.Evaluator.Webhooks

namespace Circus

structure RunnerCaps where
  enabled : Bool := true
  systems : List String := []
  features : List String := []
  deriving DecidableEq

def RunnerCaps.supports (caps : RunnerCaps) (system : Option String) (features : List String) : Bool :=
  caps.enabled && system.all (fun s => decide (s ∈ caps.systems)) && features.all fun f => decide (f ∈ caps.features)

structure RemoteBuilder where
  id : Uuid
  sshUri : String
  systems : List String
  maxJobs : ℤ := 1
  speedFactor : ℤ := 1
  supportedFeatures : List String := []
  mandatoryFeatures : List String := []
  enabled : Bool := true
  publicHostKey : Option String := none
  consecutiveFailures : ℕ := 0
  disabledUntil : Option Time := none
  cpuCores : Option ℤ := none
  deriving DecidableEq

namespace RemoteBuilder

/-- The `WHERE` of the `find_for_system_*` statements. -/
def available (r : RemoteBuilder) (now : Time) (system : String) : Bool :=
  r.enabled && decide (system ∈ r.systems) && r.disabledUntil.all fun t => decide (t < now)

/-- What the strategy's statement orders by, greatest first. `active` counts
the running builds of a builder. -/
def weight (r : RemoteBuilder) (active : Uuid → ℕ) : BuilderSchedulingStrategy → ℤ
  | .speedFactorOnly => r.speedFactor
  | .cpuCoreCountWithSpeedFactor => r.cpuCores.getD 1 * r.speedFactor
  | .dynamic => (r.maxJobs - active r.id) * r.speedFactor

end RemoteBuilder

structure PsiSnapshot where
  cpuAvg10 : ℚ := 0
  memoryAvg10 : ℚ := 0
  ioAvg10 : ℚ := 0

def PsiSnapshot.exceeds (snap : PsiSnapshot) (threshold : ℚ) : Bool :=
  decide (threshold < snap.cpuAvg10 ∨ threshold < snap.memoryAvg10 ∨ threshold < snap.ioAvg10)

namespace Dispatch

def supportsRequiredFeatures (requiredFeatures supportedFeatures mandatoryFeatures : List String) : Bool :=
  requiredFeatures.all (fun f => decide (f ∈ supportedFeatures)) &&
    mandatoryFeatures.all fun f => decide (f ∈ requiredFeatures)

/-- What a reservation and the check read besides the database's evaluations. -/
structure VenueEnv extends SelectEnv where
  runnerCaps : RunnerCaps := { enabled := false }
  /-- The rows of `remote_builders`. -/
  builders : List RemoteBuilder := []
  /-- The running builds of a remote builder. -/
  active : Uuid → ℕ := fun _ => 0
  /-- `psi::read_cached`, by SSH URI. -/
  psi : String → Option PsiSnapshot := fun _ => none
  requireHostKey : Bool := false
  workers : ℕ := 4
  /-- Free permits of the worker semaphore. -/
  permits : ℕ := 4

/-- How `reserve_venue` ends. -/
inductive Reservation
  | agent (agent : AgentSnapshot)
  | runner
  /-- the runner or a builder qualifies, and the call waits for a permit -/
  | waiting
  /-- no capable venue -/
  | noVenue
  deriving DecidableEq

/-- Capacity was reserved. -/
def Reservation.accepted : Reservation → Bool
  | agent _ | runner => true
  | waiting | noVenue => false

namespace VenueEnv

def findForSystem (env : VenueEnv) (system : String) : List RemoteBuilder :=
  (env.builders.filter (·.available env.now system)).insertionSort fun a b =>
    b.weight env.active env.strategy ≤ a.weight env.active env.strategy

/-- The builder has the features and not too many mandatory ones. -/
def matchesBuilder (r : RemoteBuilder) (features : List String) : Bool :=
  supportsRequiredFeatures features r.supportedFeatures r.mandatoryFeatures

/-- The body of `reserve_venue`'s loop over the builders sets `any`. -/
def takesOver (env : VenueEnv) (features : List String) (r : RemoteBuilder) : Bool :=
  if env.requireHostKey && r.publicHostKey.isNone then false
  else if !matchesBuilder r features then false
  else !env.psiThreshold.any fun threshold => (env.psi r.sshUri).any (·.exceeds threshold)

/-- `reserve_venue`, with the build's own system. -/
def reserveVenue (env : VenueEnv) (db : Evaluator.Db) (build : Build) : Reservation :=
  match build.system.bind (selectAndReserveAgent env.toSelectEnv db build) with
  | some agent => .agent agent
  | none =>
    let features := build.schedulingFeatures
    let runnerOk := env.runnerCaps.supports build.system features
    let sshOk := !runnerOk && build.system.any fun system => (env.findForSystem system).any (env.takesOver features)
    if !runnerOk && !sshOk then .noVenue
    else if 0 < env.permits then .runner
    else .waiting

/-! ### The check of the loop -/

def hasBuilder (env : VenueEnv) (build : Build) : Bool :=
  build.system.any fun system => (env.findForSystem system).any (matchesBuilder · build.schedulingFeatures)

def hasAgent (env : VenueEnv) (build : Build) : Bool :=
  build.system.any fun system => env.pool.any fun agent =>
    decide (system ∈ agent.systems) && agent.supportsFeatures build.schedulingFeatures

def hasRunner (env : VenueEnv) (build : Build) : Bool :=
  env.runnerCaps.supports build.system build.schedulingFeatures

/-! ### With every slot free -/

/-- Every slot of every agent is free, and every worker permit. -/
def free (env : VenueEnv) : VenueEnv :=
  { env with
    pool := env.pool.map fun agent => { agent with currentJobs := 0 }
    hadSlot := fun agent => decide (agent.currentJobs < agent.maxJobs)
    slotFree := fun _ => true
    permits := env.workers }

end VenueEnv

/-- A place where a build can run. -/
inductive Venue
  | agent (agent : AgentSnapshot)
  | builder (builder : RemoteBuilder)
  | runner

/-- The check of the loop counts the venue. -/
def Counted (env : VenueEnv) (build : Build) : Venue → Prop
  | .agent agent => agent ∈ env.pool ∧ (∃ system ∈ build.system, system ∈ agent.systems) ∧
      agent.supportsFeatures build.schedulingFeatures = true
  | .builder r => r ∈ env.builders ∧ (∃ system ∈ build.system, r.available env.now system = true) ∧
      VenueEnv.matchesBuilder r build.schedulingFeatures = true
  | .runner => env.runnerCaps.supports build.system build.schedulingFeatures = true

/-- A venue that counts is refused by the reservation even with room: an agent
without slots, under pressure, in backoff or not allowed for the build's ref; a
builder whose missing host key or pressure excludes it; a runner without
workers, and with it every builder. -/
def Refused (env : VenueEnv) (db : Evaluator.Db) (build : Build) : Venue → Prop
  | .agent agent => agent.maxJobs = 0 ∨ belowPressure env.toSelectEnv agent = false ∨
      env.isSchedulable agent.machineId ≠ some true ∨
      candidateAllowedForTrustedBuild agent (trustedBuildContext env.toSelectEnv db build) = false
  | .builder r => env.workers = 0 ∨ env.requireHostKey = true ∧ r.publicHostKey = none ∨
      ∃ threshold ∈ env.psiThreshold, ∃ snap ∈ env.psi r.sshUri, snap.exceeds threshold = true
  | .runner => env.workers = 0

theorem isSome_selectAndReserveAgent {env : SelectEnv} {db : Evaluator.Db} {build : Build} {system : String} :
    (selectAndReserveAgent env db build system).isSome = true ↔ ∃ agent ∈ env.pool, system ∈ agent.systems ∧
      agent.supportsFeatures build.schedulingFeatures = true ∧ env.hadSlot agent = true ∧
      belowPressure env agent = true ∧ env.isSchedulable agent.machineId = some true ∧
      candidateAllowedForTrustedBuild agent (trustedBuildContext env db build) = true ∧
      env.slotFree agent.machineId = true := by
  unfold selectAndReserveAgent
  dsimp only
  rw [trustFilter_eq fun a => a]
  simp only [List.find?_isSome, List.mem_insertionSort, List.mem_filter, candidatesFor, Bool.and_eq_true,
    decide_eq_true_eq]
  refine exists_congr fun agent => ?_
  tauto

namespace VenueEnv

variable {env : VenueEnv} {db : Evaluator.Db} {build : Build}

theorem mem_findForSystem {system : String} {r : RemoteBuilder} :
    r ∈ env.findForSystem system ↔ r ∈ env.builders ∧ r.available env.now system = true := by
  rw [findForSystem, List.mem_insertionSort, List.mem_filter]

theorem hasBuilder_iff : env.hasBuilder build = true ↔ ∃ r, Counted env build (.builder r) := by
  simp only [hasBuilder, Option.any_eq_true, List.any_eq_true, mem_findForSystem, Counted]
  constructor
  · rintro ⟨system, hs, r, ⟨hr, ha⟩, hm⟩
    exact ⟨r, hr, ⟨system, hs, ha⟩, hm⟩
  · rintro ⟨r, hr, ⟨system, hs, ha⟩, hm⟩
    exact ⟨system, hs, r, ⟨hr, ha⟩, hm⟩

theorem hasAgent_iff : env.hasAgent build = true ↔ ∃ agent, Counted env build (.agent agent) := by
  simp only [hasAgent, Option.any_eq_true, List.any_eq_true, Bool.and_eq_true, decide_eq_true_eq, Counted]
  constructor
  · rintro ⟨system, hs, agent, ha, hm, hf⟩
    exact ⟨agent, ha, ⟨system, hs, hm⟩, hf⟩
  · rintro ⟨agent, ha, ⟨system, hs, hm⟩, hf⟩
    exact ⟨system, hs, agent, ha, hm, hf⟩

/-- The check finds a venue. -/
theorem exists_counted_iff : (∃ v, Counted env build v) ↔
    env.hasBuilder build = true ∨ env.hasAgent build = true ∨ env.hasRunner build = true := by
  rw [hasBuilder_iff, hasAgent_iff]
  constructor
  · rintro ⟨agent | r | _, h⟩
    · exact .inr (.inl ⟨agent, h⟩)
    · exact .inl ⟨r, h⟩
    · exact .inr (.inr h)
  · rintro (⟨r, h⟩ | ⟨agent, h⟩ | h)
    · exact ⟨_, h⟩
    · exact ⟨_, h⟩
    · exact ⟨.runner, h⟩

theorem takesOver_iff {features : List String} {r : RemoteBuilder} : env.takesOver features r = true ↔
    matchesBuilder r features = true ∧ ¬ (env.requireHostKey = true ∧ r.publicHostKey = none) ∧
      ¬ ∃ threshold ∈ env.psiThreshold, ∃ snap ∈ env.psi r.sshUri, snap.exceeds threshold = true := by
  unfold takesOver
  split_ifs with hkey hmatch
  · simp_all
  · simp_all
  · simp_all [← Bool.not_eq_true, Option.any_eq_true]

/-- A reservation is accepted on an agent, or with a permit where the runner or
a builder qualifies. -/
theorem accepted_iff : (env.reserveVenue db build).accepted = true ↔
    (∃ system ∈ build.system, (selectAndReserveAgent env.toSelectEnv db build system).isSome = true) ∨
    0 < env.permits ∧ (env.hasRunner build = true ∨ ∃ r ∈ env.builders,
      (∃ system ∈ build.system, r.available env.now system = true) ∧
        env.takesOver build.schedulingFeatures r = true) := by
  have hssh : (build.system.any fun system => (env.findForSystem system).any (env.takesOver build.schedulingFeatures)) =
      true ↔ ∃ r ∈ env.builders, (∃ system ∈ build.system, r.available env.now system = true) ∧
        env.takesOver build.schedulingFeatures r = true := by
    simp only [Option.any_eq_true, List.any_eq_true, mem_findForSystem]
    constructor
    · rintro ⟨system, hs, r, ⟨hr, ha⟩, ht⟩
      exact ⟨r, hr, ⟨system, hs, ha⟩, ht⟩
    · rintro ⟨r, hr, ⟨system, hs, ha⟩, ht⟩
      exact ⟨system, hs, r, ⟨hr, ha⟩, ht⟩
  unfold reserveVenue
  cases hsel : build.system.bind (selectAndReserveAgent env.toSelectEnv db build) with
  | some =>
    obtain ⟨system, hs, ha⟩ := Option.bind_eq_some_iff.mp hsel
    simp only [Reservation.accepted, true_iff]
    exact .inl ⟨system, hs, by rw [ha]; rfl⟩
  | none =>
    have hno : ¬ ∃ system ∈ build.system,
        (selectAndReserveAgent env.toSelectEnv db build system).isSome = true := by
      rintro ⟨system, hs, ha⟩
      rw [Option.bind_eq_none_iff.mp hsel system hs] at ha
      cases ha
    rw [or_iff_right hno, ← hssh]
    dsimp only [hasRunner]
    generalize env.runnerCaps.supports build.system build.schedulingFeatures = runnerOk
    generalize build.system.any (fun system =>
      (env.findForSystem system).any (env.takesOver build.schedulingFeatures)) = sshOk
    by_cases hp : 0 < env.permits <;> cases runnerOk <;> cases sshOk <;> simp [hp, Reservation.accepted]

theorem counted_of_accepted (h : (env.reserveVenue db build).accepted = true) : ∃ v, Counted env build v := by
  rcases accepted_iff.mp h with ⟨system, hs, ha⟩ | ⟨-, hr | ⟨r, hr, hs, ht⟩⟩
  · obtain ⟨agent, ha, hm, hf, -⟩ := isSome_selectAndReserveAgent.mp ha
    exact ⟨.agent agent, ha, ⟨system, hs, hm⟩, hf⟩
  · exact ⟨.runner, hr⟩
  · exact ⟨.builder r, hr, hs, (takesOver_iff.mp ht).1⟩

/-- With every slot free, some venue accepts the build if and only if one that
the check counts is not refused. -/
theorem accepted_free_iff : (env.free.reserveVenue db build).accepted = true ↔
    ∃ v, Counted env build v ∧ ¬ Refused env db build v := by
  have hagents : (∃ system ∈ build.system,
      (selectAndReserveAgent env.free.toSelectEnv db build system).isSome = true) ↔
      ∃ agent, Counted env build (.agent agent) ∧ ¬ Refused env db build (.agent agent) := by
    simp only [isSome_selectAndReserveAgent, free, List.mem_map, Counted, Refused, decide_eq_true_eq]
    constructor
    · rintro ⟨system, hs, _, ⟨agent, ha, rfl⟩, hm, hf, hslots, hp, hsched, htrust, -⟩
      refine ⟨agent, ⟨ha, ⟨system, hs, hm⟩, hf⟩, ?_⟩
      rintro (h | h | h | h)
      · exact absurd hslots (by simp [h])
      · exact absurd (hp.symm.trans h) (by decide)
      · exact h hsched
      · exact absurd (htrust.symm.trans h) (by decide)
    · rintro ⟨agent, ⟨ha, ⟨system, hs, hm⟩, hf⟩, href⟩
      simp only [not_or, not_not, Bool.not_eq_false] at href
      obtain ⟨hslots, hp, hsched, htrust⟩ := href
      exact ⟨system, hs, _, ⟨agent, ha, rfl⟩, hm, hf, Nat.pos_of_ne_zero hslots, hp, hsched, htrust, trivial⟩
  rw [accepted_iff, hagents]
  constructor
  · rintro (⟨agent, h⟩ | ⟨hw, h | ⟨r, hr, hs, ht⟩⟩)
    · exact ⟨_, h⟩
    · exact ⟨.runner, h, hw.ne'⟩
    · obtain ⟨hm, hkey, hpsi⟩ := takesOver_iff.mp ht
      refine ⟨.builder r, ⟨hr, hs, hm⟩, ?_⟩
      rintro (h | h | h)
      · exact hw.ne' h
      · exact hkey h
      · exact hpsi h
  · rintro ⟨agent | r | _, hc, href⟩
    · exact .inl ⟨agent, hc, href⟩
    · obtain ⟨hr, hs, hm⟩ := hc
      simp only [Refused, not_or] at href
      exact .inr ⟨Nat.pos_of_ne_zero href.1, Or.inr ⟨r, hr, hs, takesOver_iff.mpr ⟨hm, href.2⟩⟩⟩
    · exact .inr ⟨Nat.pos_of_ne_zero href, Or.inl hc⟩

end VenueEnv

/-- **A build no venue accepts is reported**, in the sense that the check finds
nothing, exactly where the venues it counts, if there are any, are not all
refused. -/
theorem unaccepted_reported_iff (env : VenueEnv) (db : Evaluator.Db) (build : Build) :
    ((env.free.reserveVenue db build).accepted = false →
      env.hasBuilder build = false ∧ env.hasAgent build = false ∧ env.hasRunner build = false) ↔
    ((∃ v, Counted env build v) → ∃ v, Counted env build v ∧ ¬ Refused env db build v) := by
  rw [← VenueEnv.accepted_free_iff, VenueEnv.exists_counted_iff]
  cases (env.free.reserveVenue db build).accepted <;> cases env.hasBuilder build <;> cases env.hasAgent build <;>
    cases env.hasRunner build <;> simp

def changeRequested : Evaluator.Db :=
  Evaluator.Webhooks.attempt 0
    (.enqueueSource { jobsetId := 1, commitHash := "a", prNumber := some 7 } "change-request:7" .first)
    (.ofJobsets [{ id := 1, branch := some "main" }] (List.nodup_singleton _))

/-- Its only build. -/
def requestedBuild : Build := { id := 1, evaluationId := 1, drvPath := "a.drv", system := some "x86_64-linux" }

/-- The only agent is an OIDC one. -/
def oidcPool : VenueEnv where
  pool := [{ machineId := 0, systems := ["x86_64-linux"], authKind := .oidc }]

/-- Host keys are mandatory, and the only builder has none. -/
def unpinnedBuilder : VenueEnv where
  pool := []
  builders := [{ id := 0, sshUri := "ssh://builder", systems := ["x86_64-linux"] }]
  requireHostKey := true

theorem unaccepted_unreported :
    (oidcPool.free.reserveVenue changeRequested requestedBuild = .noVenue ∧ oidcPool.hasAgent requestedBuild = true) ∧
    unpinnedBuilder.free.reserveVenue changeRequested requestedBuild = .noVenue ∧
      unpinnedBuilder.hasBuilder requestedBuild = true := by
  decide

end Dispatch

end Circus
