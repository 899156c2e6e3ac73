/-
# Choosing an agent

`select_and_reserve_agent` of `crates/queue-runner/src/dispatch.rs`: the
candidates for a build's system pass the pressure, feature, trust and backoff
filters, are sorted, and the first with a free slot gets the build. `Selected`
lists what a chosen agent has passed; for an agent that requires a trusted ref
that includes `is_trusted_ref_evaluation` of the build's evaluation.

Speed factors and pressures are rationals. What the function reads besides the
database is its `SelectEnv`: between two reads other tasks may take slots, so
whether a slot is free in the end is not the count of the snapshot.
-/
import Circus.Evaluator.Db

namespace Circus

inductive AuthKind
  | token
  | oidc
  deriving DecidableEq, Repr

inductive BuilderSchedulingStrategy
  | speedFactorOnly
  | cpuCoreCountWithSpeedFactor
  | dynamic
  deriving DecidableEq, Repr

structure HeartbeatSnapshot where
  lastSeen : Option Time := none
  cpuPsiAvg10 : ℚ := 0
  memPsiAvg10 : ℚ := 0
  ioPsiAvg10 : ℚ := 0
  deriving DecidableEq

structure AgentSnapshot where
  machineId : Uuid
  systems : List String
  supportedFeatures : List String := []
  mandatoryFeatures : List String := []
  speedFactor : ℚ := 1
  cpuCount : ℕ := 1
  maxJobs : ℕ := 1
  currentJobs : ℕ := 0
  authKind : AuthKind := .token
  oidcRepository : Option String := none
  heartbeat : HeartbeatSnapshot := {}
  deriving DecidableEq

namespace AgentSnapshot

def supportsFeatures (a : AgentSnapshot) (requiredFeatures : List String) : Bool :=
  requiredFeatures.all (fun f => decide (f ∈ a.supportedFeatures)) &&
    a.mandatoryFeatures.all fun f => decide (f ∈ requiredFeatures)

def contendedSurplus (a : AgentSnapshot) (requiredFeatures demand : List String) : ℕ :=
  a.supportedFeatures.countP fun f => decide (f ∈ demand ∧ f ∉ requiredFeatures)

def requiresTrustedRef (a : AgentSnapshot) : Bool := decide (a.authKind = .oidc)

end AgentSnapshot

namespace Dispatch

def isTrustedRefEvaluation (evaluation : EvaluationRow) (jobset : JobsetRow) : Bool :=
  if jobset.branch.all fun b => decide (b = "") then false
  else if evaluation.prNumber.isSome || evaluation.prHeadBranch.isSome || evaluation.prBaseBranch.isSome then false
  else decide (evaluation.triggerKind = .sourceChange ∨ evaluation.triggerKind = .manual ∨
    evaluation.triggerKind = .interval)

structure TrustedBuildContext where
  repository : Option String

/-- What the selection reads besides the database. -/
structure SelectEnv where
  /-- The agents of the pool. -/
  pool : List AgentSnapshot
  now : Time := 0
  heartbeatTtl : Time := 0
  psiThreshold : Option ℚ := none
  strategy : BuilderSchedulingStrategy := .speedFactorOnly
  /-- `repo::projects::get`, and `github_repository_slug` of its URL. -/
  repository : Uuid → Option (Option String) := fun _ => some none
  /-- `repo::builder_sessions::is_schedulable`; `none` is an error. -/
  isSchedulable : Uuid → Option Bool := fun _ => some true
  /-- `pending_feature_demand`, empty on an error. -/
  demand : List String := []
  /-- The agent had a free slot when `candidates_for` went through the pool. The
  count of its snapshot is read again after that. -/
  hadSlot : AgentSnapshot → Bool := fun a => decide (a.currentJobs < a.maxJobs)
  /-- `try_acquire_slot` succeeds. -/
  slotFree : Uuid → Bool := fun _ => true

def trustedBuildContext (env : SelectEnv) (db : Evaluator.Db) (build : Build) : Option TrustedBuildContext :=
  (db.evaluations.get build.evaluationId).bind fun evaluation =>
    (db.jobsets.get evaluation.jobsetId).bind fun jobset =>
      if isTrustedRefEvaluation evaluation jobset then
        (env.repository jobset.projectId).map fun repository => ⟨repository⟩
      else none

def candidateAllowedForTrustedBuild (agent : AgentSnapshot) (trusted : Option TrustedBuildContext) : Bool :=
  if !agent.requiresTrustedRef then true
  else
    match trusted with
    | none => false
    | some trusted => agent.oidcRepository.all fun repo => decide (trusted.repository = some repo)

/-- An agent that needs no trusted ref is always allowed, so the trust filter
may as well run on every candidate list. -/
theorem trustFilter_eq {α : Type*} (snap : α → AgentSnapshot) (trusted : Option TrustedBuildContext)
    (candidates : List α) :
    (if candidates.any fun a => (snap a).requiresTrustedRef then
      candidates.filter fun a => candidateAllowedForTrustedBuild (snap a) trusted
    else candidates) = candidates.filter fun a => candidateAllowedForTrustedBuild (snap a) trusted := by
  split_ifs with h
  · rfl
  · rw [List.any_eq_true, not_exists] at h
    refine (List.filter_eq_self.mpr fun a ha => ?_).symm
    have hr : (snap a).requiresTrustedRef = false := by simpa using fun hr => h a ⟨ha, hr⟩
    simp [candidateAllowedForTrustedBuild, hr]

/-- `strategy_order`: `lt` where the first is the better choice. -/
def strategyOrder (strategy : BuilderSchedulingStrategy) (a b : AgentSnapshot) : Ordering :=
  match strategy with
  | .speedFactorOnly => compare b.speedFactor a.speedFactor
  | .cpuCoreCountWithSpeedFactor => compare (b.cpuCount * b.speedFactor) (a.cpuCount * a.speedFactor)
  | .dynamic =>
    let free : AgentSnapshot → ℚ := fun s => ((s.maxJobs - s.currentJobs : ℕ) : ℚ) * s.speedFactor
    compare (free b) (free a)

def candidatesFor (env : SelectEnv) (system : String) : List AgentSnapshot :=
  env.pool.filter fun a => decide (system ∈ a.systems) && env.hadSlot a

/-- The pressure filter. An agent whose heartbeat is missing or too old stays. -/
def belowPressure (env : SelectEnv) (a : AgentSnapshot) : Bool :=
  env.psiThreshold.all fun t =>
    let cutoff := if env.heartbeatTtl ≤ env.now then some (env.now - env.heartbeatTtl) else none
    let fresh := match a.heartbeat.lastSeen, cutoff with
      | some seen, some cut => decide (cut ≤ seen)
      | _, _ => true
    !fresh || decide (a.heartbeat.cpuPsiAvg10 ≤ t ∧ a.heartbeat.memPsiAvg10 ≤ t ∧ a.heartbeat.ioPsiAvg10 ≤ t)

/-- The order of the eligible agents. -/
def preferred (env : SelectEnv) (build : Build) (a b : AgentSnapshot) : Ordering :=
  (compare (a.contendedSurplus build.schedulingFeatures env.demand)
    (b.contendedSurplus build.schedulingFeatures env.demand)).then
    ((strategyOrder env.strategy a b).then (compare a.machineId b.machineId))

/-- `select_and_reserve_agent`: the agent whose slot is taken. -/
def selectAndReserveAgent (env : SelectEnv) (db : Evaluator.Db) (build : Build) (system : String) :
    Option AgentSnapshot :=
  let candidates := ((candidatesFor env system).filter (belowPressure env)).filter fun a =>
    a.supportsFeatures build.schedulingFeatures
  let candidates := if candidates.any (·.requiresTrustedRef) then
      candidates.filter fun a => candidateAllowedForTrustedBuild a (trustedBuildContext env db build)
    else candidates
  let eligible := candidates.filter fun a => env.isSchedulable a.machineId = some true
  (eligible.insertionSort fun a b => preferred env build a b ≠ .gt).find? fun a => env.slotFree a.machineId

/-- What an agent that gets the build has passed. -/
structure Selected (env : SelectEnv) (db : Evaluator.Db) (build : Build) (system : String) (agent : AgentSnapshot) :
    Prop where
  mem : agent ∈ env.pool
  system : system ∈ agent.systems
  features : agent.supportsFeatures build.schedulingFeatures = true
  pressure : belowPressure env agent = true
  schedulable : env.isSchedulable agent.machineId = some true
  slot : env.slotFree agent.machineId = true
  trusted : agent.requiresTrustedRef = true → ∃ evaluation jobset,
    db.evaluations.get build.evaluationId = some evaluation ∧ db.jobsets.get evaluation.jobsetId = some jobset ∧
    isTrustedRefEvaluation evaluation jobset = true

theorem trusted_of_allowed {env : SelectEnv} {db : Evaluator.Db} {build : Build} {agent : AgentSnapshot}
    (hr : agent.requiresTrustedRef = true)
    (h : candidateAllowedForTrustedBuild agent (trustedBuildContext env db build) = true) :
    ∃ evaluation jobset, db.evaluations.get build.evaluationId = some evaluation ∧
      db.jobsets.get evaluation.jobsetId = some jobset ∧ isTrustedRefEvaluation evaluation jobset = true := by
  cases hc : trustedBuildContext env db build with
  | none => simp [candidateAllowedForTrustedBuild, hr, hc] at h
  | some =>
    obtain ⟨evaluation, he, hc⟩ := Option.bind_eq_some_iff.mp hc
    obtain ⟨jobset, hj, hc⟩ := Option.bind_eq_some_iff.mp hc
    split_ifs at hc with ht
    exact ⟨evaluation, jobset, he, hj, ht⟩

theorem selected {env : SelectEnv} {db : Evaluator.Db} {build : Build} {system : String} {agent : AgentSnapshot}
    (h : selectAndReserveAgent env db build system = some agent) : Selected env db build system agent := by
  unfold selectAndReserveAgent at h
  have hslot := List.find?_some (p := fun a : AgentSnapshot => env.slotFree a.machineId) h
  have hmem := List.mem_of_find?_eq_some h
  rw [List.mem_insertionSort, List.mem_filter] at hmem
  obtain ⟨hmem, hsched⟩ := hmem
  -- with or without the trust filter, the agent has passed those before it
  have hcand : agent ∈ ((candidatesFor env system).filter (belowPressure env)).filter fun a =>
      a.supportsFeatures build.schedulingFeatures := by
    split_ifs at hmem
    · exact List.mem_of_mem_filter hmem
    · exact hmem
  have htrust : agent.requiresTrustedRef = true →
      candidateAllowedForTrustedBuild agent (trustedBuildContext env db build) = true := fun hr => by
    rw [if_pos (List.any_eq_true.mpr ⟨agent, hcand, hr⟩)] at hmem
    exact (List.mem_filter.mp hmem).2
  obtain ⟨hcand, hfeat⟩ := List.mem_filter.mp hcand
  obtain ⟨hcand, hpsi⟩ := List.mem_filter.mp hcand
  obtain ⟨hpool, hsys⟩ := List.mem_filter.mp hcand
  exact ⟨hpool, of_decide_eq_true (Bool.and_eq_true_iff.mp hsys).1, hfeat, hpsi, of_decide_eq_true hsched, hslot,
    fun hr => trusted_of_allowed hr (htrust hr)⟩

end Dispatch

end Circus
