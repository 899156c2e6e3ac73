/-
# The derivations an evaluation builds

`expand_derivation_graph` of `crates/evaluator/src/builds.rs`: to the jobs that
Nix has found come the derivations they need that are not built yet, with a job
each. What Nix says about the derivations and about their outputs is an
argument: any map, with cycles and with derivations missing, and any set of
outputs that are not valid.

The loop is an expansion (`Circus.Expansion`), so it ends, and it adds a job for
each derivation of the least set that is closed under being needed
(`expanded_isLeast`).
-/
import Circus.Expansion
import Circus.Strip
import Circus.Cache.Routes

namespace Circus.Evaluator.Expand

structure NixMeta where
  description : Option String := none
  license : Option String := none
  homepage : Option String := none
  maintainers : Option String := none
  deriving DecidableEq, Repr

/-- `nix::NixJob`; of the input derivations the keys. -/
structure NixJob where
  name : String
  drvPath : String
  system : Option String := none
  outputs : Option (List (String × String)) := none
  inputDrvs : Option (List String) := none
  constituents : Option (List String) := none
  nixMeta : NixMeta := {}
  deriving DecidableEq, Repr

structure DerivationInfo where
  system : Option String := none
  outputs : Option (List (String × String)) := none
  inputDrvs : Option (List String) := none
  requiredFeatures : List String := []
  deriving DecidableEq, Repr

abbrev Derivations := List (String × DerivationInfo)

def shouldEnqueueDerivation (info : DerivationInfo) (invalidOutputs : List String) : Bool :=
  match info.outputs with
  | none => true
  | some outputs => outputs.any fun o => decide (o.2 ∈ invalidOutputs)

def dependencyJobName (drvPath : String) : String :=
  let basename := Strip.trimEnd ".drv".toList ((Cache.fileName drvPath.toList).getD drvPath.toList)
  "drv:" ++ String.ofList basename

def dependencyJob (drvPath : String) (info : DerivationInfo) : NixJob where
  name := dependencyJobName drvPath
  drvPath := drvPath
  system := info.system
  outputs := info.outputs
  inputDrvs := info.inputDrvs

/-- What the loop does with a derivation that is not included. -/
def visit (derivations : Derivations) (invalidOutputs : List String) (drvPath : String) :
    Option (NixJob × List String) :=
  match derivations.lookup drvPath with
  | none => none
  | some info =>
    if !shouldEnqueueDerivation info invalidOutputs then none
    else some (dependencyJob drvPath info, info.inputDrvs.getD [])

/-- `expand_derivation_graph`, with at most `fuel` rounds of its loop. -/
def expandDerivationGraph (fuel : ℕ) (jobs : List NixJob) (derivations : Derivations) (invalidOutputs : List String) :
    Option (List NixJob) :=
  if derivations.isEmpty then some jobs
  else Expansion.run (visit derivations invalidOutputs) fuel (jobs.map (·.drvPath))
    (jobs.flatMap fun job => job.inputDrvs.getD []) jobs

/-! ### What has to be built -/

/-- What is in the map, has to be built and is an input of a job or of a member of
`S`, and is not the derivation of a job, is in `S`. -/
def InputClosed (jobs : List NixJob) (derivations : Derivations) (invalidOutputs : List String) (S : Set String) :
    Prop :=
  ∀ d info, derivations.lookup d = some info → shouldEnqueueDerivation info invalidOutputs = true →
    d ∉ jobs.map (·.drvPath) →
    ((∃ job ∈ jobs, d ∈ job.inputDrvs.getD []) ∨
      ∃ e ∈ S, ∃ info', derivations.lookup e = some info' ∧ d ∈ info'.inputDrvs.getD []) → d ∈ S

section

variable {jobs : List NixJob} {derivations : Derivations} {invalidOutputs : List String}

theorem visit_eq_some {d : String} {x : NixJob × List String} : visit derivations invalidOutputs d = some x ↔
    ∃ info, derivations.lookup d = some info ∧ shouldEnqueueDerivation info invalidOutputs = true ∧
      x = (dependencyJob d info, info.inputDrvs.getD []) := by
  unfold visit
  cases derivations.lookup d with
  | none => simp
  | some info =>
    by_cases h : shouldEnqueueDerivation info invalidOutputs = true
    · simp only [h, Bool.not_true, Bool.false_eq_true, if_false, Option.some.injEq]
      constructor
      · rintro rfl
        exact ⟨info, rfl, h, rfl⟩
      · rintro ⟨_, rfl, -, rfl⟩
        rfl
    · simp [h]

theorem isSome_visit {d : String} : (visit derivations invalidOutputs d).isSome = true ↔
    ∃ info, derivations.lookup d = some info ∧ shouldEnqueueDerivation info invalidOutputs = true := by
  rw [Option.isSome_iff_exists]
  constructor
  · rintro ⟨x, hx⟩
    obtain ⟨info, hinfo, hs, -⟩ := visit_eq_some.mp hx
    exact ⟨info, hinfo, hs⟩
  · rintro ⟨info, hinfo, hs⟩
    exact ⟨_, visit_eq_some.mpr ⟨info, hinfo, hs, rfl⟩⟩

/-- Only derivations of the map are added. -/
theorem mem_keys_of_visit {d : String} (h : (visit derivations invalidOutputs d).isSome = true) :
    d ∈ derivations.map Prod.fst := by
  obtain ⟨info, hinfo, -⟩ := isSome_visit.mp h
  rw [List.lookup_eq_some_iff] at hinfo
  obtain ⟨l₁, l₂, rfl, -⟩ := hinfo
  simp

/-- The set of the loop is closed in the loop's sense exactly if it is closed,
as far as it has derivations that have to be built. -/
theorem closed_of_inputClosed {S : Set String} (h : InputClosed jobs derivations invalidOutputs S) :
    Expansion.Closed (visit derivations invalidOutputs) (jobs.map (·.drvPath))
      (jobs.flatMap fun job => job.inputDrvs.getD []) S := by
  intro d hd hj hq
  obtain ⟨info, hinfo, hs⟩ := isSome_visit.mp hd
  refine h d info hinfo hs hj (hq.imp ?_ ?_)
  · intro hm
    obtain ⟨job, hjob, hin⟩ := List.mem_flatMap.mp hm
    exact ⟨job, hjob, hin⟩
  · rintro ⟨e, he, hin⟩
    cases hv : visit derivations invalidOutputs e with
    | none => simp [Expansion.needs, hv] at hin
    | some =>
      obtain ⟨info', hinfo', -, rfl⟩ := visit_eq_some.mp hv
      exact ⟨e, he, info', hinfo', by simpa [Expansion.needs, hv] using hin⟩

theorem inputClosed_of_closed {S : Set String} (hS : ∀ e ∈ S, (visit derivations invalidOutputs e).isSome = true)
    (h : Expansion.Closed (visit derivations invalidOutputs) (jobs.map (·.drvPath))
      (jobs.flatMap fun job => job.inputDrvs.getD []) S) : InputClosed jobs derivations invalidOutputs S := by
  intro d info hinfo hs hj hq
  refine h d (isSome_visit.mpr ⟨info, hinfo, hs⟩) hj (hq.imp ?_ ?_)
  · rintro ⟨job, hjob, hin⟩
    exact List.mem_flatMap.mpr ⟨job, hjob, hin⟩
  · rintro ⟨e, he, info', hinfo', hin⟩
    obtain ⟨x, hx⟩ := Option.isSome_iff_exists.mp (hS e he)
    obtain ⟨info'', hinfo'', -, rfl⟩ := visit_eq_some.mp hx
    obtain rfl := Option.some.inj (hinfo'.symm.trans hinfo'')
    exact ⟨e, he, by simpa [Expansion.needs, hx] using hin⟩

/-- The jobs that are added are those of their derivations. -/
theorem map_drvPath_visited : ∀ {new : List String}, (∀ d ∈ new, (visit derivations invalidOutputs d).isSome = true) →
    (new.filterMap fun d => (visit derivations invalidOutputs d).map Prod.fst).map (·.drvPath) = new
  | [], _ => rfl
  | d :: new, h => by
    obtain ⟨x, hx⟩ := Option.isSome_iff_exists.mp (h d List.mem_cons_self)
    obtain ⟨info, -, -, rfl⟩ := visit_eq_some.mp hx
    rw [List.filterMap_cons_some (by rw [hx]; rfl), List.map_cons,
      map_drvPath_visited fun e he => h e (List.mem_cons_of_mem d he)]
    rfl

end

/-- **Graph expansion is the least closure.** With enough rounds the loop ends,
with the given jobs unchanged and after them one job for each derivation of the
least closed set. -/
theorem expanded_isLeast (jobs : List NixJob) (derivations : Derivations) (invalidOutputs : List String) :
    ∃ bound, ∀ fuel, bound ≤ fuel → ∃ added : List NixJob,
      expandDerivationGraph fuel jobs derivations invalidOutputs = some (jobs ++ added) ∧
      (added.map (·.drvPath)).Nodup ∧
      (∀ job ∈ added, job.drvPath ∉ jobs.map (·.drvPath) ∧
        ∃ info, derivations.lookup job.drvPath = some info ∧ job = dependencyJob job.drvPath info) ∧
      IsLeast {S | InputClosed jobs derivations invalidOutputs S} {d | d ∈ added.map (·.drvPath)} := by
  refine ⟨(jobs.flatMap fun job => job.inputDrvs.getD []).length + Expansion.cost (visit derivations invalidOutputs)
    (jobs.map (·.drvPath)) (derivations.map Prod.fst), fun fuel hfuel => ?_⟩
  by_cases hempty : derivations.isEmpty = true
  · obtain rfl := List.isEmpty_iff.mp hempty
    refine ⟨[], by simp [expandDerivationGraph], List.nodup_nil, by simp, fun d info hinfo => ?_, fun S _ d hd => ?_⟩
    · cases hinfo
    · cases hd
  obtain ⟨out, hout⟩ : ∃ out, Expansion.run (visit derivations invalidOutputs) fuel (jobs.map (·.drvPath))
      (jobs.flatMap fun job => job.inputDrvs.getD []) jobs = some out :=
    Expansion.run_total (fun _ => mem_keys_of_visit) hfuel
  obtain ⟨new, rfl, hnd, hnew, hclosed, hmin⟩ := Expansion.run_isLeast hout
  have hpaths := map_drvPath_visited fun d hd => (hnew d hd).2
  refine ⟨_, ?_, by rw [hpaths]; exact hnd, fun job hjob => ?_, ?_, fun S hS => ?_⟩
  · rw [expandDerivationGraph, if_neg hempty]
    exact hout
  · have hmem : job.drvPath ∈ new := hpaths ▸ List.mem_map_of_mem hjob
    obtain ⟨d, -, hd⟩ := List.mem_filterMap.mp hjob
    obtain ⟨x, hx, rfl⟩ := Option.map_eq_some_iff.mp hd
    obtain ⟨info, hinfo, -, rfl⟩ := visit_eq_some.mp hx
    exact ⟨(hnew _ hmem).1, info, hinfo, rfl⟩
  · rw [hpaths]
    exact inputClosed_of_closed (fun d hd => (hnew d hd).2) hclosed
  · rw [hpaths]
    exact hmin (closed_of_inputClosed hS)

end Circus.Evaluator.Expand
