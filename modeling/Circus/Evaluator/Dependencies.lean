/-
# The dependency edges of an evaluation

`crates/evaluator/src/builds.rs`: the edges `resolve_dependency_pairs` makes of
the jobs and the ids of their builds. Jobs may share a derivation or a name: an
edge starts at the job's own build and ends at the last build of the derivation
or the name, as the maps of `create_builds_from_eval` keep it.
-/
import Circus.Evaluator.Builds
import Mathlib.Logic.Relation

namespace Circus.Evaluator

def LastBuild (key : NixJob → String) (builds : List (NixJob × Uuid)) (k : String) (id : Uuid) : Prop :=
  ∃ before job after, builds = before ++ (job, id) :: after ∧ key job = k ∧ ∀ later ∈ after, key later.1 ≠ k

/-- The edge that a build is to have: to the last build of an input derivation, or of a constituent. -/
def DependsOn (builds : List (NixJob × Uuid)) (id dep : Uuid) : Prop :=
  ∃ job, (job, id) ∈ builds ∧
    ((∃ d ∈ job.inputDrvs.getD [], LastBuild (·.drvPath) builds d dep) ∨
      ∃ c ∈ job.constituents.getD [], LastBuild (·.name) builds c dep)

/-- The rank falls from every job to its input derivations and to the derivations of the jobs it is made of. -/
structure Descends {R : Type*} [Preorder R] (rank : String → R) (jobs : List NixJob) : Prop where
  input : ∀ job ∈ jobs, ∀ d ∈ job.inputDrvs.getD [], rank d < rank job.drvPath
  constituent : ∀ job ∈ jobs, ∀ c ∈ job.constituents.getD [], ∀ part ∈ jobs, part.name = c →
    rank part.drvPath < rank job.drvPath

theorem LastBuild.mem {key : NixJob → String} {builds : List (NixJob × Uuid)} {k : String} {id : Uuid}
    (h : LastBuild key builds k id) : ∃ job, (job, id) ∈ builds ∧ key job = k := by
  obtain ⟨before, job, after, rfl, hk, -⟩ := h
  exact ⟨job, List.mem_append_right _ List.mem_cons_self, hk⟩

/-- What a map filled with `insert` holds is the last build. -/
theorem lastEntry_eq_some_iff {key : NixJob → String} {jobs : List NixJob} {ids : List Uuid} {k : String} {id : Uuid} :
    lastEntry ((jobs.map key).zip ids) k = some id ↔ LastBuild key (jobs.zip ids) k id := by
  have hzip : (jobs.map key).zip ids = (jobs.zip ids).map fun e => (key e.1, e.2) := by
    rw [List.zip_map_left]
    rfl
  rw [hzip, lastEntry, ← List.map_reverse, List.find?_map, Option.map_map, Option.map_eq_some_iff]
  constructor
  · rintro ⟨⟨job, _⟩, hfind, rfl⟩
    -- the search meets the builds from the last one on
    obtain ⟨hk, after, before, hrev, hnone⟩ := List.find?_eq_some_iff_append.mp hfind
    refine ⟨before.reverse, job, after.reverse, ?_, by simpa using hk, fun later hl => ?_⟩
    · rw [← List.reverse_reverse (jobs.zip ids), hrev]
      simp
    · simpa using hnone later (List.mem_reverse.mp hl)
  · rintro ⟨before, job, after, hb, hk, hlast⟩
    refine ⟨(job, id),
      List.find?_eq_some_iff_append.mpr ⟨by simpa using hk, after.reverse, before.reverse, ?_, ?_⟩, rfl⟩
    · rw [hb]
      simp
    · intro later hl
      simpa using hlast later (List.mem_reverse.mp hl)

/-- **Exactness**: the pairs are the edges the builds are to have, but for a build with itself. -/
theorem mem_resolveDependencyPairs_iff {jobs : List NixJob} {ids : List Uuid} {p : Uuid × Uuid} :
    p ∈ resolveDependencyPairs jobs ids ↔ DependsOn (jobs.zip ids) p.1 p.2 ∧ p.2 ≠ p.1 := by
  simp only [mem_resolveDependencyPairs, mem_candidates, lastEntry_eq_some_iff, DependsOn]

theorem nodup_pushPair {buildId : Uuid} {pairs : List (Uuid × Uuid)} (h : pairs.Nodup) (dep : Option Uuid) :
    (pushPair buildId pairs dep).Nodup := by
  unfold pushPair
  cases dep with
  | none => exact h
  | some d =>
    dsimp only
    by_cases hd : d ≠ buildId ∧ (buildId, d) ∉ pairs
    · rw [if_pos hd]
      exact List.nodup_append.mpr ⟨h, List.nodup_singleton _, fun a ha b hb => by
        rw [List.mem_singleton.mp hb]
        exact fun hab => hd.2 (hab ▸ ha)⟩
    · rwa [if_neg hd]

theorem nodup_resolveDependencyPairs (jobs : List NixJob) (ids : List Uuid) :
    (resolveDependencyPairs jobs ids).Nodup := by
  rw [resolveDependencyPairs_eq]
  exact List.foldlRecOn (candidates jobs ids) _ List.nodup_nil fun _ h c _ => nodup_pushPair h c.2

section Acyclic

variable {R : Type*} [Preorder R] {rank : String → R} {jobs : List NixJob} {ids : List Uuid}

/-- An edge goes down from the job of the build to a job of the build it needs, whichever job aliases the derivation. -/
theorem Descends.lt_of_dependsOn (h : Descends rank jobs) {id dep : Uuid} (hd : DependsOn (jobs.zip ids) id dep) :
    ∃ job part, (job, id) ∈ jobs.zip ids ∧ (part, dep) ∈ jobs.zip ids ∧ rank part.drvPath < rank job.drvPath := by
  obtain ⟨job, hjob, ⟨d, hmem, hlast⟩ | ⟨c, hmem, hlast⟩⟩ := hd
  · obtain ⟨part, hpart, rfl⟩ := hlast.mem
    exact ⟨job, part, hjob, hpart, h.input job (List.of_mem_zip hjob).1 _ hmem⟩
  · obtain ⟨part, hpart, hname⟩ := hlast.mem
    exact ⟨job, part, hjob, hpart,
      h.constituent job (List.of_mem_zip hjob).1 c hmem part (List.of_mem_zip hpart).1 hname⟩

/-- Distinct ids name one job each. -/
theorem eq_of_mem_zip (hids : ids.Nodup) {job job' : NixJob} {id : Uuid} (h : (job, id) ∈ jobs.zip ids)
    (h' : (job', id) ∈ jobs.zip ids) : job = job' := by
  obtain ⟨i, hi, hget⟩ := List.getElem_of_mem h
  obtain ⟨j, hj, hget'⟩ := List.getElem_of_mem h'
  rw [List.getElem_zip, Prod.mk.injEq] at hget hget'
  have hij : i = j := (List.Nodup.getElem_inj_iff hids).mp (hget.2.trans hget'.2.symm)
  subst hij
  exact hget.1.symm.trans hget'.1

theorem Descends.lt_of_path (h : Descends rank jobs) (hids : ids.Nodup) {id dep : Uuid}
    (hp : Relation.TransGen (fun a b => (a, b) ∈ resolveDependencyPairs jobs ids) id dep) :
    ∃ job part, (job, id) ∈ jobs.zip ids ∧ (part, dep) ∈ jobs.zip ids ∧ rank part.drvPath < rank job.drvPath := by
  induction hp with
  | single hedge => exact h.lt_of_dependsOn (mem_resolveDependencyPairs_iff.mp hedge).1
  | tail _ hedge ih =>
    obtain ⟨job, mid, hjob, hmid, hlt⟩ := ih
    obtain ⟨mid', part, hmid', hpart, hlt'⟩ := h.lt_of_dependsOn (mem_resolveDependencyPairs_iff.mp hedge).1
    cases eq_of_mem_zip hids hmid hmid'
    exact ⟨job, part, hjob, hpart, hlt'.trans hlt⟩

end Acyclic

/-- **Dependency edges are exact and acyclic**: for distinct build ids, `resolve_dependency_pairs` returns each edge
that the builds are to have once and no other, and no way along the edges returns to its build if the derivations
have a rank that falls along the inputs and the constituents. -/
theorem dependencies_exact_acyclic (jobs : List NixJob) (ids : List Uuid) (hids : ids.Nodup) :
    (resolveDependencyPairs jobs ids).Nodup ∧
    (∀ id dep, (id, dep) ∈ resolveDependencyPairs jobs ids ↔ DependsOn (jobs.zip ids) id dep ∧ dep ≠ id) ∧
    ∀ {R : Type} [Preorder R] (rank : String → R), Descends rank jobs →
      ∀ id, ¬ Relation.TransGen (fun a b => (a, b) ∈ resolveDependencyPairs jobs ids) id id := by
  refine ⟨nodup_resolveDependencyPairs jobs ids, fun id dep => mem_resolveDependencyPairs_iff, ?_⟩
  intro R _ rank h id hcycle
  obtain ⟨job, part, hjob, hpart, hlt⟩ := h.lt_of_path hids hcycle
  cases eq_of_mem_zip hids hjob hpart
  exact lt_irrefl _ hlt

/-- Two names of one derivation and an aggregate of both, over a derivation they need. -/
def aliasedJobs : List NixJob :=
  [{ name := "lib", drvPath := "l" },
    { name := "default", drvPath := "d", inputDrvs := some ["l", "source"] },
    { name := "all", drvPath := "a", inputDrvs := some ["d", "l"], constituents := some ["default", "hello", "gone"] },
    { name := "hello", drvPath := "d", inputDrvs := some ["l", "source"] }]

theorem dependencies_exact_acyclic_aliased :
    resolveDependencyPairs aliasedJobs [0, 1, 2, 3] = [(1, 0), (2, 3), (2, 0), (2, 1), (3, 0)] ∧
    ∀ id, ¬ Relation.TransGen (fun a b => (a, b) ∈ resolveDependencyPairs aliasedJobs [0, 1, 2, 3]) id id :=
  ⟨by decide, (dependencies_exact_acyclic aliasedJobs [0, 1, 2, 3] (by decide)).2.2
    (fun d => if d = "a" then 2 else if d = "d" then 1 else 0) ⟨by decide, by decide⟩⟩

end Circus.Evaluator
