/-
# Path filters

`crates/evaluator/src/path_filter.rs`: an evaluation of a jobset with path
filters is skipped when no matching path differs between its commit and its
base, `source_base_commit`. The base is what the stream was at when the
evaluation was created, whether or not that commit has been evaluated.

So nothing is lost as long as the filter compares with settled commits, those
that Nix has evaluated or the filter has skipped by then
(`path_filters_lose_nothing`): down the chain of bases no matching path has
changed since the last commit that was evaluated. A base that was superseded,
or whose evaluation has failed, breaks the chain (`change_lost`).

The evaluator gets the copies that its tasks hold, and remembers what was
evaluated and what was skipped.
-/
import Circus.Evaluator.Tip

namespace Circus.Evaluator

namespace Older

variable {tips : List String} {x y : String}

instance (tips : List String) (x y : String) : Decidable (Older tips x y) := inferInstanceAs (Decidable (_ ∧ _))

/-- What comes later does not matter for a tip. -/
theorem of_append {l : List String} (h : Older (tips ++ l) x y) (hy : y ∈ tips) : Older tips x y := by
  refine ⟨hy, ?_⟩
  have hlt := h.2
  rw [List.idxOf_append_of_mem hy] at hlt
  by_cases hx : x ∈ tips
  · rwa [List.idxOf_append_of_mem hx] at hlt
  · rw [List.idxOf_append_of_notMem hx] at hlt
    have := List.idxOf_lt_length_iff.mpr hy
    omega

theorem trichotomy (hx : x ∈ tips) (hy : y ∈ tips) : Older tips x y ∨ x = y ∨ Older tips y x := by
  rcases lt_trichotomy (tips.idxOf x) (tips.idxOf y) with h | h | h
  · exact .inl ⟨hy, h⟩
  · exact .inr (.inl ((List.idxOf_inj hx).mp h))
  · exact .inr (.inr ⟨hx, h⟩)

end Older

namespace PathFilter

open Webhooks (stripPrefix)

/-! ### The filter -/

structure Config where
  evaluator : Evaluator.Config
  pathFilters : Uuid → List String
  /-- The tree of a commit, if there is such a commit. -/
  trees : String → Option (String → Option String)
  /-- The paths of all commits. -/
  paths : List String
  /-- Git's matching of a path against a pathspec. -/
  pathspecMatches : String → String → Bool

/-- The pathspecs given to the diff. -/
def pathspecs (pathFilters : List String) : List String :=
  pathFilters.flatMap fun filter => filter :: (stripPrefix "**/" filter).toList

/-- `matching_path_changed`; an error if one of the commits is not found. -/
def matchingPathChanged (cfg : Config) (pathFilters : List String) (baseCommit commit : String) : Option Bool :=
  (cfg.trees baseCommit).bind fun baseTree => (cfg.trees commit).map fun headTree =>
    cfg.paths.any fun path => (pathspecs pathFilters).any (fun spec => cfg.pathspecMatches spec path) &&
      decide (baseTree path ≠ headTree path)

def shouldEvaluate (cfg : Config) (e : EvaluationRow) : Bool :=
  (cfg.pathFilters e.jobsetId).isEmpty || e.sourceBaseCommit.elim true fun base =>
    (matchingPathChanged cfg (cfg.pathFilters e.jobsetId) base e.commitHash).getD true

/-- Not to differ at a matching path is transitive. -/
theorem unchanged_trans {cfg : Config} {pathFilters : List String} {x y z : String}
    (h : matchingPathChanged cfg pathFilters x y = some false)
    (h' : matchingPathChanged cfg pathFilters y z = some false) :
    matchingPathChanged cfg pathFilters x z = some false := by
  obtain ⟨tx, hx, h⟩ := Option.bind_eq_some_iff.mp h
  obtain ⟨ty, hy, h⟩ := Option.map_eq_some_iff.mp h
  obtain ⟨ty', hy', h'⟩ := Option.bind_eq_some_iff.mp h'
  obtain ⟨tz, hz, h'⟩ := Option.map_eq_some_iff.mp h'
  obtain rfl := Option.some.inj (hy.symm.trans hy')
  simp only [matchingPathChanged, hx, hz, Option.bind_some, Option.map_some, Option.some.injEq]
  rw [List.any_eq_false] at h h' ⊢
  intro path hpath hdiff
  obtain ⟨hmatch, hne⟩ := Bool.and_eq_true_iff.mp hdiff
  have hxy : tx path = ty path := by simpa [hmatch] using h path hpath
  have hyz : ty path = tz path := by simpa [hmatch] using h' path hpath
  simp [hxy, hyz] at hne

/-! ### The system -/

/-- The filter has skipped a commit, compared with a base. -/
structure Skip where
  jobsetId : Uuid
  base : String
  commit : String
  deriving DecidableEq

structure State where
  base : Evaluator.State
  /-- The evaluation a task works on, as it has claimed or created it. -/
  evals : AList fun _ : ℕ => EvaluationRow := ∅
  /-- The jobsets and commits that Nix has evaluated, with their builds recorded. -/
  ran : List (Uuid × String) := []
  skips : List Skip := []

namespace State

/-- What the action skips, if the filter lets it. -/
def skipOf (s : State) : Action → Option Skip
  | .task t .skip => (s.evals.lookup t).bind fun e =>
      e.sourceBaseCommit.map fun base => ⟨e.jobsetId, base, e.commitHash⟩
  | _ => none

/-- The action records the builds of a commit. -/
def ranBy (cfg : Config) (s : State) (a : Action) : Option (Uuid × String) :=
  (commitOf cfg.evaluator s.base a).bind fun x =>
    (s.base.db.evaluations.get x.1).map fun e => (e.jobsetId, e.commitHash)

/-- The filter does not skip what it should evaluate. -/
def forbids (cfg : Config) (s : State) : Action → Bool
  | .task t .skip => (s.evals.lookup t).all (shouldEvaluate cfg)
  | _ => false

/-- The copies after a step to `b`. -/
def copies (s : State) (b : Evaluator.State) : Action → AList fun _ : ℕ => EvaluationRow
  | .task t _ => (b.phase t).copy.elim s.evals fun e => s.evals.insert t e
  | _ => s.evals

end State

def step (cfg : Config) (s : State) (a : Action) : Option State :=
  if s.forbids cfg a then none
  else (Evaluator.step cfg.evaluator s.base a).map fun b =>
    { base := b
      evals := s.copies b a
      ran := s.ran ++ (s.ranBy cfg a).toList
      skips := s.skips ++ (s.skipOf a).toList }

abbrev exec (cfg : Config) := Lts.exec (step cfg)

abbrev Along (cfg : Config) := Lts.Along (step cfg)

/-! ### The condition -/

section

variable (cfg : Config) (first : Option String) (projectId jobsetId : Uuid) (branch : String)

/-- The jobset's evaluation of the commit has run to its end, or was skipped. -/
def State.Settled (s : State) (commit : String) : Prop :=
  (jobsetId, commit) ∈ s.ran ∨ ∃ k ∈ s.skips, k.jobsetId = jobsetId ∧ k.commit = commit

/-- No commit that is between the two on the branch has been evaluated. -/
def State.NoneBetween (s : State) (x y : String) : Prop :=
  ∀ r ∈ s.ran, r.1 = jobsetId → ¬ (Older (s.base.tips first projectId branch) x r.2 ∧
    Older (s.base.tips first projectId branch) r.2 y)

/-- The filter compares a commit with an older one that is settled, and that no
evaluated commit separates from it; and no commit is evaluated later that lies
between a skipped commit and its base. -/
def ComparesSettled (s : State) (a : Action) : Prop :=
  (∀ k ∈ s.skipOf a, k.jobsetId = jobsetId → Older (s.base.tips first projectId branch) k.base k.commit ∧
    s.Settled jobsetId k.base ∧ s.NoneBetween first projectId jobsetId branch k.base k.commit) ∧
  ∀ r ∈ s.ranBy cfg a, r.1 = jobsetId → ∀ k ∈ s.skips, k.jobsetId = jobsetId →
    ¬ (Older (s.base.tips first projectId branch) k.base r.2 ∧ Older (s.base.tips first projectId branch) r.2 k.commit)

/-- Of the commits before `commit` on the branch, `r` is the last that has been
evaluated. -/
structure State.LastRan (s : State) (r commit : String) : Prop where
  ran : (jobsetId, r) ∈ s.ran
  older : Older (s.base.tips first projectId branch) r commit
  last : ∀ x ∈ s.ran, x.1 = jobsetId → Older (s.base.tips first projectId branch) r x.2 →
    ¬ Older (s.base.tips first projectId branch) x.2 commit

end

instance (first : Option String) (projectId jobsetId : Uuid) (branch : String) (s : State) (r commit : String) :
    Decidable (s.LastRan first projectId jobsetId branch r commit) :=
  decidable_of_iff (_ ∧ _ ∧ _) ⟨fun ⟨h₁, h₂, h₃⟩ => ⟨h₁, h₂, h₃⟩, fun h => ⟨h.ran, h.older, h.last⟩⟩

instance (jobsetId : Uuid) (s : State) (commit : String) : Decidable (s.Settled jobsetId commit) :=
  inferInstanceAs (Decidable (_ ∨ _))

instance (first : Option String) (projectId jobsetId : Uuid) (branch : String) (s : State) (x y : String) :
    Decidable (s.NoneBetween first projectId jobsetId branch x y) :=
  inferInstanceAs (Decidable (∀ r ∈ s.ran, r.1 = jobsetId → ¬ (_ ∧ _)))

instance (cfg : Config) (first : Option String) (projectId jobsetId : Uuid) (branch : String) (s : State)
    (a : Action) : Decidable (ComparesSettled cfg first projectId jobsetId branch s a) :=
  inferInstanceAs (Decidable (_ ∧ _))

/-! ### Chains of skipped commits -/

section

variable {cfg : Config} {first : Option String} {projectId jobsetId : Uuid} {branch : String} {s s' : State}
  {a : Action}

variable (cfg first projectId jobsetId branch) in
/-- A skipped commit is as its base at the matching paths, and its base is
settled. -/
structure Chained (s : State) (k : Skip) : Prop where
  older : Older (s.base.tips first projectId branch) k.base k.commit
  settled : s.Settled jobsetId k.base
  none : s.NoneBetween first projectId jobsetId branch k.base k.commit
  unchanged : matchingPathChanged cfg (cfg.pathFilters jobsetId) k.base k.commit = some false

/-- Down the chain, to the last commit that was evaluated. -/
theorem unchanged_since_lastRan (hI : ∀ k ∈ s.skips, k.jobsetId = jobsetId →
      Chained cfg first projectId jobsetId branch s k) {r : String} :
    ∀ {k : Skip}, Chained cfg first projectId jobsetId branch s k →
      s.LastRan first projectId jobsetId branch r k.commit →
      matchingPathChanged cfg (cfg.pathFilters jobsetId) r k.commit = some false := by
  -- by the position of the commit on the branch
  suffices ∀ n, ∀ k : Skip, (s.base.tips first projectId branch).idxOf k.commit = n →
      Chained cfg first projectId jobsetId branch s k → s.LastRan first projectId jobsetId branch r k.commit →
      matchingPathChanged cfg (cfg.pathFilters jobsetId) r k.commit = some false from
    fun {k} hk hr => this _ k rfl hk hr
  intro n
  induction n using Nat.strongRecOn with
  | ind n ih =>
    intro k hn hk hr
    rcases Older.trichotomy hr.older.mem hk.older.mem with hlt | rfl | hgt
    · -- the base comes after the commit: it was not evaluated, so it was skipped
      have hnot : (jobsetId, k.base) ∉ s.ran := fun hb => hr.last _ hb rfl hlt hk.older
      obtain ⟨k', hk', hj', hc'⟩ := hk.settled.resolve_left hnot
      have hchained := hI k' hk' hj'
      have hr' : s.LastRan first projectId jobsetId branch r k'.commit := by
        refine ⟨hr.ran, hc' ▸ hlt, fun x hx hxj hrx hxc => hr.last x hx hxj hrx ?_⟩
        exact IsTrans.trans _ _ _ (hc' ▸ hxc) hk.older
      have hbase := ih _ (hn ▸ hc' ▸ hk.older.2) k' rfl hchained hr'
      exact unchanged_trans (hc' ▸ hbase) hk.unchanged
    · exact hk.unchanged
    · exact absurd ⟨hgt, hr.older⟩ (hk.none _ hr.ran rfl)

/-- The filter has its say. -/
theorem unchanged_of_not_shouldEvaluate {e : EvaluationRow} (h : shouldEvaluate cfg e = false) :
    ∃ base, e.sourceBaseCommit = some base ∧
      matchingPathChanged cfg (cfg.pathFilters e.jobsetId) base e.commitHash = some false := by
  unfold shouldEvaluate at h
  obtain ⟨-, h⟩ := Bool.or_eq_false_iff.mp h
  cases hb : e.sourceBaseCommit with
  | none =>
    rw [hb] at h
    cases h
  | some base =>
    rw [hb, Option.elim_some] at h
    refine ⟨base, rfl, ?_⟩
    cases hm : matchingPathChanged cfg (cfg.pathFilters e.jobsetId) base e.commitHash with
    | none =>
      rw [hm] at h
      cases h
    | some =>
      rw [hm] at h
      exact congrArg some h

theorem step_eq_some (h : step cfg s a = some s') : s.forbids cfg a = false ∧
    (∃ b, Evaluator.step cfg.evaluator s.base a = some b ∧ s'.base = b) ∧
    s'.ran = s.ran ++ (s.ranBy cfg a).toList ∧ s'.skips = s.skips ++ (s.skipOf a).toList := by
  unfold step at h
  split_ifs at h with hf
  obtain ⟨b, hb, rfl⟩ := Option.map_eq_some_iff.mp h
  exact ⟨by simpa using hf, ⟨b, hb, rfl⟩, rfl, rfl⟩

/-- A skip of the jobset that meets the condition. -/
theorem chained_of_skip (ha : ComparesSettled cfg first projectId jobsetId branch s a)
    (hf : s.forbids cfg a = false) {k : Skip} (hk : s.skipOf a = some k) (hj : k.jobsetId = jobsetId) :
    Chained cfg first projectId jobsetId branch s k := by
  obtain ⟨holder, hsettled, hnone⟩ := ha.1 k hk hj
  refine ⟨holder, hsettled, hnone, ?_⟩
  unfold State.skipOf at hk
  split at hk
  next t =>
    obtain ⟨e, he, hk⟩ := Option.bind_eq_some_iff.mp hk
    obtain ⟨base, hbase, rfl⟩ := Option.map_eq_some_iff.mp hk
    simp only [State.forbids, he, Option.all_some] at hf
    obtain ⟨base', hbase', hsame⟩ := unchanged_of_not_shouldEvaluate hf
    obtain rfl := Option.some.inj (hbase.symm.trans hbase')
    exact hj ▸ hsame
  next => cases hk

theorem Chained.step {k : Skip} (hk : Chained cfg first projectId jobsetId branch s k) (h : step cfg s a = some s')
    (hran : ∀ r ∈ s.ranBy cfg a, r.1 = jobsetId → ¬ (Older (s.base.tips first projectId branch) k.base r.2 ∧
      Older (s.base.tips first projectId branch) r.2 k.commit)) :
    Chained cfg first projectId jobsetId branch s' k := by
  obtain ⟨-, ⟨b, hb, hbase⟩, hran', hskips'⟩ := step_eq_some h
  obtain ⟨l, htips⟩ : ∃ l, s'.base.tips first projectId branch = s.base.tips first projectId branch ++ l := by
    rw [hbase]
    rcases tips_of_step first projectId branch hb with ⟨ht, -⟩ | ⟨c, -, -, ht, -⟩
    · exact ⟨[], by rw [ht, List.append_nil]⟩
    · exact ⟨[c], ht⟩
  refine ⟨htips ▸ hk.older.append l, ?_, fun r hr hj hbetween => ?_, hk.unchanged⟩
  · unfold State.Settled
    rw [hran', hskips']
    exact hk.settled.imp (List.mem_append_left _) fun ⟨k', hk', h'⟩ => ⟨k', List.mem_append_left _ hk', h'⟩
  · rw [htips] at hbetween
    have hrc := hbetween.2.of_append hk.older.1
    have hbr := hbetween.1.of_append hrc.mem
    rw [hran'] at hr
    rcases List.mem_append.mp hr with hr | hr
    · exact hk.none r hr hj ⟨hbr, hrc⟩
    · exact hran r (Option.mem_toList.mp hr) hj ⟨hbr, hrc⟩

variable (cfg first projectId jobsetId branch) in
def SkipInv (s : State) : Prop := ∀ k ∈ s.skips, k.jobsetId = jobsetId → Chained cfg first projectId jobsetId branch s k

theorem SkipInv.step (hI : SkipInv cfg first projectId jobsetId branch s)
    (ha : ComparesSettled cfg first projectId jobsetId branch s a) (h : step cfg s a = some s') :
    SkipInv cfg first projectId jobsetId branch s' := by
  intro k hk hj
  obtain ⟨hf, -, -, hskips⟩ := step_eq_some h
  rw [hskips] at hk
  rcases List.mem_append.mp hk with hk | hk
  · exact (hI k hk hj).step h fun r hr hrj => ha.2 r hr hrj k hk hj
  · have hk := Option.mem_toList.mp hk
    refine (chained_of_skip ha hf hk hj).step h fun r hr => ?_
    -- a step that skips records nothing
    unfold State.skipOf at hk
    split at hk
    next t =>
      obtain ⟨x, hx, -⟩ := Option.bind_eq_some_iff.mp hr
      obtain ⟨_, _, _, ha', -⟩ := commitOf_eq hx
      cases ha'
    next => cases hk

/-- **Path filters never lose a change.** Take a jobset and a branch, and a run
in which the filter compares with settled commits only. If a matching path
differs between the last commit of the branch that was evaluated and a commit
that task `t` is to evaluate, the filter does not skip that one. -/
theorem path_filters_lose_nothing {s₀ : State} {as : List Action} {t : ℕ} (h₀ : s₀.skips = [])
    (hrun : Along cfg (ComparesSettled cfg first projectId jobsetId branch) s₀ (as ++ [.task t .skip]))
    (h : exec cfg s₀ as = some s) {e : EvaluationRow} (he : s.evals.lookup t = some e) (hj : e.jobsetId = jobsetId)
    {r : String} (hr : s.LastRan first projectId jobsetId branch r e.commitHash)
    (hd : matchingPathChanged cfg (cfg.pathFilters jobsetId) r e.commitHash = some true) :
    shouldEvaluate cfg e = true := by
  have hI₀ : SkipInv cfg first projectId jobsetId branch s₀ := fun k hk => by
    rw [h₀] at hk
    cases hk
  have hI := Lts.exec_inv (fun _ _ _ hI ha hs => SkipInv.step hI ha hs) hI₀ hrun.append.1 h
  have ha := (hrun.append.2 s h).1
  by_contra hnot
  have hskip : shouldEvaluate cfg e = false := by simpa using hnot
  obtain ⟨base, hbase, -⟩ := unchanged_of_not_shouldEvaluate hskip
  have hk : s.skipOf (.task t .skip) = some ⟨e.jobsetId, base, e.commitHash⟩ := by simp [State.skipOf, he, hbase]
  have hchained := chained_of_skip ha (by simpa [State.forbids, he] using hskip) hk hj
  have := unchanged_since_lastRan hI hchained hr
  rw [show Skip.commit _ = e.commitHash from rfl, hd] at this
  cases this

end

/-- A jobset that filters on `pkg`, which has these contents. -/
def onPkg (pkg : String → Option String) : Config where
  evaluator := small
  pathFilters _ := ["pkg"]
  trees commit := (pkg commit).map fun content path =>
    if path = "pkg" then some content else if path = "README" then some commit else none
  paths := ["pkg", "README"]
  pathspecMatches spec path := decide (spec = path)

/-- The commits `a`, `b` and `c` have these. -/
def threeContents (x y z : String) (commit : String) : Option String :=
  if commit = "a" then some x else if commit = "b" then some y else if commit = "c" then some z else none

def followsMain (latest : Bool) : State := { base := withJobset { mainJobset with onlyBuildLatest := latest } }

/-- A commit is pushed as delivery `k`, and handled. -/
def pushed (k : ℕ) (commit : String) : List Action :=
  [[Action.gitPush 0 "main" (some commit), .deliver 1 k], nexts 1 2].flatten

/-- Its evaluation comes to the filter. -/
def upToFilter (id : Uuid) : List Action := Action.drain 1 id :: nexts 1 3

def evaluatedByNix : List Action := Action.task 1 (.evaluated [] none) :: nexts 1 2

/-- `a` is evaluated, `b` is skipped, and `c` comes to the filter. -/
def comparedWithSkipped : List Action :=
  [pushed 0 "a", upToFilter 1, evaluatedByNix, pushed 1 "b", upToFilter 2, [.task 1 .skip], pushed 2 "c",
    upToFilter 3].flatten

theorem path_filters_lose_nothing_comparedWithSkipped :
    ∃ s ∈ exec (onPkg (threeContents "1" "1" "2")) (followsMain true) comparedWithSkipped,
      ∃ e ∈ s.evals.lookup 1, e.commitHash = "c" ∧ shouldEvaluate (onPkg (threeContents "1" "1" "2")) e = true := by
  have hs : ∃ s ∈ exec (onPkg (threeContents "1" "1" "2")) (followsMain true) comparedWithSkipped,
      ∃ e ∈ s.evals.lookup 1, e.jobsetId = 0 ∧ e.commitHash = "c" ∧ s.LastRan none 0 0 "main" "a" "c" := by decide
  have hrun : Along (onPkg (threeContents "1" "1" "2"))
      (ComparesSettled (onPkg (threeContents "1" "1" "2")) none 0 0 "main") (followsMain true)
      (comparedWithSkipped ++ [.task 1 .skip]) := by decide
  obtain ⟨s, h, e, he, hj, hc, hr⟩ := hs
  have := path_filters_lose_nothing rfl hrun h he hj (hc ▸ hr) (hc ▸ (by decide))
  exact ⟨s, h, e, he, hc, this⟩

/-- The filter skips `c`, which differs from the last commit that was evaluated. -/
def Lost (s : State) : Prop :=
  ∃ e ∈ s.evals.lookup 1, e.commitHash = "c" ∧ s.LastRan none 0 0 "main" "a" "c" ∧
    matchingPathChanged (onPkg (threeContents "1" "2" "2")) ["pkg"] "a" "c" = some true ∧
    shouldEvaluate (onPkg (threeContents "1" "2" "2")) e = false ∧
    (step (onPkg (threeContents "1" "2" "2")) s (.task 1 .skip)).isSome

instance (s : State) : Decidable (Lost s) := inferInstanceAs (Decidable (∃ e ∈ s.evals.lookup 1, _))

/-- `b` is superseded before it is evaluated, or its evaluation fails. -/
theorem change_lost :
    (∃ s ∈ exec (onPkg (threeContents "1" "2" "2")) (followsMain true)
      [pushed 0 "a", upToFilter 1, evaluatedByNix, pushed 1 "b", pushed 2 "c", upToFilter 3].flatten, Lost s) ∧
    ∃ s ∈ exec (onPkg (threeContents "1" "2" "2")) (followsMain false)
      [pushed 0 "a", upToFilter 1, evaluatedByNix, pushed 1 "b", upToFilter 2, [.task 1 (.failed false "")],
        pushed 2 "c", upToFilter 3].flatten, Lost s := by
  decide

end PathFilter

end Circus.Evaluator
