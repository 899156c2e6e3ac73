/-
# Repositories

`crates/evaluator/src/git.rs`: the evaluator keeps one clone of a project's
repository and reads branch tips off it. Its refspecs have no `+` and it does
not prune: a fetch creates the refs that the clone does not have yet, moves the
others by fast-forward only, and removes none (`fetchRefs`). So a branch that is
deleted, or moved to a commit that does not descend from the one before, keeps
its last tip in the clone. The heads of change requests are tracked next to the
branches, and the local branch that cloning makes stays where it was.
-/
import Circus.Evaluator.Webhooks

namespace Circus.Evaluator

open Webhooks

/-- Commits by ref name. -/
abbrev Refs := AList fun _ : String => String

section Fetch

variable {β : Type*} (forward : β → β → Bool)

/-- The refs that a fetch updates: new ones, and those that move forward. -/
def updates (remote tracked : AList fun _ : String => β) : AList fun _ : String => β :=
  ⟨remote.entries.filter fun x => (tracked.lookup x.1).all fun old => forward x.2 old, 
    List.NodupKeys.sublist List.filter_sublist remote.nodupKeys⟩

/-- A refspec without `+`, and without pruning. -/
def fetchRefs (remote tracked : AList fun _ : String => β) : AList fun _ : String => β :=
  updates forward remote tracked ∪ tracked

variable {forward}

theorem lookup_updates (remote tracked : AList fun _ : String => β) (name : String) :
    (updates forward remote tracked).lookup name =
      (remote.lookup name).filter fun new => (tracked.lookup name).all fun old => forward new old := by
  refine Option.ext fun new => ?_
  rw [← Option.mem_def, ← Option.mem_def, AList.mem_lookup_iff, Option.mem_filter_iff, AList.mem_lookup_iff]
  exact List.mem_filter

theorem lookup_fetchRefs_of_none {remote tracked : AList fun _ : String => β} {name : String}
    (h : remote.lookup name = none) : (fetchRefs forward remote tracked).lookup name = tracked.lookup name := by
  refine AList.lookup_union_right (AList.lookup_eq_none.mp ?_)
  rw [lookup_updates, h]
  rfl

theorem lookup_fetchRefs_of_forward {remote tracked : AList fun _ : String => β} {name : String} {new : β}
    (h : remote.lookup name = some new) (hf : ∀ old ∈ tracked.lookup name, forward new old = true) :
    (fetchRefs forward remote tracked).lookup name = some new := by
  have hup : (updates forward remote tracked).lookup name = some new := by
    rw [lookup_updates, h]
    cases ht : tracked.lookup name with
    | none => rfl
    | some old => simp [hf old ht]
  exact (AList.lookup_union_left (AList.lookup_isSome.mp (by rw [hup]; rfl))).trans hup

end Fetch

/-- The refs of the evaluator's clone, without their leading directories. -/
structure Clone where
  /-- `refs/remotes/origin/*`. -/
  tracking : Refs := ∅
  /-- `refs/tags/*`, with the time of the tag. -/
  tags : AList fun _ : String => String × ℤ := ∅
  /-- `refs/heads/*`. -/
  heads : Refs := ∅
  /-- The branch that `refs/remotes/origin/HEAD` stands for. -/
  head : Option String := none

/-- A project's repository: the forge's side of it, the attributes of its URL
and the clone. -/
structure Repo where
  /-- `refs/heads/*` at the forge. -/
  branches : Refs := ∅
  /-- `refs/tags/*` at the forge, with the time of the tag. -/
  tags : AList fun _ : String => String × ℤ := ∅
  /-- The heads of change requests, under the names they are tracked by
  (`pr/*`, `mr/*`). -/
  requests : Refs := ∅
  defaultBranch : String := "main"
  /-- `source_attribute(url, "rev")`. -/
  rev : Option String := none
  /-- `source_attribute(url, "ref")`. -/
  ref : Option String := none
  /-- The commit graph: the first commit descends from the second. -/
  descends : String → String → Bool := fun _ _ => true
  clone : Option Clone := none

inductive RefKind
  | branch
  | tag
  deriving DecidableEq, Repr

/-- A discovered ref. `refTime` is read for tags only. -/
structure DiscoveredRef where
  kind : RefKind
  name : String
  commitHash : String
  refTime : ℤ := 0
  deriving DecidableEq, Repr

namespace Repo

/-- A move that a refspec without `+` allows. -/
def isForward (r : Repo) (new old : String) : Bool := decide (new = old) || r.descends new old

/-- `clone_or_open_and_fetch`: the clone after it. -/
def fetched (r : Repo) : Clone :=
  let c := r.clone.getD {
    heads := (r.branches.lookup r.defaultBranch).elim ∅ fun c => (∅ : Refs).insert r.defaultBranch c
    head := some r.defaultBranch }
  { c with
    tracking := fetchRefs r.isForward r.requests (fetchRefs r.isForward r.branches c.tracking)
    tags := fetchRefs (fun new old => r.isForward new.1 old.1) r.tags c.tags }

def fetchAllRefs (r : Repo) : Repo := { r with clone := some r.fetched }

end Repo

/-- The branch that the clone tracks under a name of `refs/remotes/origin/`. -/
def Clone.trackedBranch (c : Clone) (name : String) : Option String := if name = "HEAD" then c.head else some name

def Clone.resolveRef (c : Clone) (gitRef : String) : Option String :=
  match stripPrefix "refs/remotes/origin/" gitRef with
  | some name => (c.trackedBranch name).bind c.tracking.lookup
  | none =>
    match stripPrefix "refs/tags/" gitRef with
    | some name => (c.tags.lookup name).map (·.1)
    | none => (stripPrefix "refs/heads/" gitRef).bind c.heads.lookup

/-- The name that `clone_or_fetch` resolves for a branch setting. -/
def gitRefOf (branchName : String) : String :=
  if (stripPrefix "refs/" branchName).isSome then branchName else "refs/remotes/origin/" ++ branchName

/-- `clone_or_fetch`, on a fetched repository: the commit it resolves. -/
def Repo.cloneOrFetch (r : Repo) (branch : Option String) : Option String :=
  match r.rev with
  | some rev => some rev
  | none =>
    -- The shorthand of a detached `HEAD`. Before the first checkout it is the
    -- name of the branch that `refs/remotes/origin/HEAD` stands for.
    let branchName := (branch.or r.ref).getD "HEAD"
    r.clone.bind fun c => c.resolveRef (gitRefOf branchName)

/-- The repository has no ref but the branch itself that a fetch could take for
it: no pinned revision, no other branch or change request under its name, and
nothing in the clone that a fetch would keep instead of its tip. -/
structure Repo.Plain (r : Repo) (branch : String) : Prop where
  notHead : branch ≠ "HEAD"
  rev : r.rev = none
  requests : r.requests.lookup branch = none
  gone : r.branches.lookup branch = none → ∀ c ∈ r.clone, c.tracking.lookup branch = none
  forward : ∀ c ∈ r.clone, ∀ old ∈ c.tracking.lookup branch, ∀ new ∈ r.branches.lookup branch,
    r.isForward new old = true

namespace Repo.Plain

variable {r : Repo} {branch : String}

theorem lookup_fetched (h : r.Plain branch) : r.fetched.tracking.lookup branch = r.branches.lookup branch := by
  unfold Repo.fetched
  rw [lookup_fetchRefs_of_none h.requests]
  cases hb : r.branches.lookup branch with
  | some new =>
    refine lookup_fetchRefs_of_forward hb fun old hold => ?_
    cases hc : r.clone with
    | none =>
      rw [hc] at hold
      cases hold
    | some c =>
      rw [hc] at hold
      exact h.forward c hc old hold new hb
  | none =>
    rw [lookup_fetchRefs_of_none hb]
    cases hc : r.clone with
    | none => rfl
    | some c => exact h.gone hb c hc

theorem fetchAllRefs (h : r.Plain branch) : r.fetchAllRefs.Plain branch where
  notHead := h.notHead
  rev := h.rev
  requests := h.requests
  gone hb c hc := by
    cases hc
    exact h.lookup_fetched.trans hb
  forward c hc old hold new hnew := by
    cases hc
    obtain rfl : new = old := Option.some.inj (hnew.symm.trans (h.lookup_fetched.symm.trans hold))
    simp [Repo.isForward]

/-- A fetch then resolves the branch to its tip. -/
theorem cloneOrFetch (h : r.Plain branch) (hb : stripPrefix "refs/" branch = none) :
    r.fetchAllRefs.cloneOrFetch (some branch) = r.branches.lookup branch := by
  rw [← h.lookup_fetched]
  simp [Repo.cloneOrFetch, Repo.fetchAllRefs, h.rev, gitRefOf, hb, Clone.resolveRef, stripPrefix_append,
    Clone.trackedBranch, h.notHead]

end Repo.Plain

/-- The order of `list_matching_refs`: branches first, then by name. -/
def DiscoveredRef.before (a b : DiscoveredRef) : Bool :=
  match a.kind, b.kind with
  | .branch, .tag => true
  | .tag, .branch => false
  | _, _ => decide (a.name ≤ b.name)

/-- `list_matching_refs`, on a fetched repository. -/
def Repo.listMatchingRefs (r : Repo) (branchPattern tagPattern : Option String) : List DiscoveredRef :=
  let c := r.clone.getD {}
  let branches := branchPattern.elim [] fun pattern => c.tracking.entries.filterMap fun x =>
    if x.1 = "HEAD" ∨ globMatches pattern x.1 = false then none else some ⟨.branch, x.1, x.2, 0⟩
  let tags := tagPattern.elim [] fun pattern => c.tags.entries.filterMap fun x =>
    if globMatches pattern x.1 = false then none else some ⟨.tag, x.1, x.2.1, x.2.2⟩
  (branches ++ tags).insertionSort fun a b => a.before b = true

/-- The later of two tags, by time, then by name. -/
def DiscoveredRef.newer (a b : DiscoveredRef) : DiscoveredRef :=
  if a.refTime < b.refTime ∨ a.refTime = b.refTime ∧ a.name ≤ b.name then b else a

def retainNewestTag (refs : List DiscoveredRef) : List DiscoveredRef :=
  let newest := (refs.filter fun r => decide (r.kind = .tag)).foldl
    (fun m r => some (m.elim r fun m => m.newer r)) none
  (refs.filter fun r => decide (r.kind = .branch)) ++ newest.toList

end Circus.Evaluator
