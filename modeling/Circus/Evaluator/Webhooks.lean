/-
# Webhooks

`crates/server/src/routes/webhooks.rs` with the push handlers of the forges:
which jobsets a push or a change request reaches, and the evaluation it asks
for in each of them. Matching reads the jobset rows listed at the start of the
request only, so what a delivery will ask for is a list of `Request`s
(`pushRequests`, `changeRequests`); each is a transaction of its own.

Prefixes are stripped on the list of characters, and globs match bytes, as in
`crates/common/src/glob.rs`.
-/
import Circus.Evaluator.Db

namespace Circus.Evaluator.Webhooks

/-! ### Globs -/

def asBytes (s : String) : List UInt8 := s.toList.flatMap String.utf8EncodeChar

theorem asBytes_injective : Function.Injective asBytes := by
  intro s t h
  have hbytes : s.toByteArray = t.toByteArray := by
    rw [← String.utf8Encode_toList, ← String.utf8Encode_toList]
    exact congrArg List.toByteArray h
  exact String.toByteArray_inj.mp hbytes

/-- A `*` in front of a pattern that `rest` matches: it takes any run. -/
def globStar (rest : List UInt8 → Bool) : List UInt8 → Bool
  | [] => rest []
  | c :: value => rest (c :: value) || globStar rest value

/-- `inner` of `glob_matches`; 42 is `*` and 63 is `?`. -/
def globInner : List UInt8 → List UInt8 → Bool
  | [], value => value.isEmpty
  | ch :: rest, value =>
    if ch = 42 then globStar (globInner rest) value
    else
      match value with
      | [] => false
      | v :: value => (ch == 63 || v == ch) && globInner rest value

def globMatches (pattern value : String) : Bool := globInner (asBytes pattern) (asBytes value)

/-! ### Refs -/

def stripPrefix (start s : String) : Option String := (start.toList.isPrefixOf? s.toList).map String.ofList

theorem stripPrefix_append (start s : String) : stripPrefix start (start ++ s) = some s := by
  simp [stripPrefix]

theorem eq_append_of_stripPrefix {start s rest : String} (h : stripPrefix start s = some rest) : s = start ++ rest := by
  obtain ⟨l, hl, rfl⟩ := Option.map_eq_some_iff.mp h
  rw [← String.toList_inj, String.toList_append, String.toList_ofList]
  exact (List.append_eq_of_isPrefixOf?_eq_some hl).symm

inductive PushedRef
  | branch (name : String)
  | tag (name : String)
  | other (gitRef : String)
  deriving DecidableEq, Repr

def parsePushRef (gitRef : String) : PushedRef :=
  match stripPrefix "refs/heads/" gitRef with
  | some name => .branch name
  | none =>
    match stripPrefix "refs/tags/" gitRef with
    | some name => .tag name
    | none => .other gitRef

def normalizeBranchName (branch : String) : String := (stripPrefix "refs/heads/" branch).getD branch

/-- A branch that is not written as a full ref. -/
theorem normalizeBranchName_of_plain {branch : String} (h : stripPrefix "refs/" branch = none) :
    normalizeBranchName branch = branch := by
  unfold normalizeBranchName
  cases hs : stripPrefix "refs/heads/" branch with
  | none => rfl
  | some rest =>
    obtain rfl := eq_append_of_stripPrefix hs
    have := stripPrefix_append "refs/" ("heads/" ++ rest)
    rw [← String.append_assoc] at this
    cases h.symm.trans this

def jobsetMatchesBranch (j : JobsetRow) (pushedBranch : String) : Bool :=
  match j.branchPattern with
  | some pattern => globMatches pattern pushedBranch
  | none =>
    match j.branch with
    | some branch => decide (normalizeBranchName branch = pushedBranch)
    | none => j.tagPattern.isNone

def jobsetMatchesTag (j : JobsetRow) (pushedTag : String) : Bool :=
  j.tagPattern.any fun pattern => globMatches pattern pushedTag

def jobsetMatchesPushRef (j : JobsetRow) : PushedRef → Bool
  | .branch branch => jobsetMatchesBranch j branch
  | .tag tag => jobsetMatchesTag j tag
  | .other _ => false

def jobsetAcceptsSourceTrigger (j : JobsetRow) : Bool := j.enabled && decide (j.triggerMode = .sourceChange)

/-- The id a forge sends where there is no commit. -/
def zeroCommit : String := "0000000000000000000000000000000000000000"

def isDeletedCommit (commit : String) : Bool := decide (commit = "" ∨ commit = zeroCommit)

def branchScope (branch : String) : String := "branch:" ++ branch

theorem branchScope_injective {b b' : String} (h : branchScope b = branchScope b') : b = b' := by
  simpa [branchScope] using h

def pushSourceScope : PushedRef → String
  | .branch branch => branchScope branch
  | .tag _ => "tags"
  | .other gitRef => "ref:" ++ gitRef

def pushSourceOrder (previousCommit : Option String) : PushedRef → SourceOrder
  | .branch _ => previousCommit.elim .first .after
  | .tag _ | .other _ => .unchecked

theorem parsePushRef_branch (branch : String) : parsePushRef ("refs/heads/" ++ branch) = .branch branch := by
  simp [parsePushRef, stripPrefix_append]

/-! ### Deliveries -/

/-- What `trigger_push_evaluations` is called with. -/
structure Push where
  projectId : Uuid
  commit : String
  previousCommit : Option String
  pushedRef : PushedRef
  deriving DecidableEq, Repr

/-- The fields of a push payload that are read. Only GitLab sends a
`checkout_sha`. -/
structure PushPayload where
  gitRef : Option String
  before : Option String
  after : Option String
  checkoutSha : Option String := none
  deriving DecidableEq, Repr

/-- What a forge sends when a branch goes from one commit to another. -/
def branchPush (branch before after : String) : PushPayload where
  gitRef := some ("refs/heads/" ++ branch)
  before := some before
  after := some after

/-- `handle_push` of the forges, up to `trigger_push_evaluations`: a deletion
is answered without it. -/
def handlePush (projectId : Uuid) (payload : PushPayload) : Option Push :=
  let commit := (payload.checkoutSha.or payload.after).getD ""
  if isDeletedCommit commit then none
  else some {
    projectId := projectId
    commit := commit
    previousCommit := payload.before
    pushedRef := payload.gitRef.elim (.other "") parsePushRef }

/-- The body of the loop of `trigger_push_evaluations`. -/
def pushRequest (p : Push) (j : JobsetRow) : Option Request :=
  if jobsetAcceptsSourceTrigger j && jobsetMatchesPushRef j p.pushedRef then
    some (.enqueueSource { jobsetId := j.id, commitHash := p.commit } (pushSourceScope p.pushedRef)
      (pushSourceOrder p.previousCommit p.pushedRef))
  else none

structure ChangeRequestEvaluation where
  projectId : Uuid
  commit : String
  previousCommit : Option String := none
  first : Bool := false
  number : Option ℤ := none
  headBranch : Option String := none
  baseBranch : Option String := none
  action : Option String := none
  deriving DecidableEq, Repr

namespace ChangeRequestEvaluation

def sourceScope (c : ChangeRequestEvaluation) : String :=
  match c.number with
  | none => "change-request:" ++ c.headBranch.getD "unknown"
  | some number => "change-request:" ++ toString number

def sourceOrder (c : ChangeRequestEvaluation) : SourceOrder :=
  if c.first then .first else c.previousCommit.elim .unchecked .after

end ChangeRequestEvaluation

/-- The body of the loop of `trigger_change_request_evaluations`. -/
def changeRequest (c : ChangeRequestEvaluation) (j : JobsetRow) : Option Request :=
  if jobsetAcceptsSourceTrigger j && jobsetMatchesBranch j (c.baseBranch.getD "") then
    some (.enqueueSource
      { jobsetId := j.id
        commitHash := c.commit
        prNumber := c.number
        prHeadBranch := c.headBranch
        prBaseBranch := c.baseBranch
        prAction := c.action } c.sourceScope c.sourceOrder)
  else none

def listAllForProject (projectId : Uuid) (db : Db) : List JobsetRow :=
  db.jobsets.select fun j => decide (j.projectId = projectId)

/-- The transactions of `trigger_push_evaluations`. -/
def pushRequests (p : Push) (db : Db) : List Request := (listAllForProject p.projectId db).filterMap (pushRequest p)

/-- The transactions of `trigger_change_request_evaluations`. -/
def changeRequests (c : ChangeRequestEvaluation) (db : Db) : List Request :=
  (listAllForProject c.projectId db).filterMap (changeRequest c)

/-- A transaction of the loop: an error is logged or ignored. -/
def attempt (now : Time) (r : Request) (db : Db) : Db :=
  match r.run now db with
  | .ok (_, db') => db'
  | .error _ => db

/-- A push delivered to the server and handled to its end. -/
def deliver (now : Time) (projectId : Uuid) (payload : PushPayload) (db : Db) : Db :=
  (handlePush projectId payload).elim db fun p => (pushRequests p db).foldl (fun db r => attempt now r db) db

/-- The push of a branch, as every jobset of the project that it reaches sees it. -/
theorem handlePush_branchPush (projectId : Uuid) (branch before after : String) :
    handlePush projectId (branchPush branch before after) = if isDeletedCommit after then none
      else some ⟨projectId, after, some before, .branch branch⟩ := by
  simp [handlePush, branchPush, parsePushRef_branch]

end Circus.Evaluator.Webhooks
