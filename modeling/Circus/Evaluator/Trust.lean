/-
# Trusted refs

`is_trusted_ref_evaluation` reads the evaluation's change-request columns and
whether its jobset has a branch. Which refs get evaluated is decided
elsewhere, by the jobset's patterns: with a branch pattern or a tag pattern
next to the branch, a push of any matching ref has a trusted evaluation, and an
OIDC agent takes its builds (`pattern_reaches_oidc_agent`).

`trusted_ref_is_tip`: for a jobset that follows a branch and nothing else, if
the branch moves forward only, when no handler and no poll is at work on it, and its
pushes are delivered while they are its tip, then what is trusted was created
from the tip of the branch. `RefInv` follows a commit on its way: from the push
to the delivery and the handler's loop, or from a fetch to the creation.
-/
import Circus.Evaluator.Tip
import Circus.Dispatch

namespace Circus

open Evaluator Webhooks

/-- The jobset follows one branch of a project, and no pattern. -/
def JobsetRow.FollowsOnly (projectId : Uuid) (branch : String) (j : JobsetRow) : Prop :=
  j.projectId = projectId ∧ j.branch = some branch ∧ j.branchPattern = none ∧ j.tagPattern = none

instance (projectId : Uuid) (branch : String) (j : JobsetRow) : Decidable (j.FollowsOnly projectId branch) :=
  inferInstanceAs (Decidable (_ ∧ _ ∧ _ ∧ _))

namespace Evaluator

/-- The task is about to ask for an evaluation in the jobset. -/
def Phase.pursues (jobsetId : Uuid) : Phase → Bool
  | triggering requests => requests.any fun r => decide (r.input.jobsetId = jobsetId)
  | fetched jobset _ | creating jobset _ => decide (jobset.id = jobsetId)
  | _ => false

/-- Some task is about to ask for an evaluation in the jobset. -/
def State.pursued (s : State) (jobsetId : Uuid) : Bool := s.tasks.entries.any fun x => x.2.pursues jobsetId

section

variable (projectId jobsetId : Uuid) (branch : String)

/-- The jobset follows the branch only, the branch moves when nobody is at work
on it, forward from what the clone has of it, and does not go, its pushes are
delivered in time, and no change request is tracked under its name. -/
def InStep (s : State) : Action → Prop
  | .configure jobset => jobset.id = jobsetId → jobset.FollowsOnly projectId branch
  | .gitPush p b commit => p = projectId → b = branch → commit.isSome ∧ s.pursued jobsetId = false ∧
      ∀ new ∈ commit, ∀ c ∈ (s.repos projectId).clone, ∀ old ∈ c.tracking.lookup branch,
        (s.repos projectId).isForward new old = true
  | .deliver _ k => ∀ d ∈ s.sent[k]?, ∀ c ∈ d.pushed projectId branch, s.tip projectId branch = some c
  | .change name c => c.projectId = projectId → name ≠ branch
  | _ => True

instance (s : State) (a : Action) : Decidable (InStep projectId jobsetId branch s a) := by
  induction a using Action.casesOn <;> dsimp only [InStep] <;> infer_instance

/-- What a delivery asks for in the jobset is of a change request, or the
commit the branch has gone to. -/
def Delivery.Faithful (d : Delivery) : Prop :=
  ∀ db : Db, (∃ row, db.jobsets.get jobsetId = some row ∧ row.FollowsOnly projectId branch) →
    ∀ r ∈ d.requests db, r.input.jobsetId = jobsetId → branch ≠ "" → r.input.prBaseBranch = none →
      d.pushed projectId branch = some r.input.commitHash

structure RefInv (s : State) : Prop where
  row : ∃ row, s.db.jobsets.get jobsetId = some row ∧ row.FollowsOnly projectId branch
  repo : (s.repos projectId).Plain branch
  sent : ∀ d ∈ s.sent, d.Faithful projectId jobsetId branch
  events : ∀ t rs, s.phase t = .triggering rs → ∀ r ∈ rs, r.input.jobsetId = jobsetId → branch ≠ "" →
    r.input.prBaseBranch = none → s.tip projectId branch = some r.input.commitHash
  copies : ∀ t jobset, (s.phase t).jobset = some jobset → jobset.id = jobsetId → jobset.FollowsOnly projectId branch
  matching : ∀ t jobset, (s.phase t).matching = some jobset →
    jobset.branchPattern.isSome ∨ jobset.tagPattern.isSome
  resolved : ∀ t jobset commit, (s.phase t).resolved = some (jobset, commit) → jobset.id = jobsetId →
    s.tip projectId branch = some commit

end

section Deliveries

variable {projectId jobsetId : Uuid} {branch : String}

theorem row_of_pushRequests {db : Db} {p : Push} {r : Request} (hr : r ∈ pushRequests p db)
    (hj : r.input.jobsetId = jobsetId)
    (hrow : ∃ row, db.jobsets.get jobsetId = some row ∧ row.FollowsOnly projectId branch) :
    ∃ row, row.FollowsOnly projectId branch ∧ p.projectId = projectId ∧ r.input.commitHash = p.commit ∧
      jobsetMatchesPushRef row p.pushedRef = true := by
  obtain ⟨row, hmem, hreq⟩ := List.mem_filterMap.mp hr
  obtain ⟨hmem, hp⟩ := List.mem_filter.mp hmem
  unfold pushRequest at hreq
  split_ifs at hreq with hm
  cases hreq
  obtain ⟨row', hrow', hf⟩ := hrow
  obtain rfl : row.id = jobsetId := hj
  obtain rfl := Option.some.inj ((Table.get_of_mem hmem).symm.trans hrow')
  exact ⟨row, hf, (of_decide_eq_true hp).symm.trans hf.1, rfl, (Bool.and_eq_true_iff.mp hm).2⟩

theorem faithful_branchPush (hb : stripPrefix "refs/" branch = none) (p : Uuid) (b before after : String) :
    (Delivery.push p (branchPush b before after)).Faithful projectId jobsetId branch := by
  rintro db hrow r hr hj - -
  simp only [Delivery.requests, handlePush_branchPush] at hr
  split_ifs at hr with hd
  · cases hr
  · obtain ⟨row, ⟨-, hbranch, hpattern, -⟩, hp, hc, hm⟩ := row_of_pushRequests hr hj hrow
    have hb' : branch = b := by
      simpa [jobsetMatchesPushRef, jobsetMatchesBranch, hbranch, hpattern, normalizeBranchName_of_plain hb] using hm
    have hp' : p = projectId := hp
    subst hb' hp'
    rw [hc]
    simp [Delivery.pushed, branchPush, Option.filter, hd]

theorem faithful_tagPush (p : Uuid) (name commit : String) :
    (Delivery.push p ⟨some ("refs/tags/" ++ name), some zeroCommit, some commit, none⟩).Faithful projectId jobsetId
      branch := by
  rintro db hrow r hr hj - -
  simp only [Delivery.requests, handlePush, Option.elim_some, parsePushRef_tag] at hr
  split_ifs at hr
  · cases hr
  · obtain ⟨row, ⟨-, -, -, htag⟩, -, -, hm⟩ := row_of_pushRequests hr hj hrow
    simp [jobsetMatchesPushRef, jobsetMatchesTag, htag] at hm

theorem faithful_change (hb : stripPrefix "refs/" branch = none) (c : ChangeRequestEvaluation) :
    (Delivery.change c).Faithful projectId jobsetId branch := by
  intro db hrow r hr hj hne hbase
  obtain ⟨row, hmem, hreq⟩ := List.mem_filterMap.mp hr
  obtain ⟨hmem, -⟩ := List.mem_filter.mp hmem
  unfold changeRequest at hreq
  split_ifs at hreq with hm
  cases hreq
  obtain ⟨row', hrow', -, hbranch, hpattern, -⟩ := hrow
  obtain rfl : row.id = jobsetId := hj
  obtain rfl := Option.some.inj ((Table.get_of_mem hmem).symm.trans hrow')
  -- a change request without a base branch matches the empty branch only
  have hbase' : c.baseBranch = none := hbase
  have hm := (Bool.and_eq_true_iff.mp hm).2
  simp [jobsetMatchesBranch, hbranch, hpattern, normalizeBranchName_of_plain hb, hbase', hne] at hm

end Deliveries

section Step

variable {cfg : Config} {projectId jobsetId : Uuid} {branch : String} {s s' : State} {a : Action}

theorem pursued_of_triggering {t : ℕ} {rs : List Request} (hp : s.phase t = .triggering rs) {r : Request}
    (hr : r ∈ rs) (hj : r.input.jobsetId = jobsetId) : s.pursued jobsetId = true :=
  (State.any_tasks_iff rfl).mpr ⟨t, by
    rw [hp]
    exact List.any_eq_true.mpr ⟨r, hr, decide_eq_true hj⟩⟩

theorem pursued_of_resolved {t : ℕ} {jobset : JobsetRow} {commit : String}
    (hp : (s.phase t).resolved = some (jobset, commit)) (hj : jobset.id = jobsetId) : s.pursued jobsetId = true := by
  refine (State.any_tasks_iff rfl).mpr ⟨t, ?_⟩
  unfold Phase.resolved at hp
  split at hp
  · next h =>
    obtain ⟨rfl, rfl⟩ := Prod.mk.inj (Option.some.inj hp)
    rw [h]
    exact decide_eq_true hj
  · next h =>
    obtain ⟨rfl, rfl⟩ := Prod.mk.inj (Option.some.inj hp)
    rw [h]
    exact decide_eq_true hj
  · cases hp

/-- While somebody is at work on the branch it stays. -/
theorem tip_of_pursued (ha : InStep projectId jobsetId branch s a) (h : step cfg s a = some s')
    (hp : s.pursued jobsetId = true) : s'.tip projectId branch = s.tip projectId branch := by
  refine tip_of_step h fun commit hact => ?_
  subst hact
  rw [(ha rfl rfl).2.1] at hp
  cases hp

theorem plain_of_step (ha : InStep projectId jobsetId branch s a) (h : step cfg s a = some s')
    (hI : (s.repos projectId).Plain branch) : (s'.repos projectId).Plain branch := by
  -- only the project's own repository is of concern
  have hother : ∀ (p : Uuid) (r : Repo), s'.repos = Function.update s.repos p r →
      (p = projectId → r.Plain branch) → (s'.repos projectId).Plain branch := fun p r hr hp => by
    rw [hr]
    by_cases hpp : projectId = p
    · subst hpp
      rw [Function.update_self]
      exact hp rfl
    · rw [Function.update_of_ne hpp]
      exact hI
  cases forge_of_step h with
  | kept hs hr => exact hr ▸ hI
  | fetched p hs hr => exact hother p _ hr fun hp => by subst hp; exact hI.fetchAllRefs
  | tagged p name commit time hs hr =>
    exact hother p _ hr fun hp => by subst hp; exact ⟨hI.notHead, hI.rev, hI.requests, hI.gone, hI.forward⟩
  | changed name c hact hs hr =>
    subst hact
    refine hother c.projectId _ hr fun hp => ⟨hI.notHead, hp ▸ hI.rev, ?_, hp ▸ hI.gone, hp ▸ hI.forward⟩
    rw [AList.lookup_insert_ne (ha hp).symm, hp]
    exact hI.requests
  | pushed p b commit hact hc hs hr =>
    subst hact
    refine hother p _ hr fun hp => ?_
    subst hp
    by_cases hb : branch = b
    · subst hb
      obtain ⟨hsome, -, hforward⟩ := ha rfl rfl
      obtain ⟨new, rfl⟩ := Option.isSome_iff_exists.mp hsome
      refine ⟨hI.notHead, hI.rev, hI.requests, fun hgone => ?_, fun c hc old hold new' hnew => ?_⟩
      · simp at hgone
      · obtain rfl : new = new' := by simpa using hnew
        exact hforward new rfl c hc old hold
    · -- another branch has moved
      have hsame : (commit.elim ((s.repos p).branches.erase b) fun c => (s.repos p).branches.insert b c).lookup branch =
          (s.repos p).branches.lookup branch := by
        cases commit with
        | none => exact AList.lookup_erase_ne hb
        | some => exact AList.lookup_insert_ne hb
      exact ⟨hI.notHead, hI.rev, hI.requests, fun hgone => hI.gone (hsame.symm.trans hgone),
        fun c hc old hold new hnew => hI.forward c hc old hold new (hsame.symm.trans hnew)⟩

theorem sent_of_step (hb : stripPrefix "refs/" branch = none) (h : step cfg s a = some s')
    (hI : ∀ d ∈ s.sent, d.Faithful projectId jobsetId branch) :
    ∀ d ∈ s'.sent, d.Faithful projectId jobsetId branch := by
  have hnew : ∀ d, s'.sent = s.sent ++ [d] → d.Faithful projectId jobsetId branch →
      ∀ d ∈ s'.sent, d.Faithful projectId jobsetId branch := fun d hs hd d' hd' => by
    rcases List.mem_append.mp (hs ▸ hd') with hd' | hd'
    · exact hI d' hd'
    · exact List.mem_singleton.mp hd' ▸ hd
  cases forge_of_step h with
  | kept hs | fetched p hs => exact hs ▸ hI
  | tagged p name commit time hs => exact hnew _ hs (faithful_tagPush p name commit)
  | changed name c hact hs => exact hnew _ hs (faithful_change hb c)
  | pushed p b commit hact hc hs => exact hnew _ hs (faithful_branchPush hb p b _ _)

theorem RefInv.step (hI : RefInv projectId jobsetId branch s) (hb : stripPrefix "refs/" branch = none)
    (ha : InStep projectId jobsetId branch s a) (h : step cfg s a = some s') : RefInv projectId jobsetId branch s' where
  row := jobset_of_effect (fun _ hrow => hrow) (fun _ hc => by subst hc; exact ha) hI.row (step_effect h)
  repo := plain_of_step ha h hI.repo
  sent := sent_of_step hb h hI.sent
  events t rs hp r hr hj hne hbase := by
    rcases triggering_of_step h hp with ⟨rs₀, hp₀, hmem⟩ | ⟨k, d, rfl, hd, rfl⟩
    · rw [tip_of_pursued ha h (pursued_of_triggering hp₀ (hmem r hr) hj)]
      exact hI.events t rs₀ hp₀ r (hmem r hr) hj hne hbase
    · have hpushed := hI.sent d (List.mem_of_getElem? hd) s.db hI.row r hr hj hne hbase
      rw [← ha d hd _ hpushed]
      exact tip_of_step h (by simp)
  copies t jobset hcopy hj := by
    rcases jobset_of_step h hcopy with hcopy | ⟨-, hget⟩
    · exact hI.copies t jobset hcopy hj
    · obtain ⟨row, hrow, hf⟩ := hI.row
      rw [hj] at hget
      exact Option.some.inj (hrow.symm.trans hget) ▸ hf
  matching t jobset hm := (matching_of_step h hm).elim (hI.matching t jobset) id
  resolved t jobset commit hr hj := by
    rcases resolved_of_step h hr with hr | ⟨⟨event, rfl⟩, hcopy, hfetch⟩
    · rw [tip_of_pursued ha h (pursued_of_resolved hr hj)]
      exact hI.resolved t jobset commit hr hj
    · obtain ⟨hp, hbranch, -⟩ := hI.copies t jobset hcopy hj
      rw [hp, hbranch, hI.repo.cloneOrFetch hb] at hfetch
      rw [← hfetch]
      exact tip_of_step h (by simp)

/-- What is created in the jobset is of a change request, or of the tip. -/
theorem RefInv.tip_of_request (hI : RefInv projectId jobsetId branch s) {r : Request}
    (hr : requestOf cfg s a = some r) (hj : r.input.jobsetId = jobsetId) (hne : branch ≠ "")
    (hbase : r.input.prBaseBranch = none) : s.tip projectId branch = some r.input.commitHash := by
  obtain ⟨t, -, ⟨rest, hp⟩ | ⟨jobset, commit, hp, rfl⟩ | ⟨jobset, ref, refs, hp, rfl⟩⟩ := requestOf_cases hr
  · exact hI.events t _ hp r List.mem_cons_self hj hne hbase
  · have hin : (pollRequest jobset commit).input = { jobsetId := jobset.id, commitHash := commit } := by
      unfold pollRequest
      split_ifs <;> rfl
    rw [hin] at hj ⊢
    exact hI.resolved t jobset commit (by rw [hp]; rfl) hj
  · -- a jobset without patterns has no refs to go through
    have hj' : jobset.id = jobsetId := by
      unfold refRequest at hj
      split at hj <;> exact hj
    obtain ⟨-, -, h1, h2⟩ := hI.copies t jobset (by rw [hp]; rfl) hj'
    have := hI.matching t jobset (by rw [hp]; rfl)
    simp [h1, h2] at this

end Step

/-! ### Trusted evaluations -/

section Trusted

variable {cfg : Config} {projectId jobsetId : Uuid} {branch : String} {s₀ s : State} {as : List Action}

/-- In the run `as` from `s₀`, the evaluation is created by the step taken at `s₁`. -/
inductive CreatedAt (cfg : Config) (s₀ : State) (as : List Action) (e : EvaluationRow) (s₁ : State) : Prop
  | intro (as₁ as₂ : List Action) (a : Action) (s₂ : State) (r : Request) (hrun : as = as₁ ++ a :: as₂)
      (h₁ : exec cfg s₀ as₁ = some s₁) (h₂ : step cfg s₁ a = some s₂) (hr : requestOf cfg s₁ a = some r)
      (hin : r.input = e.toCreateEvaluation) (hnew : s₁.db.evaluations.get e.id = none)
      (hget : (s₂.db.evaluations.get e.id).map EvaluationRow.identity = some e.identity)

/-- An evaluation was there at the start, or some step of the run has created it. -/
theorem createdAt_of_exec (h : exec cfg s₀ as = some s) {e : EvaluationRow} (he : s.db.evaluations.get e.id = some e) :
    (∃ e₀, s₀.db.evaluations.get e.id = some e₀ ∧ e.identity = e₀.identity) ∨ ∃ s₁, CreatedAt cfg s₀ as e s₁ := by
  induction as generalizing s₀ with
  | nil =>
    cases h
    exact .inl ⟨e, he, rfl⟩
  | cons a as ih =>
    obtain ⟨s', hs', h⟩ := (Lts.exec_cons _).mp h
    rcases ih h with ⟨e', he', hid⟩ | ⟨s₁, as₁, as₂, b, s₂, r, rfl, h₁, h₂, hr, hin, hnew, hget⟩
    · rcases identity_before (step_effect hs') he' with ⟨e₀, he₀, hid₀⟩ | ⟨r, base, hr, hk, hrow⟩
      · exact .inl ⟨e₀, he₀, hid.trans hid₀⟩
      · refine .inr ⟨s₀, [], as, a, s', r, rfl, rfl, hs', hr, ?_, ?_, ?_⟩
        · have hin : e.toCreateEvaluation = e'.toCreateEvaluation := congrArg (fun i => i.2.1) hid
          rw [hin, hrow]
          rfl
        · rw [hk, Db.get_nextId]
        · rw [he', Option.map_some, hid]
    · exact .inr ⟨s₁, a :: as₁, as₂, b, s₂, r, rfl, (Lts.exec_cons _).mpr ⟨s', hs', h₁⟩, h₂, hr, hin, hnew, hget⟩

/-- A trusted evaluation is of no change request, and its jobset's branch has a name. -/
theorem of_trusted {e : EvaluationRow} {row : JobsetRow} (hf : row.FollowsOnly projectId branch)
    (h : Dispatch.isTrustedRefEvaluation e row = true) : branch ≠ "" ∧ e.prBaseBranch = none := by
  unfold Dispatch.isTrustedRefEvaluation at h
  split_ifs at h with h1 h2
  refine ⟨fun hb => h1 (by simp [hf.2.1, hb]), ?_⟩
  by_contra hbase
  exact h2 (by simp [Option.isSome_iff_ne_none.mpr hbase])

/-- **Trusted builds are of the branch.** Take a jobset without evaluations that
follows one branch and no pattern, before any delivery, and a repository whose
URL pins no revision. In a run in which the jobset stays so, the branch moves
only when no handler and no poll is at work for the jobset and forward from what
the clone has of it, its pushes are delivered while they are its tip, it is not
deleted and no change request is tracked under its name: an evaluation of the jobset that counts as trusted was
created when its commit was the tip of the branch, and what an agent that
requires a trusted ref is given of the jobset is the build of such an
evaluation. -/
theorem trusted_ref_is_tip (h₀ : s₀.Idle) (hsent : s₀.sent = []) (hb : stripPrefix "refs/" branch = none)
    (hrepo : (s₀.repos projectId).Plain branch)
    (hrow : ∃ row ∈ s₀.db.jobsets.get jobsetId, row.FollowsOnly projectId branch)
    (hnone : ∀ e ∈ s₀.db.evaluations.rows, e.jobsetId ≠ jobsetId)
    (hrun : Along cfg (InStep projectId jobsetId branch) s₀ as) (h : exec cfg s₀ as = some s) :
    (∀ e ∈ s.db.evaluations.rows, e.jobsetId = jobsetId → ∀ row ∈ s.db.jobsets.get jobsetId,
      Dispatch.isTrustedRefEvaluation e row = true →
      ∃ s₁, CreatedAt cfg s₀ as e s₁ ∧ s₁.tip projectId branch = some e.commitHash) ∧
    ∀ env build system agent, Dispatch.selectAndReserveAgent env s.db build system = some agent →
      agent.requiresTrustedRef = true → ∃ e ∈ s.db.evaluations.get build.evaluationId, e.jobsetId = jobsetId →
      ∃ s₁, CreatedAt cfg s₀ as e s₁ ∧ s₁.tip projectId branch = some e.commitHash := by
  have hI₀ : RefInv projectId jobsetId branch s₀ := by
    refine ⟨hrow, hrepo, by simp [hsent], fun t rs hp => ?_, fun t jobset hp => ?_, fun t jobset hp => ?_,
      fun t jobset commit hp => ?_⟩ <;>
    · rw [h₀ t] at hp
      cases hp
  have hstep : ∀ s a s', RefInv projectId jobsetId branch s → InStep projectId jobsetId branch s a →
      step cfg s a = some s' → RefInv projectId jobsetId branch s' := fun _ _ _ hI ha hs => hI.step hb ha hs
  have htrusted : ∀ e, s.db.evaluations.get e.id = some e → e.jobsetId = jobsetId →
      ∀ row ∈ s.db.jobsets.get jobsetId, Dispatch.isTrustedRefEvaluation e row = true →
      ∃ s₁, CreatedAt cfg s₀ as e s₁ ∧ s₁.tip projectId branch = some e.commitHash := by
    intro e he hj row hrow' htrust
    rcases createdAt_of_exec h he with ⟨e₀, he₀, hid⟩ | ⟨s₁, hc⟩
    · exact absurd ((EvaluationRow.jobsetId_of_identity hid).symm.trans hj) (hnone e₀ (Table.mem_of_get he₀))
    · refine ⟨s₁, hc, ?_⟩
      obtain ⟨as₁, as₂, a, s₂, r, rfl, h₁, -, hr, hin, -⟩ := hc
      obtain ⟨row', hget, hf⟩ := (Lts.exec_inv hstep hI₀ hrun h).row
      obtain rfl := Option.some.inj (hget.symm.trans hrow')
      obtain ⟨hne, hbase⟩ := of_trusted hf htrust
      have hI₁ := Lts.exec_inv hstep hI₀ hrun.append.1 h₁
      have htip := hI₁.tip_of_request hr (by rw [hin]; exact hj) hne (by rw [hin]; exact hbase)
      rwa [hin] at htip
  refine ⟨fun e he => htrusted e (Db.get_of_mem he), fun env build system agent hsel hreq => ?_⟩
  obtain ⟨e, row, he, hrow', htrust⟩ := (Dispatch.selected hsel).trusted hreq
  refine ⟨e, he, fun hj => htrusted e (Db.id_of_get he ▸ he) hj row (hj ▸ hrow') htrust⟩

end Trusted

/-- Task `t` takes up evaluation `id`, which has one job, and records it. -/
def evaluates (t : ℕ) (id : Uuid) : List Action :=
  .drain t id :: nexts t 3 ++ [.task t (.evaluated [{ name := "app", drvPath := "app.drv" }] none)] ++ nexts t 3

/-- The only agent of the pool is an OIDC one. -/
def oidcOnly : Dispatch.SelectEnv where
  pool := [{ machineId := 0, systems := ["x86_64-linux"], authKind := .oidc }]

/-- Some build of an evaluation of `commit` goes to an agent that requires a trusted ref. -/
def ReachesOidc (commit : String) (s : State) : Prop :=
  ∃ b ∈ s.db.builds.rows, (s.db.evaluations.get b.evaluationId).map (·.commitHash) = some commit ∧
    ∃ agent ∈ Dispatch.selectAndReserveAgent oidcOnly s.db b "x86_64-linux", agent.requiresTrustedRef = true

instance (commit : String) (s : State) : Decidable (ReachesOidc commit s) := by
  unfold ReachesOidc
  infer_instance

def builtFromMain : List Action := [.gitPush 0 "main" (some "a"), .deliver 1 0] ++ nexts 1 2 ++ evaluates 1 1

theorem trusted_ref_is_tip_builtFromMain : ∃ s ∈ exec small (withJobset mainJobset) builtFromMain,
    ReachesOidc "a" s ∧ ∃ e ∈ s.db.evaluations.rows, ∃ s₁, CreatedAt small (withJobset mainJobset) builtFromMain e s₁ ∧
      s₁.tip 0 "main" = some "a" := by
  obtain ⟨s, hs, hreach, e, he, hj, row, hrow, htrust, hc⟩ : ∃ s ∈ exec small (withJobset mainJobset) builtFromMain,
      ReachesOidc "a" s ∧ ∃ e ∈ s.db.evaluations.rows, e.jobsetId = 0 ∧ ∃ row ∈ s.db.jobsets.get 0,
        Dispatch.isTrustedRefEvaluation e row = true ∧ e.commitHash = "a" := by decide
  have hrun : Along small (InStep 0 0 "main") (withJobset mainJobset) builtFromMain := by decide
  have hplain : ((withJobset mainJobset).repos 0).Plain "main" :=
    ⟨by decide, rfl, rfl, fun _ _ hc => (by cases hc), fun _ hc => (by cases hc)⟩
  obtain ⟨s₁, hcreated, htip⟩ := (trusted_ref_is_tip (idle_withJobset _) rfl rfl hplain
    ⟨mainJobset, rfl, rfl, rfl, rfl, rfl⟩ (fun _ he => by cases he) hrun hs).1 e he hj row hrow htrust
  exact ⟨s, hs, hreach, e, he, s₁, hcreated, hc ▸ htip⟩

/-- `main` is at `a` all the time. A jobset that follows `main` also has a tag
pattern, and a tag of `t` is pushed; or it also has a branch pattern, and `t` is
pushed to another branch. Either way `t` is trusted, and its build goes to an
OIDC agent. Without patterns, a push that is delivered late is trusted though
`main` has gone on. -/
theorem pattern_reaches_oidc_agent :
    (∃ s ∈ exec small (withJobset { mainJobset with tagPattern := some "v*" })
      ([.gitPush 0 "main" (some "a"), .gitTag 0 "v1" "t" 0, .deliver 1 1] ++ nexts 1 2 ++ evaluates 1 1),
      s.tip 0 "main" = some "a" ∧ ReachesOidc "t" s) ∧
    (∃ s ∈ exec small (withJobset { mainJobset with branchPattern := some "*" })
      ([.gitPush 0 "main" (some "a"), .gitPush 0 "feature" (some "t"), .deliver 1 1] ++ nexts 1 2 ++ evaluates 1 1),
      s.tip 0 "main" = some "a" ∧ ReachesOidc "t" s) ∧
    ∃ s ∈ exec small (withJobset mainJobset)
      ([.gitPush 0 "main" (some "a"), .gitPush 0 "main" (some "b"), .deliver 1 0] ++ nexts 1 2 ++ evaluates 1 1),
      s.tip 0 "main" = some "b" ∧ ReachesOidc "a" s := by
  decide

end Evaluator

end Circus
