/-
# The tip under latest-only

Webhooks and polls both create evaluations in the stream of a branch, and each
new one supersedes the others. A push is held against the stored head; a poll
is not (`SourceOrder::Unchecked`): it creates an evaluation of the tip as it
read it some time ago. If the branch has moved on in between, the poll's
evaluation supersedes that of the tip, and no later poll brings it back:
the commit is taken, and `claim_existing` passes over a cancelled evaluation
(`tip_superseded`).

`tip_kept`: if every poll creates its evaluation while the commit is still the
tip, and every push is of a commit that is new to the branch and to the
jobset, then once a poll has been at the tip, its evaluation is there and has
not been superseded. The proof orders commits by the branch's history
(`Older`), so that this is `StreamInv` once more.
-/
import Circus.Evaluator.Pushes

namespace Circus.Evaluator

open Webhooks

/-! ### The history of a branch -/

/-- The commit a delivery says the branch has gone to. -/
def Delivery.pushed (projectId : Uuid) (branch : String) : Delivery → Option String
  | push p payload =>
    if p = projectId ∧ payload.gitRef = some ("refs/heads/" ++ branch) then
      payload.after.filter fun c => !isDeletedCommit c
    else none
  | change _ => none

def State.tips (s : State) (first : Option String) (projectId : Uuid) (branch : String) : List String :=
  first.toList ++ s.sent.filterMap (Delivery.pushed projectId branch)

/-- Among the tips, `x` came before `y`. -/
def Older (tips : List String) (x y : String) : Prop := y ∈ tips ∧ tips.idxOf x < tips.idxOf y

instance (tips : List String) : IsTrans String (Older tips) := ⟨fun _ _ _ h h' => ⟨h'.1, h.2.trans h'.2⟩⟩

namespace Older

variable {tips : List String} {x y c : String}

theorem mem (h : Older tips x y) : x ∈ tips :=
  List.idxOf_lt_length_iff.mp (h.2.trans (List.idxOf_lt_length_iff.mpr h.1))

theorem append (h : Older tips x y) (tips' : List String) : Older (tips ++ tips') x y := by
  refine ⟨List.mem_append_left _ h.1, ?_⟩
  rw [List.idxOf_append_of_mem h.mem, List.idxOf_append_of_mem h.1]
  exact h.2

/-- A new tip comes after all before. -/
theorem of_new (hx : x ∈ tips) (hc : c ∉ tips) : Older (tips ++ [c]) x c := by
  refine ⟨by simp, ?_⟩
  rw [List.idxOf_append_of_mem hx, List.idxOf_append_of_notMem hc]
  exact (List.idxOf_lt_length_iff.mpr hx).trans_le (Nat.le_add_right _ _)

/-- The last tip comes after all others. -/
theorem of_last (hn : tips.Nodup) (hlast : tips.getLast? = some c) (hx : x ∈ tips) (hne : x ≠ c) : Older tips x c := by
  obtain ⟨l, rfl⟩ := List.getLast?_eq_some_iff.mp hlast
  have hc : c ∉ l := fun h => (List.nodup_append.mp hn).2.2 c h c List.mem_cons_self rfl
  exact of_new (by simpa [hne] using hx) hc

theorem not_last (hn : tips.Nodup) (hlast : tips.getLast? = some c) : ¬ Older tips c y := by
  obtain ⟨l, rfl⟩ := List.getLast?_eq_some_iff.mp hlast
  have hc : c ∉ l := fun h => (List.nodup_append.mp hn).2.2 c h c List.mem_cons_self rfl
  rintro ⟨hy, hlt⟩
  have := List.idxOf_lt_length_iff.mpr hy
  rw [List.idxOf_append_of_notMem hc] at hlt
  simp only [List.idxOf_cons_self, List.length_append, List.length_singleton] at hlt this
  omega

end Older

/-! ### Scopes -/

theorem tags_ne_branchScope (b : String) : "tags" ≠ branchScope b := fun h => by
  have := congrArg String.toList h
  simp [branchScope] at this

theorem changeScope_ne_branchScope (c : ChangeRequestEvaluation) (b : String) : c.sourceScope ≠ branchScope b :=
  fun h => by
  have := congrArg String.toList h
  unfold ChangeRequestEvaluation.sourceScope at this
  split at this <;> simp [branchScope] at this

theorem parsePushRef_tag (name : String) : parsePushRef ("refs/tags/" ++ name) = .tag name := by
  have : stripPrefix "refs/heads/" ("refs/tags/" ++ name) = none := by
    simp [stripPrefix, List.isPrefixOf?]
  simp [parsePushRef, this, stripPrefix_append]

/-! ### Conditions -/

section

variable (cfg : Config) (first : Option String) (projectId jobsetId : Uuid) (branch : String)

/-- The jobset stays in its project and latest-only. -/
def KeepsJobset : Action → Prop
  | .configure jobset => jobset.id = jobsetId → jobset.projectId = projectId ∧ jobset.onlyBuildLatest = true
  | _ => True

/-- The branch goes on to commits that it has not had and the jobset has not
evaluated. -/
def PushesNew (s : State) : Action → Prop
  | .gitPush p b (some c) => p = projectId → b = branch →
      c ∉ s.tips first projectId branch ∧ s.db.sourceTaken jobsetId c = false
  | _ => True

/-- A poll creates an evaluation in the branch's stream for the tip only, and
in other streams of the jobset there is none of the branch's commits. -/
def PollsTip (s : State) (a : Action) : Prop :=
  ∀ r ∈ requestOf cfg s a, r.input.jobsetId = jobsetId →
    (r.source = some (branchScope branch, .unchecked) → s.tip projectId branch = some r.input.commitHash) ∧
    (r.source.isSome → r.scope ≠ some (branchScope branch) → r.input.commitHash ∉ s.tips first projectId branch)

/-- No operator cancels an evaluation of the jobset. -/
def NoCancel (s : State) : Action → Prop
  | .cancel id => ∀ e ∈ s.db.evaluations.get id, e.jobsetId ≠ jobsetId
  | _ => True

/-- What `tip_kept` asks of every step. -/
def TracksTip (s : State) (a : Action) : Prop :=
  KeepsJobset projectId jobsetId a ∧ PushesNew first projectId jobsetId branch s a ∧
    PollsTip cfg first projectId jobsetId branch s a ∧ NoCancel jobsetId s a

/-- A poll of the jobset is done with a commit of the branch: it has run the
creation of its evaluation, or found an evaluation with its inputs. -/
def Polled (commit : String) (s : State) (a : Action) : Prop :=
  (∃ r ∈ requestOf cfg s a, r.input.jobsetId = jobsetId ∧ r.source = some (branchScope branch, .unchecked) ∧
    r.input.commitHash = commit) ∨
  ∃ t jobset, a = .task t .next ∧ s.phase t = .fetched jobset commit ∧ jobset.id = jobsetId ∧
    s.db.hasInputsHash jobsetId (cfg.computeInputsHash jobsetId commit) = true

end

instance (projectId jobsetId : Uuid) (a : Action) : Decidable (KeepsJobset projectId jobsetId a) := by
  induction a using Action.casesOn <;> dsimp only [KeepsJobset] <;> infer_instance

instance (first : Option String) (projectId jobsetId : Uuid) (branch : String) (s : State) (a : Action) :
    Decidable (PushesNew first projectId jobsetId branch s a) := by
  unfold PushesNew
  split <;> infer_instance

instance (cfg : Config) (first : Option String) (projectId jobsetId : Uuid) (branch : String) (s : State) (a : Action) :
    Decidable (PollsTip cfg first projectId jobsetId branch s a) := by
  unfold PollsTip
  infer_instance

instance (jobsetId : Uuid) (s : State) (a : Action) : Decidable (NoCancel jobsetId s a) := by
  induction a using Action.casesOn <;> dsimp only [NoCancel] <;> infer_instance

instance (cfg : Config) (first : Option String) (projectId jobsetId : Uuid) (branch : String) (s : State) (a : Action) :
    Decidable (TracksTip cfg first projectId jobsetId branch s a) :=
  inferInstanceAs (Decidable (_ ∧ _ ∧ _ ∧ _))

/-! ### The invariant -/

structure AlongTips (tips : List String) (branch : String) (r : Request) (before : String) : Prop where
  source : r.source = some (branchScope branch, .after before)
  after : r.input.commitHash ∈ tips
  known : before = zeroCommit ∨ before ∈ tips
  older : before ∈ tips → Older tips before r.input.commitHash

/-- What a delivery asks for in the jobset, and in the stream of the branch. -/
def Delivery.Sound (tips : List String) (projectId jobsetId : Uuid) (branch : String) (d : Delivery) : Prop :=
  ∀ db : Db, (∀ row, db.jobsets.get jobsetId = some row → row.projectId = projectId) → ∀ r ∈ d.requests db,
    r.input.jobsetId = jobsetId → r.scope = some (branchScope branch) → ∃ before, AlongTips tips branch r before

structure TipRow (tips : List String) (jobsetId : Uuid) (branch : String) (e : EvaluationRow) : Prop where
  streamed : e.triggerKind = .sourceChange → e.commitHash ∈ tips → e.InScope jobsetId (branchScope branch)
  source : e.supersededBy.isSome → e.triggerKind = .sourceChange
  superseded : e.status = .cancelled → e.supersededBy.isSome

/-- The jobset and its stream of the branch. -/
structure TipInv (first : Option String) (projectId jobsetId : Uuid) (branch : String) (s : State) : Prop where
  nodup : (s.tips first projectId branch).Nodup
  tip : ∀ c, s.tip projectId branch = some c → (s.tips first projectId branch).getLast? = some c
  row : ∃ row, s.db.jobsets.get jobsetId = some row ∧ row.projectId = projectId ∧ row.onlyBuildLatest = true
  sent : ∀ d ∈ s.sent, d.Sound (s.tips first projectId branch) projectId jobsetId branch
  events : ∀ t rs, s.phase t = .triggering rs → ∀ r ∈ rs, r.input.jobsetId = jobsetId →
    r.scope = some (branchScope branch) → ∃ before, AlongTips (s.tips first projectId branch) branch r before
  head : ∀ h, s.db.head jobsetId (branchScope branch) = some h →
    h ∈ s.tips first projectId branch ∧ s.db.sourceTaken jobsetId h = true
  ordered : StreamInv (Older (s.tips first projectId branch)) jobsetId (branchScope branch) s.db
  rows : ∀ k e, s.db.evaluations.get k = some e → e.jobsetId = jobsetId →
    TipRow (s.tips first projectId branch) jobsetId branch e

section Step

variable {cfg : Config} {first : Option String} {projectId jobsetId : Uuid} {branch : String} {s s' : State}
  {a : Action}

theorem State.tips_append {before c : String}
    (hs : s'.sent = s.sent ++ [.push projectId (branchPush branch before c)]) (hc : isDeletedCommit c = false) :
    s'.tips first projectId branch = s.tips first projectId branch ++ [c] := by
  have hd : Delivery.pushed projectId branch (.push projectId (branchPush branch before c)) = some c := by
    simp [Delivery.pushed, branchPush, Option.filter, hc]
  simp [State.tips, hs, hd]

variable (first projectId branch) in
/-- The tips grow by what is pushed. -/
theorem tips_of_step (h : step cfg s a = some s') :
    (s'.tips first projectId branch = s.tips first projectId branch ∧
      (s'.tip projectId branch = s.tip projectId branch ∨ s'.tip projectId branch = none)) ∨
    ∃ c, a = .gitPush projectId branch (some c) ∧ isDeletedCommit c = false ∧
      s'.tips first projectId branch = s.tips first projectId branch ++ [c] ∧ s'.tip projectId branch = some c := by
  have hnone : ∀ d, s'.sent = s.sent ++ [d] → d.pushed projectId branch = none →
      s'.tips first projectId branch = s.tips first projectId branch := fun d hs hd => by
    simp [State.tips, hs, hd]
  cases forge_of_step h with
  | kept hs hr => exact .inl ⟨by rw [State.tips, hs]; rfl, .inl (State.tip_kept_repos hr _ _)⟩
  | fetched p hs hr => exact .inl ⟨by rw [State.tips, hs]; rfl, .inl (State.tip_update hr rfl _ _)⟩
  | pushed p b commit ha hc hs hr =>
    have htip := State.tip_push hr projectId branch
    by_cases hb : p = projectId ∧ b = branch
    · rw [if_pos hb] at htip
      obtain ⟨rfl, rfl⟩ := hb
      cases commit with
      | none =>
        refine .inl ⟨hnone _ hs ?_, .inr htip⟩
        simp [Delivery.pushed, branchPush, isDeletedCommit]
      | some c =>
        have hc' : isDeletedCommit c = false := by simpa using hc
        exact .inr ⟨c, ha, hc', State.tips_append hs hc', htip⟩
    · rw [if_neg hb] at htip
      refine .inl ⟨hnone _ hs ?_, .inl htip⟩
      rw [Delivery.pushed, if_neg (by simpa [branchPush] using hb)]
  | tagged p name commit time hs hr =>
    refine .inl ⟨hnone _ hs ?_, .inl (State.tip_update hr rfl _ _)⟩
    have : "refs/tags/" ++ name ≠ "refs/heads/" ++ branch := fun h => by
      have := congrArg String.toList h
      simp at this
    simp [Delivery.pushed, this]
  | changed name c ha hs hr => exact .inl ⟨hnone _ hs rfl, .inl (State.tip_update hr rfl _ _)⟩

/-- The tips stay, or grow by a new one. -/
def Grows (tips tips' : List String) : Prop :=
  tips' = tips ∨ ∃ c, isDeletedCommit c = false ∧ c ∉ tips ∧ tips' = tips ++ [c]

theorem grows_of_step (ha : PushesNew first projectId jobsetId branch s a) (h : step cfg s a = some s') :
    Grows (s.tips first projectId branch) (s'.tips first projectId branch) := by
  rcases tips_of_step first projectId branch h with ⟨ht, -⟩ | ⟨c, rfl, hc, ht, -⟩
  · exact .inl ht
  · exact .inr ⟨c, hc, (ha rfl rfl).1, ht⟩

namespace Grows

variable {tips tips' : List String} (hg : Grows tips tips')
include hg

theorem subset {x : String} (h : x ∈ tips) : x ∈ tips' := by
  rcases hg with rfl | ⟨c, -, -, rfl⟩
  · exact h
  · exact List.mem_append_left _ h

theorem older {x y : String} (h : Older tips x y) : Older tips' x y := by
  rcases hg with rfl | ⟨c, -, -, rfl⟩
  · exact h
  · exact h.append [c]

theorem alongTips {r : Request} {before : String} (h : AlongTips tips branch r before) :
    AlongTips tips' branch r before where
  source := h.source
  after := hg.subset h.after
  known := h.known.imp_right hg.subset
  older hb := by
    refine hg.older (h.older ?_)
    rcases hg with rfl | ⟨c, hc, hnew, rfl⟩
    · exact hb
    · rcases List.mem_append.mp hb with hb | hb
      · exact hb
      · -- what a push follows is not a tip only the future has
        obtain rfl : before = c := by simpa using hb
        rcases h.known with rfl | hk
        · cases hc
        · exact hk

theorem sound {d : Delivery} (h : d.Sound tips projectId jobsetId branch) : d.Sound tips' projectId jobsetId branch :=
  fun db hrow r hr hj hs => (h db hrow r hr hj hs).imp fun _ => hg.alongTips

end Grows

/-- A push of the branch itself is along the tips, and other pushes of branches
are of no concern. -/
theorem sound_branchPush {tips : List String} {p : Uuid} {b before after : String}
    (h : p = projectId → b = branch → isDeletedCommit after = false →
      after ∈ tips ∧ (before = zeroCommit ∨ before ∈ tips) ∧ (before ∈ tips → Older tips before after)) :
    (Delivery.push p (branchPush b before after)).Sound tips projectId jobsetId branch := by
  intro db hrow r hr hj hs
  simp only [Delivery.requests, handlePush_branchPush] at hr
  split_ifs at hr with hd
  · cases hr
  · obtain ⟨row, hmem, hreq⟩ := List.mem_filterMap.mp hr
    obtain rfl := pushRequest_branch hreq
    obtain ⟨hmem, hp⟩ := List.mem_filter.mp hmem
    obtain rfl : row.id = jobsetId := hj
    have hp' : p = projectId := (of_decide_eq_true hp).symm.trans (hrow row (Table.get_of_mem hmem))
    obtain ⟨h1, h2, h3⟩ := h hp' (branchScope_injective (Option.some.inj hs)) (by simpa using hd)
    exact ⟨before, ⟨by rw [← Option.some.inj hs]; rfl, h1, h2, h3⟩⟩

theorem sound_tagPush (tips : List String) (p : Uuid) (name commit : String) :
    (Delivery.push p ⟨some ("refs/tags/" ++ name), some zeroCommit, some commit, none⟩).Sound tips projectId jobsetId
      branch := by
  intro db hrow r hr hj hs
  simp only [Delivery.requests, handlePush, Option.elim_some, parsePushRef_tag] at hr
  split_ifs at hr
  · cases hr
  · obtain ⟨row, -, hreq⟩ := List.mem_filterMap.mp hr
    unfold pushRequest at hreq
    split_ifs at hreq
    cases hreq
    exact absurd (Option.some.inj hs) (tags_ne_branchScope branch)

theorem sound_change (tips : List String) (c : ChangeRequestEvaluation) :
    (Delivery.change c).Sound tips projectId jobsetId branch := by
  intro db hrow r hr hj hs
  obtain ⟨row, -, hreq⟩ := List.mem_filterMap.mp hr
  unfold changeRequest at hreq
  split_ifs at hreq
  cases hreq
  exact absurd (Option.some.inj hs) (changeScope_ne_branchScope c branch)

/-- Polls do not check the order. -/
theorem pollRequest_source (jobset : JobsetRow) (commit : String) :
    (pollRequest jobset commit).source = none ∨
      ∃ scope, (pollRequest jobset commit).source = some (scope, .unchecked) := by
  unfold pollRequest
  split_ifs
  · exact .inl rfl
  · exact .inr ⟨_, rfl⟩

/-- A request is a webhook's, or one that does not check the order. -/
theorem requestOf_source {r : Request} (hr : requestOf cfg s a = some r) :
    (∃ t rest, s.phase t = .triggering (r :: rest)) ∨ r.source = none ∨
      ∃ scope, r.source = some (scope, .unchecked) := by
  obtain ⟨t, -, ⟨rest, hp⟩ | ⟨jobset, commit, -, rfl⟩ | ⟨jobset, ref, refs, -, rfl⟩⟩ := requestOf_cases hr
  · exact .inl ⟨t, rest, hp⟩
  · exact .inr (pollRequest_source jobset commit)
  · exact .inr (.inr (by unfold refRequest; split <;> exact ⟨_, rfl⟩))

namespace TipInv

variable (hI : TipInv first projectId jobsetId branch s)
include hI

theorem latest : s.db.onlyBuildLatest jobsetId = true := by
  obtain ⟨row, hrow, -, hl⟩ := hI.row
  simpa [Db.onlyBuildLatest, hrow] using hl

/-- What enters the stream is a tip, and newer than the head. -/
theorem createsIn (ha : PollsTip cfg first projectId jobsetId branch s a) {db : Db} {commit : String}
    (h : CreatesIn cfg s a db jobsetId (branchScope branch) commit) :
    commit ∈ s.tips first projectId branch ∧
      ∀ h, s.db.head jobsetId (branchScope branch) = some h → Older (s.tips first projectId branch) h commit := by
  obtain ⟨r, e, hr, hc, rfl, hs, rfl⟩ := h
  rcases requestOf_source hr with ⟨t, rest, hp⟩ | hnone | ⟨scope, hsource⟩
  · obtain ⟨before, hat⟩ := hI.events t _ hp r List.mem_cons_self rfl hs
    refine ⟨hat.after, fun h hh => ?_⟩
    have hacc := hc.accepted _ _ hat.source hI.latest
    rw [hh] at hacc
    obtain rfl : h = before := of_decide_eq_true hacc
    exact hat.older (hI.head h hh).1
  · simp [Request.scope, hnone] at hs
  · obtain rfl : scope = branchScope branch := by simpa [Request.scope, hsource] using hs
    have hlast := hI.tip _ ((ha r hr rfl).1 hsource)
    refine ⟨List.mem_of_getLast? hlast, fun h hh => ?_⟩
    obtain ⟨hmem, htaken⟩ := hI.head h hh
    refine .of_last hI.nodup hlast hmem fun heq => ?_
    -- the head has been evaluated, and what is created has not
    have hfresh := hc.fresh (by simp [Request.kind, hsource])
    rw [← heq, htaken] at hfresh
    cases hfresh

theorem rows_effect (ha : PollsTip cfg first projectId jobsetId branch s a) (hn : NoCancel jobsetId s a) {db : Db}
    (h : Effect cfg s a db) {k : Uuid} {e' : EvaluationRow} (he' : db.evaluations.get k = some e')
    (hj : e'.jobsetId = jobsetId) : TipRow (s.tips first projectId branch) jobsetId branch e' := by
  have hrow := row_of_effect h k
  rw [he'] at hrow
  generalize ho : some e' = o at hrow
  cases hrow with
  | same => exact hI.rows k e' ho.symm hj
  | created r base hr =>
    cases ho
    refine ⟨fun hkind hmem => ?_, fun hs => (by cases hs), fun hst => ?_⟩
    · have hsome : r.source.isSome := by
        by_contra hnone
        simp [EvaluationRow.create, Request.kind, hnone] at hkind
      refine ⟨hj, hkind, ?_⟩
      by_contra hs
      exact (ha r hr hj).2 hsome hs hmem
    · have : r.status = .cancelled := hst
      unfold Request.status at this
      split_ifs at this
  | superseded r new e hr hc he hs =>
    cases ho
    have hrow := hI.rows k e he hj
    obtain ⟨sc, -, hs⟩ := (Option.any_eq_true _ _).mp hs
    have hin := (of_decide_eq_true (Bool.and_eq_true_iff.mp (Bool.and_eq_true_iff.mp hs).2).1).1
    exact ⟨hrow.streamed, fun _ => hin.2.1, fun _ => rfl⟩
  | statement q e hq he hs =>
    cases ho
    have hje : e.jobsetId = jobsetId :=
      (EvaluationRow.jobsetId_of_identity (Statement.identity_set s.now e q)).symm.trans hj
    have hrow := hI.rows k e he hje
    rcases statementOf_cases hq with ⟨id, rfl⟩ | ⟨id, -, rfl⟩ | ⟨id, rfl⟩ | ⟨id, st, m, rfl, -, hst⟩ |
      ⟨t, flow, e₀, -, rfl⟩ | ⟨id, rfl, rfl⟩ | rfl
    · exact ⟨hrow.streamed, hrow.source, fun h => by cases h⟩
    · exact ⟨hrow.streamed, hrow.source, fun h => by cases h⟩
    · exact ⟨hrow.streamed, hrow.source, fun h => by cases h⟩
    · exact ⟨hrow.streamed, hrow.source, fun h => absurd h hst⟩
    · exact ⟨hrow.streamed, hrow.source, hrow.superseded⟩
    · obtain rfl : e.id = id := (of_decide_eq_true hs).1
      exact absurd hje (hn e (Db.id_of_get he ▸ he))
    · refine ⟨hrow.streamed, hrow.source, fun h => ?_⟩
      simp only [Statement.set, EvaluationRow.sweepOrphaned] at h
      split_ifs at h
  | restarted =>
    cases ho
    refine ⟨fun hkind => ?_, fun h => (by cases h), fun h => by cases h⟩
    simp only [EvaluationRow.restartRequeue] at hkind
    split_ifs at hkind with h
    exact absurd hkind h
  | recorded jobs e hc he =>
    cases ho
    have hrow := hI.rows k e he hj
    exact ⟨hrow.streamed, hrow.source, fun h => by cases h⟩

theorem nodup_step (ha : PushesNew first projectId jobsetId branch s a) (h : Evaluator.step cfg s a = some s') :
    (s'.tips first projectId branch).Nodup := by
  rcases grows_of_step ha h with ht | ⟨c, -, hc, ht⟩
  · exact ht ▸ hI.nodup
  · rw [ht]
    exact List.nodup_append_comm.mp (List.nodup_cons.mpr ⟨hc, hI.nodup⟩)

theorem tip_step (h : Evaluator.step cfg s a = some s') {c : String} (hc : s'.tip projectId branch = some c) :
    (s'.tips first projectId branch).getLast? = some c := by
  rcases tips_of_step first projectId branch h with ⟨ht, htip | htip⟩ | ⟨c', -, -, ht, htip⟩
  · rw [ht]
    exact hI.tip c (htip ▸ hc)
  · rw [htip] at hc
    cases hc
  · rw [htip] at hc
    rw [ht, ← Option.some.inj hc]
    simp

/-- A push to a new commit goes on from the tip, or starts the branch. -/
theorem sound_newPush {c : String} (hdel : isDeletedCommit c = false) (hnew : c ∉ s.tips first projectId branch) :
    (Delivery.push projectId (branchPush branch ((s.tip projectId branch).getD zeroCommit) c)).Sound
      (s.tips first projectId branch ++ [c]) projectId jobsetId branch := by
  refine sound_branchPush fun _ _ _ => ?_
  cases htip : s.tip projectId branch with
  | none =>
    refine ⟨by simp, .inl rfl, fun hb => ?_⟩
    rcases List.mem_append.mp hb with hb | hb
    · exact .of_new hb hnew
    · rw [← List.mem_singleton.mp hb] at hdel
      cases hdel
  | some x =>
    have hx := List.mem_of_getLast? (hI.tip x htip)
    exact ⟨by simp, .inr (List.mem_append_left _ hx), fun _ => .of_new hx hnew⟩

theorem sent_step (ha : PushesNew first projectId jobsetId branch s a) (h : Evaluator.step cfg s a = some s')
    {d : Delivery} (hd : d ∈ s'.sent) : d.Sound (s'.tips first projectId branch) projectId jobsetId branch := by
  have hold : d ∈ s.sent → d.Sound (s'.tips first projectId branch) projectId jobsetId branch := fun hd =>
    (grows_of_step ha h).sound (hI.sent d hd)
  cases forge_of_step h with
  | kept hs | fetched p hs => exact hold (hs ▸ hd)
  | pushed p b commit hact hc hs =>
    rcases List.mem_append.mp (hs ▸ hd) with hd | hd
    · exact hold hd
    · obtain rfl := List.mem_singleton.mp hd
      by_cases hdel : isDeletedCommit (commit.getD zeroCommit) = true
      · exact sound_branchPush fun _ _ hlive => absurd (hdel.symm.trans hlive) (by decide)
      · by_cases hb : p = projectId ∧ b = branch
        · obtain ⟨rfl, rfl⟩ := hb
          cases commit with
          | none => exact absurd rfl hdel
          | some c =>
            have hdel : isDeletedCommit c = false := by simpa using hdel
            rw [hact] at ha
            rw [State.tips_append hs hdel]
            exact hI.sound_newPush hdel (ha rfl rfl).1
        · exact sound_branchPush fun hp hb' => absurd ⟨hp, hb'⟩ hb
  | tagged p name commit time hs =>
    rcases List.mem_append.mp (hs ▸ hd) with hd | hd
    · exact hold hd
    · exact List.mem_singleton.mp hd ▸ sound_tagPush _ p name commit
  | changed name c hact hs =>
    rcases List.mem_append.mp (hs ▸ hd) with hd | hd
    · exact hold hd
    · exact List.mem_singleton.mp hd ▸ sound_change _ c

/-- Requests of a webhook are those of what was sent, or were there before. -/
theorem events_step (ha : PushesNew first projectId jobsetId branch s a) (h : Evaluator.step cfg s a = some s')
    {t : Nat} {rs : List Request} (hp : s'.phase t = .triggering rs) {r : Request} (hr : r ∈ rs)
    (hj : r.input.jobsetId = jobsetId) (hs : r.scope = some (branchScope branch)) :
    ∃ before, AlongTips (s'.tips first projectId branch) branch r before := by
  have hg := grows_of_step ha h
  rcases triggering_of_step h hp with ⟨rs₀, hp₀, hmem⟩ | ⟨k, d, -, hd, rfl⟩
  · exact (hI.events t rs₀ hp₀ r (hmem r hr) hj hs).imp fun _ => hg.alongTips
  · obtain ⟨row, hrow, hproject, -⟩ := hI.row
    have hproject : ∀ row', s.db.jobsets.get jobsetId = some row' → row'.projectId = projectId := fun row' hrow' =>
      Option.some.inj (hrow.symm.trans hrow') ▸ hproject
    exact (hI.sent d (List.mem_of_getElem? hd) s.db hproject r hr hj hs).imp fun _ => hg.alongTips

theorem head_effect (ha : PollsTip cfg first projectId jobsetId branch s a) {db : Db} (h : Effect cfg s a db)
    {c : String} (hc : db.head jobsetId (branchScope branch) = some c) :
    c ∈ s.tips first projectId branch ∧ db.sourceTaken jobsetId c = true := by
  rcases head_of_effect h jobsetId (branchScope branch) with hh | ⟨commit, hin⟩
  · obtain ⟨hmem, htaken⟩ := hI.head c (hh ▸ hc)
    exact ⟨hmem, sourceTaken_effect h htaken⟩
  · obtain rfl : commit = c := Option.some.inj (hin.head.symm.trans hc)
    refine ⟨(hI.createsIn ha hin).1, ?_⟩
    obtain ⟨r, e, -, hcr, hj, hs, rfl⟩ := hin
    refine (sourceTaken_created hcr jobsetId _).mpr (.inr ⟨?_, hj, rfl⟩)
    have hsome : r.source.isSome := by simpa [Request.scope] using congrArg Option.isSome hs
    simp [Request.kind, hsome]

theorem rows_step (ha : TracksTip cfg first projectId jobsetId branch s a) (h : Evaluator.step cfg s a = some s')
    {k : Uuid} {e : EvaluationRow} (he : s'.db.evaluations.get k = some e) (hj : e.jobsetId = jobsetId) :
    TipRow (s'.tips first projectId branch) jobsetId branch e := by
  obtain ⟨-, hnew, hpoll, hcancel⟩ := ha
  have hrow := hI.rows_effect hpoll hcancel (step_effect h) he hj
  refine ⟨fun hkind hmem => ?_, hrow.source, hrow.superseded⟩
  rcases tips_of_step first projectId branch h with ⟨ht, -⟩ | ⟨c, rfl, -, ht, -⟩
  · exact hrow.streamed hkind (ht ▸ hmem)
  · rw [ht] at hmem
    rcases List.mem_append.mp hmem with hmem | hmem
    · exact hrow.streamed hkind hmem
    · -- the jobset has no evaluation of a new commit
      simp only [Evaluator.step, State.gitPush] at h
      split_ifs at h
      cases h
      have htaken : s.db.sourceTaken jobsetId c = true :=
        sourceTaken_iff.mpr ⟨k, e, he, by simp [hkind], hj, List.mem_singleton.mp hmem⟩
      rw [(hnew rfl rfl).2] at htaken
      cases htaken

theorem step (ha : TracksTip cfg first projectId jobsetId branch s a) (h : step cfg s a = some s') :
    TipInv first projectId jobsetId branch s' where
  nodup := hI.nodup_step ha.2.1 h
  tip _ hc := hI.tip_step h hc
  row := jobset_of_effect (fun _ hrow => hrow) (fun _ hc => by subst hc; exact ha.1) hI.row (step_effect h)
  sent _ hd := hI.sent_step ha.2.1 h hd
  events _ _ hp _ hr hj hs := hI.events_step ha.2.1 h hp hr hj hs
  head _ hc := (hI.head_effect ha.2.2.1 (step_effect h) hc).imp_left (grows_of_step ha.2.1 h).subset
  ordered := (hI.ordered.effect (fun _ _ hin => (hI.createsIn ha.2.2.1 hin).2) (step_effect h)).mono fun _ _ =>
    (grows_of_step ha.2.1 h).older
  rows _ _ he hj := hI.rows_step ha h he hj

end TipInv

end Step

/-! ### Input hashes -/

/-- Hashes in the jobset are those of its commits, and tasks know which row
they have. -/
structure HashInv (cfg : Config) (jobsetId : Uuid) (s : State) : Prop where
  rows : ∀ k e, s.db.evaluations.get k = some e → e.jobsetId = jobsetId → ∀ hash, e.inputsHash = some hash →
    hash = cfg.computeInputsHash jobsetId e.commitHash
  copies : CopiesOfRows s

theorem HashInv.step {cfg : Config} {jobsetId : Uuid} {s s' : State} {a : Action} (hI : HashInv cfg jobsetId s)
    (h : step cfg s a = some s') : HashInv cfg jobsetId s' where
  rows k e' he' hj hash hhash := by
    have hrow := row_of_effect (step_effect h) k
    rw [he'] at hrow
    generalize ho : some e' = o at hrow
    cases hrow with
    | same => exact hI.rows k e' ho.symm hj hash hhash
    | created =>
      cases ho
      cases hhash
    | superseded r new e hr hc he =>
      cases ho
      exact hI.rows k e he hj hash hhash
    | statement q e hq he hs =>
      cases ho
      rcases statementOf_cases hq with ⟨id, rfl⟩ | ⟨id, -, rfl⟩ | ⟨id, rfl⟩ | ⟨id, st, m, rfl, -⟩ |
        ⟨t, flow, e₀, hp, rfl⟩ | ⟨id, -, rfl⟩ | rfl
      · exact hI.rows k e he hj hash hhash
      · exact hI.rows k e he hj hash hhash
      · exact hI.rows k e he hj hash hhash
      · exact hI.rows k e he hj hash hhash
      · obtain ⟨row, hrow, hid⟩ := hI.copies t e₀ (by rw [hp]; rfl)
        have he₀ : e.id = e₀.id := of_decide_eq_true hs
        rw [← he₀, Db.id_of_get he, he] at hrow
        cases hrow
        have hje : e.jobsetId = jobsetId := hj
        rw [← Option.some.inj hhash, ← EvaluationRow.jobsetId_of_identity hid,
          ← EvaluationRow.commitHash_of_identity hid, hje]
        rfl
      · exact hI.rows k e he hj hash hhash
      · cases hhash
    | restarted =>
      cases ho
      cases hhash
    | recorded jobs e hc he =>
      cases ho
      exact hI.rows k e he hj hash hhash
  copies := hI.copies.step h

/-! ### The tip -/

section Tip

variable {cfg : Config} {first : Option String} {projectId jobsetId : Uuid} {branch commit : String} {s s' : State}
  {a : Action}

/-- The commit has an evaluation in the jobset. -/
def Db.Evaluated (jobsetId : Uuid) (commit : String) (db : Db) : Prop :=
  ∃ k e, db.evaluations.get k = some e ∧ e.jobsetId = jobsetId ∧ e.commitHash = commit

theorem evaluated_effect {db : Db} (he : s.db.Evaluated jobsetId commit) (h : Effect cfg s a db) :
    db.Evaluated jobsetId commit := by
  obtain ⟨k, e, he, rfl, rfl⟩ := he
  obtain ⟨e', he', hid⟩ := identity_of_effect h he
  exact ⟨k, e', he', EvaluationRow.jobsetId_of_identity hid, EvaluationRow.commitHash_of_identity hid⟩

/-- After a poll its commit has an evaluation. -/
theorem evaluated_of_polled (hI : TipInv first projectId jobsetId branch s) (hH : HashInv cfg jobsetId s)
    (hp : Polled cfg jobsetId branch commit s a) (h : step cfg s a = some s') : s'.db.Evaluated jobsetId commit := by
  rcases hp with ⟨r, hr, rfl, hsource, rfl⟩ | ⟨t, jobset, rfl, hp, rfl, hhash⟩
  · have htaken : s'.db.sourceTaken r.input.jobsetId r.input.commitHash = true := by
      rcases effect_of_request hr h with ⟨⟨err, herr⟩, hsame⟩ | ⟨e, hc⟩
      · -- the creation fails on the unique index only
        rw [hsame]
        by_contra hnot
        obtain ⟨row, hrow, -⟩ := hI.row
        obtain ⟨e, db, hok⟩ := Request.run_source s.now r hsource hrow (fun _ => rfl) (by simpa using hnot)
        rw [herr] at hok
        cases hok
      · exact (sourceTaken_created hc _ _).mpr (.inr ⟨by simp [Request.kind, hsource], rfl, rfl⟩)
    obtain ⟨k, e, he, -, hj, hcommit⟩ := sourceTaken_iff.mp htaken
    exact ⟨k, e, he, hj, hcommit⟩
  · refine evaluated_effect ?_ (step_effect h)
    obtain ⟨e, hmem, hsel⟩ := List.any_eq_true.mp hhash
    obtain ⟨hj, hinputs, -⟩ := of_decide_eq_true hsel
    have hcommit := hH.rows e.id e (Db.get_of_mem hmem) hj _ hinputs
    exact ⟨e.id, e, Db.get_of_mem hmem, hj, (cfg.inputsHash_injective _ hcommit).symm⟩

theorem TipInv.not_superseded (hI : TipInv first projectId jobsetId branch s)
    (htip : s.tip projectId branch = some commit) {k : Uuid} {e : EvaluationRow}
    (he : s.db.evaluations.get k = some e) (hj : e.jobsetId = jobsetId) (hc : e.commitHash = commit) :
    e.status ≠ .cancelled ∧ e.supersededBy = none := by
  have hlast := hI.tip commit htip
  have hrow := hI.rows k e he hj
  have hnone : e.supersededBy = none := by
    cases hsup : e.supersededBy with
    | none => rfl
    | some i =>
      have hkind := hrow.source (by rw [hsup]; rfl)
      have hin := hrow.streamed hkind (hc ▸ List.mem_of_getLast? hlast)
      obtain ⟨e', -, -, holder⟩ := hI.ordered.ascending k e he hin i hsup
      exact absurd (hc ▸ holder) (Older.not_last hI.nodup hlast)
  refine ⟨fun hst => ?_, hnone⟩
  have := hrow.superseded hst
  rw [hnone] at this
  cases this

/-- **The tip is not lost.** Take a latest-only jobset without evaluations and
a branch of its project, before any push is sent. In a run in which the branch
goes on to commits that it has not had and the jobset has not evaluated, polls
create evaluations of the branch for its tip of that moment only, the branch's
commits are not evaluated in other streams of the jobset, and no operator
cancels: once a poll has been at commit `c`, then as long as `c` is the tip it
has an evaluation, which is not cancelled and not superseded. -/
theorem tip_kept {s₀ s₁ s₂ : State} {as bs : List Action} (h₀ : s₀.Idle) (hsent : s₀.sent = [])
    (hrow : ∃ row ∈ s₀.db.jobsets.get jobsetId, row.projectId = projectId ∧ row.onlyBuildLatest = true)
    (hnone : ∀ e ∈ s₀.db.evaluations.rows, e.jobsetId ≠ jobsetId)
    (hhead : s₀.db.head jobsetId (branchScope branch) = none)
    (hrun : Along cfg (TracksTip cfg (s₀.tip projectId branch) projectId jobsetId branch) s₀ (as ++ a :: bs))
    (h₁ : exec cfg s₀ as = some s₁) (hpoll : Polled cfg jobsetId branch commit s₁ a) (h₂ : step cfg s₁ a = some s₂)
    (h : exec cfg s₂ bs = some s) (htip : s.tip projectId branch = some commit) :
    (∃ e ∈ s.db.evaluations.rows, e.jobsetId = jobsetId ∧ e.commitHash = commit) ∧
    ∀ e ∈ s.db.evaluations.rows, e.jobsetId = jobsetId → e.commitHash = commit →
      e.status ≠ .cancelled ∧ e.supersededBy = none := by
  have hnone' : ∀ k e, s₀.db.evaluations.get k = some e → e.jobsetId ≠ jobsetId := fun k e he =>
    hnone e (Table.mem_of_get he)
  have htips : s₀.tips (s₀.tip projectId branch) projectId branch = (s₀.tip projectId branch).toList := by
    simp [State.tips, hsent]
  have hI₀ : TipInv (s₀.tip projectId branch) projectId jobsetId branch s₀ := by
    refine ⟨?_, fun c hc => ?_, hrow, by simp [hsent], fun t rs hp => ?_, fun c hc => ?_, .of_none hnone',
      fun k e he hj => absurd hj (hnone' k e he)⟩
    · rw [htips]
      cases s₀.tip projectId branch <;> simp
    · rw [htips, hc]
      rfl
    · rw [h₀ t] at hp
      cases hp
    · rw [hhead] at hc
      cases hc
  have hH₀ : HashInv cfg jobsetId s₀ := by
    refine ⟨fun k e he hj => absurd hj (hnone' k e he), fun t e hc => ?_⟩
    rw [h₀ t] at hc
    cases hc
  obtain ⟨hrun₁, hrun₂⟩ := hrun.append
  have hI₁ := Lts.exec_inv (fun _ _ _ hI ha hs => TipInv.step hI ha hs) hI₀ hrun₁ h₁
  have hH₁ := Lts.exec_inv (fun _ _ _ hH _ hs => HashInv.step hH hs) hH₀ hrun₁ h₁
  obtain ⟨ha, hrun₂⟩ := hrun₂ s₁ h₁
  have hstep : ∀ s a s', TipInv (s₀.tip projectId branch) projectId jobsetId branch s ∧
      s.db.Evaluated jobsetId commit → TracksTip cfg (s₀.tip projectId branch) projectId jobsetId branch s a →
      step cfg s a = some s' → TipInv (s₀.tip projectId branch) projectId jobsetId branch s' ∧
        s'.db.Evaluated jobsetId commit := fun s a s' hI ha hs =>
    ⟨hI.1.step ha hs, evaluated_effect hI.2 (step_effect hs)⟩
  obtain ⟨hI, k, e, he, hj, hc⟩ :=
    Lts.exec_inv hstep ⟨hI₁.step ha h₂, evaluated_of_polled hI₁ hH₁ hpoll h₂⟩ (hrun₂ s₂ h₂) h
  exact ⟨⟨e, Table.mem_of_get he, hj, hc⟩, fun e he => hI.not_superseded htip (Db.get_of_mem he)⟩

end Tip

/-- `a` is pushed and delivered, then `b`; a poll has got to the creation of
its evaluation of `b`. -/
def aboutToCreateTip : List Action :=
  [.gitPush 0 "main" (some "a"), .deliver 1 0] ++ nexts 1 2 ++ [.gitPush 0 "main" (some "b"), .poll 2 0] ++ nexts 2 3

def lateDelivery : List Action := .deliver 1 1 :: nexts 1 1

theorem tip_kept_lateDelivery : ∃ s₁ ∈ exec small (withJobset mainJobset) aboutToCreateTip,
    ∃ s₂ ∈ step small s₁ (.task 2 .next), ∃ s ∈ exec small s₂ lateDelivery, s.tip 0 "main" = some "b" ∧
      ∃ e ∈ s.db.evaluations.rows, e.jobsetId = 0 ∧ e.commitHash = "b" := by
  obtain ⟨s₁, h₁, hreq, s₂, h₂, s, h, htip⟩ : ∃ s₁ ∈ exec small (withJobset mainJobset) aboutToCreateTip,
      (∃ r ∈ requestOf small s₁ (.task 2 .next), r.input.jobsetId = 0 ∧ r.source = some ("branch:main", .unchecked) ∧
        r.input.commitHash = "b") ∧
      ∃ s₂ ∈ step small s₁ (.task 2 .next), ∃ s ∈ exec small s₂ lateDelivery, s.tip 0 "main" = some "b" := by
    decide
  have hrun : Along small (TracksTip small none 0 0 "main") (withJobset mainJobset)
      (aboutToCreateTip ++ .task 2 .next :: lateDelivery) := by decide
  have hkept := tip_kept (idle_withJobset _) rfl ⟨mainJobset, rfl, rfl, rfl⟩ (fun _ he => by cases he) rfl hrun h₁
    (.inl hreq) h₂ h htip
  exact ⟨s₁, h₁, s₂, h₂, s, h, htip, hkept.1⟩

/-- A full poll of the jobset, as task `t`: it ends in `claim_existing`. -/
def fullPoll (t : ℕ) : List Action := .poll t 0 :: nexts t 6

/-- The evaluation of `commit`, the tip, is cancelled and superseded. -/
def Lost (commit : String) (s : State) : Prop :=
  s.tip 0 "main" = some commit ∧ (∃ e ∈ s.db.evaluations.rows, e.commitHash = commit ∧ e.status = .cancelled ∧
    e.supersededBy.isSome) ∧ ∀ e ∈ s.db.evaluations.rows, e.commitHash = commit → e.status = .cancelled

instance (commit : String) (s : State) : Decidable (Lost commit s) := inferInstanceAs (Decidable (_ ∧ _ ∧ _))

/-- A poll reads the tip `a`; `b` is pushed and delivered; the poll creates its
evaluation of `a`, which supersedes that of `b`, and a full poll of `b` leaves
it so. It is the same when the branch is pushed back to `a`. -/
theorem tip_superseded :
    (∃ s ∈ exec small (withJobset mainJobset) ([.gitPush 0 "main" (some "a"), .poll 1 0] ++ nexts 1 3 ++
      [.gitPush 0 "main" (some "b"), .deliver 2 1] ++ nexts 2 1 ++ nexts 1 1 ++ fullPoll 3), Lost "b" s) ∧
    ∃ s ∈ exec small (withJobset mainJobset) ([.gitPush 0 "main" (some "a"), .deliver 1 0] ++ nexts 1 2 ++
      [.gitPush 0 "main" (some "b"), .deliver 1 1] ++ nexts 1 2 ++ [.gitPush 0 "main" (some "a"), .deliver 1 2] ++
      nexts 1 2 ++ fullPoll 3), Lost "a" s := by
  decide

end Circus.Evaluator
