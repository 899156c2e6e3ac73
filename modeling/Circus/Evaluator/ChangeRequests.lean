/-
# Change requests and branches

A push and a change request that reach one jobset run the same transaction,
`create_automated`, in streams of different names. What they share is the
unique index on `(jobset_id, commit_hash)`. So two sequences of webhooks are
compared here: one with change requests in it, and the same without them.

`changes_undisturbing`: the pushes are answered alike, move the branch's
stored head alike and have evaluations of their own, exactly when no change
request has created the evaluation of a commit whose later push is accepted
in the sequence without change requests. A fast-forward merge of a reviewed
commit is of that kind: its push meets the evaluation of the change request in
the index, and the new head is rolled back with it (`merged_by_fast_forward`).
-/
import Circus.Evaluator.Tip

namespace Circus.Evaluator

open Webhooks

/-! ### Sequences of webhooks -/

/-- What the loop of a handler makes of its request in the jobset, if it has
one: whether an evaluation is created. -/
def answerIn (now : Time) (jobsetId : Uuid) : List Request → Db → Option Bool
  | [], _ => none
  | r :: rs, db =>
    if r.input.jobsetId = jobsetId then some (r.run now db).isOk else answerIn now jobsetId rs (attempt now r db)

namespace Delivery

/-- The delivery, handled to its end. -/
def handle (now : Time) (d : Delivery) (db : Db) : Db := (d.requests db).foldl (fun db r => attempt now r db) db

def answer (now : Time) (jobsetId : Uuid) (d : Delivery) (db : Db) : Option Bool :=
  answerIn now jobsetId (d.requests db) db

def isPush : Delivery → Bool
  | push _ _ => true
  | change _ => false

/-- The commit a push is about. -/
def commit : Delivery → Option String
  | push projectId payload => (handlePush projectId payload).map (·.commit)
  | change _ => none

end Delivery

/-- Deliveries with the times they are handled at, one after the other. -/
abbrev Webhooks.History := List (Time × Delivery)

namespace Webhooks.History

def handle (h : History) (db : Db) : Db := h.foldl (fun db x => x.2.handle x.1 db) db

/-- The sequence without its change requests. -/
def pushes (h : History) : History := h.filter fun x => x.2.isPush

/-- For each push the answer in the jobset, and the branch's stored head after it. -/
def observed (jobsetId : Uuid) (branch : String) : History → Db → List (Option Bool × Option String)
  | [], _ => []
  | (now, d) :: h, db =>
    if d.isPush then
      (d.answer now jobsetId db, (d.handle now db).head jobsetId (branchScope branch)) ::
        observed jobsetId branch h (d.handle now db)
    else observed jobsetId branch h (d.handle now db)

end Webhooks.History

def ChangeScope (scope : String) : Prop := ∃ c : ChangeRequestEvaluation, c.sourceScope = scope

/-- The evaluation has no change-request field, and no evaluation of a change
request supersedes it. -/
structure OfBranch (db : Db) (e : EvaluationRow) : Prop where
  prNumber : e.prNumber = none
  prHeadBranch : e.prHeadBranch = none
  prBaseBranch : e.prBaseBranch = none
  prAction : e.prAction = none
  superseded : ∀ e' ∈ db.evaluations.rows, e.supersededBy = some e'.id →
    ∀ scope, e'.sourceScope = some scope → ¬ ChangeScope scope

namespace Webhooks.History

/-- The change requests of the sequence do not interfere with its pushes. -/
structure Undisturbed (jobsetId : Uuid) (branch : String) (h : History) (db : Db) : Prop where
  observed : h.observed jobsetId branch db = h.pushes.observed jobsetId branch db
  evaluated : ∀ h₁ now d h₂ commit, h = h₁ ++ (now, d) :: h₂ → d.commit = some commit →
    d.answer now jobsetId (handle h₁ db) = some true →
    ∃ e ∈ (h.handle db).evaluations.rows, e.jobsetId = jobsetId ∧ e.commitHash = commit ∧ OfBranch (h.handle db) e

/-- A change request of the sequence has created the jobset's evaluation of the
commit. -/
def ByChange (jobsetId : Uuid) (commit : String) (h : History) (db : Db) : Prop :=
  ∃ h₁ now c h₂, h = h₁ ++ (now, .change c) :: h₂ ∧ c.commit = commit ∧
    (Delivery.change c).answer now jobsetId (handle h₁ db) = some true

/-- No push that is accepted without the change requests comes after a change
request that has created the evaluation of its commit. -/
def Unforestalled (jobsetId : Uuid) (h : History) (db : Db) : Prop :=
  ∀ h₁ now d h₂ commit, h = h₁ ++ (now, d) :: h₂ → d.commit = some commit →
    d.answer now jobsetId (handle h₁.pushes db) = some true → ¬ ByChange jobsetId commit h₁ db

end Webhooks.History

/-! ### One delivery -/

section Answer

variable {now : Time} {jobsetId : Uuid} {r : Request} {db db' : Db}

/-- `create_automated` goes through. -/
theorem Request.isOk_run_iff {scope : String} {order : SourceOrder} (hs : r.source = some (scope, order)) :
    (r.run now db).isOk = true ↔ (∃ j, db.jobsets.get r.input.jobsetId = some j ∧
      (j.onlyBuildLatest = true → order.accepts (db.head r.input.jobsetId scope) = true)) ∧
      db.sourceTaken r.input.jobsetId r.input.commitHash = false := by
  constructor
  · intro h
    cases hrun : r.run now db with
    | error => rw [hrun] at h; cases h
    | ok p =>
      have hc := @Request.created now r db p.2 p.1 hrun
      have hkind : r.kind ≠ .interval := by simp [Request.kind, hs]
      refine ⟨?_, hc.fresh hkind⟩
      obtain ⟨base, hrow⟩ := hc.row
      have hnew : p.2.evaluations.get db.nextId = some p.1 := by rw [hc.get, if_pos rfl]
      have hfk := p.2.evaluation_fk p.1 (Table.mem_of_get hnew)
      rw [hc.jobsets, hrow] at hfk
      obtain ⟨j, hj⟩ := Option.isSome_iff_exists.mp hfk
      have hj : db.jobsets.get r.input.jobsetId = some j := hj
      refine ⟨j, hj, fun hl => hc.accepted scope order hs ?_⟩
      rw [Db.onlyBuildLatest, hj]
      exact hl
  · rintro ⟨⟨j, hj, ha⟩, ht⟩
    obtain ⟨e, db', hrun⟩ := Request.run_source now r hs hj ha ht
    rw [hrun]
    rfl

/-- The jobset's heads and commits after a request of it, which is answered `ok`. -/
structure Answered (jobsetId : Uuid) (r : Request) (ok : Bool) (db db' : Db) : Prop where
  head : ∀ scope, db'.head jobsetId scope =
    if ok = true ∧ r.scope = some scope then some r.input.commitHash else db.head jobsetId scope
  taken : ∀ commit, db'.sourceTaken jobsetId commit = true ↔
    db.sourceTaken jobsetId commit = true ∨ ok = true ∧ r.input.commitHash = commit

theorem answered_attempt (hj : r.input.jobsetId = jobsetId) (hs : r.source.isSome) :
    Answered jobsetId r (r.run now db).isOk db (attempt now r db) := by
  unfold Webhooks.attempt
  cases hrun : r.run now db with
  | error =>
    exact ⟨fun scope => by simp [Except.isOk, Except.toBool], fun c => by simp [Except.isOk, Except.toBool]⟩
  | ok p =>
    have hc := @Request.created now r db p.2 p.1 hrun
    have hkind : r.kind ≠ .interval := by simp [Request.kind, hs]
    refine ⟨fun scope => ?_, fun c => ?_⟩
    · rw [hc.head]
      simp [Except.isOk, Except.toBool, hj]
    · rw [sourceTaken_created hc]
      simp [Except.isOk, Except.toBool, hj, hkind]

theorem Answered.congr {ok : Bool} {db₁ db₂ db₃ : Db} (h : Answered jobsetId r ok db₁ db₂) (hq : Quiet jobsetId db db₁)
    (hq' : Quiet jobsetId db₂ db₃) : Answered jobsetId r ok db db₃ where
  head scope := by rw [hq'.head, h.head, hq.head]
  taken c := by rw [hq'.taken, h.taken, hq.taken]

theorem isOk_run_congr (hs : r.source.isSome) (hj : r.input.jobsetId = jobsetId) (hq : Quiet jobsetId db db') :
    (r.run now db').isOk = (r.run now db).isOk := by
  obtain ⟨⟨scope, order⟩, hs⟩ := Option.isSome_iff_exists.mp hs
  subst hj
  have htaken := hq.taken r.input.commitHash
  rw [Bool.eq_iff_iff, Request.isOk_run_iff hs, Request.isOk_run_iff hs, hq.jobset, hq.head, ← Bool.not_eq_true,
    ← Bool.not_eq_true, htaken]

end Answer

/-- Nothing but the request in the jobset, if the handler has one, bears on the
answer and on the jobset. -/
theorem answerIn_eq (now : Time) (jobsetId : Uuid) : ∀ (rs : List Request) (db : Db),
    (rs.map fun r => r.input.jobsetId).Nodup → (∀ r ∈ rs, r.source.isSome) →
    (answerIn now jobsetId rs db =
      (rs.find? fun r => decide (r.input.jobsetId = jobsetId)).map fun r => (r.run now db).isOk) ∧
    ∀ db', rs.foldl (fun db r => attempt now r db) db = db' →
      match rs.find? fun r => decide (r.input.jobsetId = jobsetId) with
      | none => Quiet jobsetId db db'
      | some r => Answered jobsetId r (r.run now db).isOk db db'
  | [], db, _, _ => ⟨rfl, fun _ h => h ▸ Quiet.refl jobsetId db⟩
  | r :: rs, db, hn, hs => by
    have hn := List.nodup_cons.mp hn
    by_cases hj : r.input.jobsetId = jobsetId
    · have hothers : ∀ r' ∈ rs, r'.input.jobsetId ≠ jobsetId := fun r' hr' he =>
        hn.1 (List.mem_map.mpr ⟨r', hr', he.trans hj.symm⟩)
      rw [answerIn, if_pos hj, List.find?_cons_of_pos (by simpa using hj)]
      refine ⟨rfl, fun db' hdb => ?_⟩
      subst hdb
      exact (answered_attempt hj (hs r List.mem_cons_self)).congr (Quiet.refl jobsetId db)
        (Quiet.foldl_attempt now rs hothers _)
    · have hq := Quiet.attempt now hj db
      have hs' : ∀ r ∈ rs, r.source.isSome := fun r hr => hs r (List.mem_cons_of_mem _ hr)
      obtain ⟨ih, ih'⟩ := answerIn_eq now jobsetId rs (attempt now r db) hn.2 hs'
      rw [answerIn, if_neg hj, List.find?_cons_of_neg (by simpa using hj), ih]
      constructor
      · cases hf : rs.find? fun r => decide (r.input.jobsetId = jobsetId) with
        | none => rfl
        | some r' =>
          have hj' : r'.input.jobsetId = jobsetId := by simpa using List.find?_some hf
          simp only [Option.map_some, isOk_run_congr (hs' r' (List.mem_of_find?_eq_some hf)) hj' hq]
      · intro db' hdb
        have := ih' db' hdb
        cases hf : rs.find? fun r => decide (r.input.jobsetId = jobsetId) with
        | none =>
          rw [hf] at this
          exact hq.trans this
        | some r' =>
          rw [hf] at this
          have hj' : r'.input.jobsetId = jobsetId := by simpa using List.find?_some hf
          simp only [isOk_run_congr (hs' r' (List.mem_of_find?_eq_some hf)) hj' hq] at this
          exact this.congr hq (Quiet.refl jobsetId db')

namespace Delivery

variable {now : Time} {jobsetId : Uuid} {d : Delivery} {db : Db}

def requestIn (jobsetId : Uuid) (d : Delivery) (db : Db) : Option Request :=
  (d.requests db).find? fun r => decide (r.input.jobsetId = jobsetId)

variable {r : Request}

theorem jobsetId_of_requestIn (h : d.requestIn jobsetId db = some r) : r.input.jobsetId = jobsetId := by
  simpa using List.find?_some h

/-- The requests of a push: in a stream of its own, without change-request fields. -/
def OfPush (commit : String) (r : Request) : Prop :=
  ∃ scope order, r = .enqueueSource { jobsetId := r.input.jobsetId, commitHash := commit } scope order ∧
    ¬ ChangeScope scope

theorem not_changeScope_push (ref : PushedRef) : ¬ ChangeScope (pushSourceScope ref) := by
  rintro ⟨c, h⟩
  cases ref with
  | branch name => exact changeScope_ne_branchScope c name h
  | tag | other =>
    have := congrArg String.toList h
    unfold ChangeRequestEvaluation.sourceScope at this
    split at this <;> simp [pushSourceScope] at this

theorem ofPush_of_requests {commit : String} (hd : d.commit = some commit) (hr : r ∈ d.requests db) :
    OfPush commit r := by
  cases d with
  | change => cases hd
  | push =>
    obtain ⟨p, hp, rfl⟩ := Option.map_eq_some_iff.mp hd
    simp only [requests, hp, Option.elim_some] at hr
    obtain ⟨j, -, hreq⟩ := List.mem_filterMap.mp hr
    unfold pushRequest at hreq
    split_ifs at hreq
    cases hreq
    exact ⟨_, _, rfl, not_changeScope_push p.pushedRef⟩

/-- A push that is about no commit asks for nothing. -/
theorem commit_of_requests (hd : d.isPush = true) (hr : r ∈ d.requests db) : ∃ commit, d.commit = some commit := by
  cases d with
  | change => cases hd
  | push projectId payload =>
    cases hp : handlePush projectId payload with
    | none =>
      simp only [requests, hp, Option.elim_none] at hr
      cases hr
    | some p => exact ⟨p.commit, by simp [commit, hp]⟩

/-- The requests of a change request: all in its own stream. -/
theorem scope_of_change {c : ChangeRequestEvaluation} (hr : r ∈ (change c).requests db) :
    r.scope = some c.sourceScope ∧ r.input.commitHash = c.commit := by
  obtain ⟨j, -, hreq⟩ := List.mem_filterMap.mp hr
  unfold changeRequest at hreq
  split_ifs at hreq
  cases hreq
  exact ⟨rfl, rfl⟩

/-- What a handler asks for is read off the jobsets. -/
theorem requests_eq (d : Delivery) (db : Db) : ∃ (projectId : Uuid) (f : JobsetRow → Option Request),
    (∀ j r, f j = some r → r.input.jobsetId = j.id ∧ r.source.isSome) ∧
    ∀ db', db'.jobsets = db.jobsets → d.requests db' = (listAllForProject projectId db).filterMap f := by
  cases d with
  | push projectId payload =>
    cases hp : handlePush projectId payload with
    | none => exact ⟨0, fun _ => none, fun _ _ h => (by cases h), fun _ _ => by simp [requests, hp]⟩
    | some p =>
      refine ⟨p.projectId, pushRequest p, fun j r h => ?_, fun db' h => ?_⟩
      · unfold pushRequest at h
        split_ifs at h
        cases h
        exact ⟨rfl, rfl⟩
      · simp only [requests, hp, Option.elim_some, pushRequests, listAllForProject, h]
  | change c =>
    refine ⟨c.projectId, changeRequest c, fun j r h => ?_, fun db' h => ?_⟩
    · unfold changeRequest at h
      split_ifs at h
      cases h
      exact ⟨rfl, rfl⟩
    · simp only [requests, changeRequests, listAllForProject, h]

theorem requests_congr {db' : Db} (h : db'.jobsets = db.jobsets) : d.requests db' = d.requests db := by
  obtain ⟨projectId, f, -, heq⟩ := d.requests_eq db
  rw [heq db' h, heq db rfl]

theorem source_of_requests (hr : r ∈ d.requests db) : r.source.isSome := by
  obtain ⟨projectId, f, hf, heq⟩ := d.requests_eq db
  rw [heq db rfl] at hr
  obtain ⟨j, -, hreq⟩ := List.mem_filterMap.mp hr
  exact (hf j r hreq).2

theorem nodup_requests (d : Delivery) (db : Db) : ((d.requests db).map fun r => r.input.jobsetId).Nodup := by
  obtain ⟨projectId, f, hf, heq⟩ := d.requests_eq db
  have hids : ((listAllForProject projectId db).map fun j => j.id).Nodup :=
    db.jobsets.nodup.sublist (List.filter_sublist.map _)
  rw [heq db rfl]
  refine hids.sublist ?_
  induction listAllForProject projectId db with
  | nil => exact List.Sublist.refl _
  | cons j l ih =>
    cases hj : f j with
    | none =>
      rw [List.filterMap_cons_none hj]
      exact ih.cons _
    | some r =>
      rw [List.filterMap_cons_some hj, List.map_cons, List.map_cons, (hf j r hj).1]
      exact ih.cons_cons _

theorem answer_eq (now : Time) (jobsetId : Uuid) (d : Delivery) (db : Db) :
    d.answer now jobsetId db = (d.requestIn jobsetId db).map fun r => (r.run now db).isOk :=
  (answerIn_eq now jobsetId _ db (d.nodup_requests db) fun _ => source_of_requests).1

theorem quiet_handle (now : Time) (h : d.requestIn jobsetId db = none) : Quiet jobsetId db (d.handle now db) := by
  have := (answerIn_eq now jobsetId _ db (d.nodup_requests db) fun _ => source_of_requests).2 _ rfl
  rwa [show (d.requests db).find? _ = none from h] at this

theorem answered_handle (now : Time) (h : d.requestIn jobsetId db = some r) :
    Answered jobsetId r (r.run now db).isOk db (d.handle now db) := by
  have := (answerIn_eq now jobsetId _ db (d.nodup_requests db) fun _ => source_of_requests).2 _ rfl
  rwa [show (d.requests db).find? _ = some r from h] at this

theorem answer_eq_true (h : d.answer now jobsetId db = some true) :
    ∃ r, d.requestIn jobsetId db = some r ∧ (r.run now db).isOk = true := by
  rw [answer_eq] at h
  exact Option.map_eq_some_iff.mp h

/-- What a commit has been evaluated for stays. -/
theorem taken_handle (now : Time) {commit : String} (h : db.sourceTaken jobsetId commit = true) :
    (d.handle now db).sourceTaken jobsetId commit = true := by
  cases hr : d.requestIn jobsetId db with
  | none => exact ((quiet_handle now hr).taken commit).mpr h
  | some => exact ((answered_handle now hr).taken commit).mpr (.inl h)

theorem jobsets_attempt (now : Time) (r : Request) (db : Db) : (attempt now r db).jobsets = db.jobsets := by
  unfold attempt
  split
  next e db' hrun => exact (Request.created hrun).jobsets
  next => rfl

theorem jobsets_handle (now : Time) (d : Delivery) (db : Db) : (d.handle now db).jobsets = db.jobsets := by
  unfold handle
  generalize d.requests db = rs
  induction rs generalizing db with
  | nil => rfl
  | cons r rs ih => exact (ih _).trans (jobsets_attempt now r db)

end Delivery

/-! ### The two runs -/

/-- The databases with and without the change requests: they differ in the
streams of change requests, and in the commits `extra` that only change
requests have brought. -/
structure Agree (jobsetId : Uuid) (extra : String → Prop) (db db₀ : Db) : Prop where
  jobsets : db.jobsets = db₀.jobsets
  head : ∀ scope, ¬ ChangeScope scope → db.head jobsetId scope = db₀.head jobsetId scope
  keeps : ∀ commit, db₀.sourceTaken jobsetId commit = true → db.sourceTaken jobsetId commit = true
  taken : ∀ commit, db.sourceTaken jobsetId commit = true → db₀.sourceTaken jobsetId commit = true ∨ extra commit

namespace Agree

variable {jobsetId : Uuid} {extra extra' : String → Prop} {db db₀ : Db}

theorem mono (hA : Agree jobsetId extra db db₀) (h : ∀ c, extra c → extra' c) : Agree jobsetId extra' db db₀ :=
  { hA with taken := fun c hc => (hA.taken c hc).imp_right (h c) }

/-- A change request is handled in one of them only. -/
theorem change (hA : Agree jobsetId extra db db₀) (now : Time) (c : ChangeRequestEvaluation)
    (hc : (Delivery.change c).answer now jobsetId db = some true → extra c.commit) :
    Agree jobsetId extra ((Delivery.change c).handle now db) db₀ := by
  have hjobsets : ((Delivery.change c).handle now db).jobsets = db₀.jobsets :=
    (Delivery.jobsets_handle now _ db).trans hA.jobsets
  cases hr : (Delivery.change c).requestIn jobsetId db with
  | none =>
    have hq := Delivery.quiet_handle now hr
    refine ⟨hjobsets, fun scope hs => ?_, fun c' h => ?_, fun c' h => ?_⟩
    · rw [hq.head, hA.head scope hs]
    · exact (hq.taken c').mpr (hA.keeps c' h)
    · exact hA.taken c' ((hq.taken c').mp h)
  | some r =>
    have ha := Delivery.answered_handle now hr
    obtain ⟨hscope, hcommit⟩ := Delivery.scope_of_change (List.mem_of_find?_eq_some hr)
    refine ⟨hjobsets, fun scope hs => ?_, fun c' h => ?_, fun c' h => ?_⟩
    · have hne : ¬ r.scope = some scope := fun he => hs ⟨c, Option.some.inj (hscope.symm.trans he)⟩
      rw [ha.head, if_neg fun h => hne h.2, hA.head scope hs]
    · exact (ha.taken c').mpr (.inl (hA.keeps c' h))
    · rcases (ha.taken c').mp h with h | ⟨hok, rfl⟩
      · exact hA.taken c' h
      · refine .inr (hcommit ▸ hc ?_)
        rw [Delivery.answer_eq, hr]
        exact congrArg some hok

/-- A push is answered alike in both, unless only a change request has brought
its commit. -/
theorem isOk_eq (hA : Agree jobsetId extra db db₀) (now : Time) {r : Request} {commit : String}
    (hr : Delivery.OfPush commit r) (hj : r.input.jobsetId = jobsetId)
    (hnew : (r.run now db₀).isOk = true → ¬ extra commit) : (r.run now db).isOk = (r.run now db₀).isOk := by
  obtain ⟨scope, order, heq, hscope⟩ := hr
  have hs : r.source = some (scope, order) := by rw [heq]; rfl
  have hcommit : r.input.commitHash = commit := by rw [heq]; rfl
  have hhead := hA.head scope hscope
  rw [Bool.eq_iff_iff]
  constructor
  · intro h
    obtain ⟨⟨j, hj', ha⟩, ht⟩ := (Request.isOk_run_iff hs).mp h
    rw [hj] at hj' ha ht
    rw [Request.isOk_run_iff hs, hj]
    refine ⟨⟨j, hA.jobsets ▸ hj', hhead ▸ ha⟩, ?_⟩
    by_contra htaken
    have := hA.keeps _ (by simpa using htaken)
    rw [ht] at this
    cases this
  · intro h
    obtain ⟨⟨j, hj', ha⟩, ht⟩ := (Request.isOk_run_iff hs).mp h
    rw [hj] at hj' ha ht
    rw [Request.isOk_run_iff hs, hj]
    refine ⟨⟨j, hA.jobsets ▸ hj', hhead ▸ ha⟩, ?_⟩
    by_contra htaken
    rcases hA.taken r.input.commitHash (by simpa using htaken) with h' | h'
    · rw [ht] at h'
      cases h'
    · exact hnew h (hcommit ▸ h')

/-- A push is handled in both. -/
theorem push (hA : Agree jobsetId extra db db₀) (now : Time) {d : Delivery} (hd : d.isPush = true)
    (hnew : ∀ commit, d.commit = some commit → d.answer now jobsetId db₀ = some true → ¬ extra commit) :
    d.answer now jobsetId db = d.answer now jobsetId db₀ ∧
      Agree jobsetId extra (d.handle now db) (d.handle now db₀) := by
  have hreq : d.requestIn jobsetId db = d.requestIn jobsetId db₀ := by
    rw [Delivery.requestIn, Delivery.requestIn, Delivery.requests_congr hA.jobsets]
  have hjobsets : (d.handle now db).jobsets = (d.handle now db₀).jobsets := by
    rw [Delivery.jobsets_handle, Delivery.jobsets_handle, hA.jobsets]
  rw [Delivery.answer_eq, Delivery.answer_eq, hreq]
  cases hr : d.requestIn jobsetId db₀ with
  | none =>
    have hq := Delivery.quiet_handle now (hreq.trans hr)
    have hq₀ := Delivery.quiet_handle now hr
    refine ⟨rfl, hjobsets, fun scope hs => ?_, fun c h => ?_, fun c h => ?_⟩
    · rw [hq.head, hq₀.head, hA.head scope hs]
    · exact (hq.taken c).mpr (hA.keeps c ((hq₀.taken c).mp h))
    · exact (hA.taken c ((hq.taken c).mp h)).imp_left (hq₀.taken c).mpr
  | some r =>
    have ha := Delivery.answered_handle now (hreq.trans hr)
    have ha₀ := Delivery.answered_handle now hr
    have hj := Delivery.jobsetId_of_requestIn hr
    obtain ⟨commit, hcommit⟩ := Delivery.commit_of_requests hd (List.mem_of_find?_eq_some hr)
    have hok : (r.run now db).isOk = (r.run now db₀).isOk := by
      refine hA.isOk_eq now (Delivery.ofPush_of_requests hcommit (List.mem_of_find?_eq_some hr)) hj fun h => ?_
      refine hnew commit hcommit ?_
      rw [Delivery.answer_eq, hr]
      exact congrArg some h
    rw [hok] at ha
    refine ⟨congrArg some hok, hjobsets, fun scope hs => ?_, fun c h => ?_, fun c h => ?_⟩
    · rw [ha.head, ha₀.head, hA.head scope hs]
    · exact (ha.taken c).mpr (((ha₀.taken c).mp h).imp_left (hA.keeps c))
    · rcases (ha.taken c).mp h with h | h
      · exact (hA.taken c h).imp_left fun h => (ha₀.taken c).mpr (.inl h)
      · exact .inl ((ha₀.taken c).mpr (.inr h))

end Agree

/-! ### The evaluation of a push -/

/-- Row `k` is the evaluation of a push: whatever supersedes it is in a stream
of pushes too. -/
structure PushedRow (jobsetId : Uuid) (commit : String) (k : Uuid) (e : EvaluationRow) (db : Db) : Prop where
  get : db.evaluations.get k = some e
  input : e.toCreateEvaluation = { jobsetId := jobsetId, commitHash := commit }
  scope : ∃ scope, e.sourceScope = some scope ∧ ¬ ChangeScope scope
  superseded : ∀ i, e.supersededBy = some i → ∃ e' scope, db.evaluations.get i = some e' ∧
    e'.sourceScope = some scope ∧ ¬ ChangeScope scope

namespace PushedRow

variable {jobsetId : Uuid} {commit : String} {k : Uuid} {e : EvaluationRow} {db db' : Db} {now : Time}

/-- No request changes the stream of an evaluation. -/
theorem sourceScope_created {r : Request} {new : EvaluationRow} (hc : r.Created now db new db') {i : Uuid}
    {e' : EvaluationRow} (h : db.evaluations.get i = some e') :
    ∃ e'', db'.evaluations.get i = some e'' ∧ e''.sourceScope = e'.sourceScope := by
  have hne : i ≠ db.nextId := fun hi => by
    rw [hi, Db.get_nextId] at h
    cases h
  rw [hc.get, if_neg hne, h, Option.map_some]
  refine ⟨_, rfl, ?_⟩
  split_ifs <;> rfl

theorem attempt (h : PushedRow jobsetId commit k e db) (now : Time) (r : Request) :
    ∃ e', PushedRow jobsetId commit k e' (Webhooks.attempt now r db) := by
  unfold Webhooks.attempt
  split
  next new db' hrun =>
    have hc := Request.created hrun
    have hold : ∀ i, e.supersededBy = some i → ∃ e' scope, db'.evaluations.get i = some e' ∧
        e'.sourceScope = some scope ∧ ¬ ChangeScope scope := by
      intro i hi
      obtain ⟨e', scope, he', hs, hns⟩ := h.superseded i hi
      obtain ⟨e'', he'', hs'⟩ := sourceScope_created hc he'
      exact ⟨e'', scope, he'', hs'.trans hs, hns⟩
    have hne : k ≠ db.nextId := fun hk => by
      have := h.get
      rw [hk, Db.get_nextId] at this
      cases this
    have hget := hc.get k
    rw [if_neg hne, h.get, Option.map_some] at hget
    by_cases hsup : r.supersedes db e = true
    · -- superseded in its own stream, by the new row
      rw [if_pos hsup] at hget
      obtain ⟨scope, hs, hns⟩ := h.scope
      obtain ⟨sc, hsc, hin⟩ := (Option.any_eq_true _ _).mp hsup
      have hin := (of_decide_eq_true (Bool.and_eq_true_iff.mp (Bool.and_eq_true_iff.mp hin).2).1).1
      obtain rfl : scope = sc := Option.some.inj (hs.symm.trans hin.2.2)
      refine ⟨_, hget, h.input, h.scope, fun i hi => ?_⟩
      cases hi
      obtain ⟨base, rfl⟩ := hc.row
      exact ⟨_, scope, by rw [hc.get, if_pos rfl], hsc, hns⟩
    · rw [if_neg hsup] at hget
      exact ⟨e, hget, h.input, h.scope, hold⟩
  next => exact ⟨e, h⟩

theorem foldl (now : Time) : ∀ (rs : List Request) {e : EvaluationRow} {db : Db},
    PushedRow jobsetId commit k e db →
    ∃ e', PushedRow jobsetId commit k e' (rs.foldl (fun db r => Webhooks.attempt now r db) db)
  | [], e, _, h => ⟨e, h⟩
  | r :: rs, _, _, h =>
    have ⟨_, h'⟩ := h.attempt now r
    foldl now rs h'

theorem handle (h : PushedRow jobsetId commit k e db) : ∀ hist : History,
    ∃ e', PushedRow jobsetId commit k e' (hist.handle db) := by
  intro hist
  induction hist generalizing e db with
  | nil => exact ⟨e, h⟩
  | cons x hist ih =>
    obtain ⟨e', h'⟩ := foldl x.1 (x.2.requests db) h
    exact ih h'

/-- A request of a push that goes through creates such a row. -/
theorem of_run {r : Request} (hr : Delivery.OfPush commit r) (hj : r.input.jobsetId = jobsetId)
    (hok : (r.run now db).isOk = true) : ∃ k e, PushedRow jobsetId commit k e (Webhooks.attempt now r db) := by
  obtain ⟨scope, order, heq, hns⟩ := hr
  cases hrun : r.run now db with
  | error =>
    rw [hrun] at hok
    cases hok
  | ok p =>
    have hc := @Request.created now r db p.2 p.1 hrun
    obtain ⟨base, hrow⟩ := hc.row
    have hdb : Webhooks.attempt now r db = p.2 := by rw [Webhooks.attempt, hrun]
    have hin : r.input = { jobsetId := jobsetId, commitHash := commit } := by rw [heq, hj]; rfl
    refine ⟨db.nextId, p.1, by rw [hdb, hc.get, if_pos rfl], ?_, ⟨scope, ?_, hns⟩, fun i hi => ?_⟩
    · rw [hrow, ← hin]; rfl
    · rw [hrow]
      exact (congrArg Request.scope heq).trans rfl
    · rw [hrow] at hi
      cases hi

theorem of_answerIn (now : Time) : ∀ (rs : List Request) (db : Db), (∀ r ∈ rs, Delivery.OfPush commit r) →
    answerIn now jobsetId rs db = some true →
    ∃ k e, PushedRow jobsetId commit k e (rs.foldl (fun db r => Webhooks.attempt now r db) db)
  | [], _, _, h => by cases h
  | r :: rs, db, hpush, h => by
    rw [answerIn] at h
    split_ifs at h with hj
    · obtain ⟨k, e, hrow⟩ := of_run (hpush r List.mem_cons_self) hj (Option.some.inj h)
      obtain ⟨e', hrow'⟩ := foldl now rs hrow
      exact ⟨k, e', hrow'⟩
    · exact of_answerIn now rs _ (fun r hr => hpush r (List.mem_cons_of_mem _ hr)) h

theorem ofBranch (h : PushedRow jobsetId commit k e db) :
    e ∈ db.evaluations.rows ∧ e.jobsetId = jobsetId ∧ e.commitHash = commit ∧ OfBranch db e := by
  have hin := h.input
  refine ⟨Table.mem_of_get h.get, congrArg (·.jobsetId) hin, congrArg (·.commitHash) hin,
    congrArg (·.prNumber) hin, congrArg (·.prHeadBranch) hin, congrArg (·.prBaseBranch) hin,
    congrArg (·.prAction) hin, fun e' he' hsup scope hs => ?_⟩
  obtain ⟨e'', scope', he'', hs', hns⟩ := h.superseded e'.id hsup
  obtain rfl := Option.some.inj ((Db.get_of_mem he').symm.trans he'')
  obtain rfl := Option.some.inj (hs.symm.trans hs')
  exact hns

end PushedRow

/-! ### Histories -/

namespace Webhooks.History

variable {jobsetId : Uuid} {branch : String} {h h' : History} {db : Db}

theorem handle_append (h h' : History) (db : Db) : handle (h ++ h') db = handle h' (handle h db) :=
  List.foldl_append

theorem handle_snoc (h : History) (now : Time) (d : Delivery) (db : Db) :
    handle (h ++ [(now, d)]) db = d.handle now (handle h db) := handle_append h [(now, d)] db

theorem observed_append (h h' : History) (db : Db) :
    observed jobsetId branch (h ++ h') db =
      observed jobsetId branch h db ++ observed jobsetId branch h' (handle h db) := by
  induction h generalizing db with
  | nil => rfl
  | cons x h ih =>
    obtain ⟨now, d⟩ := x
    simp only [List.cons_append, observed, ih]
    split_ifs <;> rfl

theorem length_observed (h : History) (db : Db) : (observed jobsetId branch h db).length = h.pushes.length := by
  induction h generalizing db with
  | nil => rfl
  | cons x h ih =>
    obtain ⟨now, d⟩ := x
    cases hd : d.isPush <;> simp [observed, pushes, hd, ih]

theorem pushes_append (h h' : History) : pushes (h ++ h') = h.pushes ++ h'.pushes := List.filter_append ..

variable {commit : String}

theorem taken_handle (h : History) (ht : db.sourceTaken jobsetId commit = true) :
    (handle h db).sourceTaken jobsetId commit = true := by
  induction h generalizing db with
  | nil => exact ht
  | cons x h ih => exact ih (Delivery.taken_handle x.1 ht)

/-- What a change request has created is in the index. -/
theorem ByChange.taken (hb : ByChange jobsetId commit h db) : (handle h db).sourceTaken jobsetId commit = true := by
  obtain ⟨h₁, now, c, h₂, rfl, rfl, ha⟩ := hb
  rw [handle_append]
  refine taken_handle h₂ ?_
  obtain ⟨r, hr, hok⟩ := Delivery.answer_eq_true ha
  have hcommit := (Delivery.scope_of_change (List.mem_of_find?_eq_some hr)).2
  exact ((Delivery.answered_handle now hr).taken _).mpr (.inr ⟨hok, hcommit⟩)

theorem ByChange.append (hb : ByChange jobsetId commit h db) (h' : History) :
    ByChange jobsetId commit (h ++ h') db := by
  obtain ⟨h₁, now, c, h₂, rfl, hc, ha⟩ := hb
  exact ⟨h₁, now, c, h₂ ++ h', by simp, hc, ha⟩

theorem Unforestalled.left (hu : Unforestalled jobsetId (h ++ h') db) : Unforestalled jobsetId h db := by
  rintro h₁ now d h₂ commit rfl hd ha
  exact hu h₁ now d (h₂ ++ h') commit (by simp) hd ha

/-- The two runs, one delivery at a time. -/
theorem agree (hu : Unforestalled jobsetId h db) :
    Agree jobsetId (fun commit => ByChange jobsetId commit h db) (handle h db) (handle h.pushes db) ∧
      observed jobsetId branch h db = observed jobsetId branch h.pushes db := by
  induction h using List.reverseRecOn with
  | nil => exact ⟨⟨rfl, fun _ _ => rfl, fun _ h => h, fun _ h => .inl h⟩, rfl⟩
  | append_singleton h x ih =>
    obtain ⟨now, d⟩ := x
    obtain ⟨hA, hobs⟩ := ih hu.left
    rw [observed_append, hobs, handle_snoc, pushes_append]
    cases d with
    | change c =>
      have hpushes : pushes [(now, Delivery.change c)] = [] := rfl
      rw [hpushes, List.append_nil]
      have hA' := hA.mono fun c' hc => ByChange.append hc [(now, Delivery.change c)]
      exact ⟨hA'.change now c fun ha => ⟨h, now, c, [], rfl, rfl, ha⟩, by simp [observed, Delivery.isPush]⟩
    | push projectId payload =>
      have hpushes : pushes [(now, Delivery.push projectId payload)] = [(now, .push projectId payload)] := rfl
      rw [hpushes, handle_snoc, observed_append]
      obtain ⟨hans, hA'⟩ := hA.push now (d := .push projectId payload) rfl fun commit hc ha =>
        hu h now (.push projectId payload) [] commit rfl hc ha
      have hhead := hA'.head (branchScope branch) fun ⟨c, hc⟩ => changeScope_ne_branchScope c branch hc
      refine ⟨hA'.mono fun c hc => ByChange.append hc _, ?_⟩
      simp only [observed, Delivery.isPush, if_true, hans, hhead]

/-- A push whose commit a change request has brought is turned down. -/
theorem not_accepted_of_byChange {now : Time} {d : Delivery} (hb : ByChange jobsetId commit h db)
    (hd : d.commit = some commit) : d.answer now jobsetId (handle h db) ≠ some true := by
  intro ha
  obtain ⟨r, hr, hok⟩ := Delivery.answer_eq_true ha
  obtain ⟨scope, order, heq, -⟩ := Delivery.ofPush_of_requests hd (List.mem_of_find?_eq_some hr)
  have hs : r.source = some (scope, order) := by rw [heq]; rfl
  have hcommit : r.input.commitHash = commit := by rw [heq]; rfl
  have hfree := ((Request.isOk_run_iff hs).mp hok).2
  rw [Delivery.jobsetId_of_requestIn hr, hcommit, hb.taken] at hfree
  cases hfree

/-- The answers to one push are observed at the same place. -/
theorem answer_of_observed {h₁ h₂ : History} {now : Time} {d : Delivery} (hd : d.isPush = true)
    (heq : observed jobsetId branch (h₁ ++ (now, d) :: h₂) db =
      observed jobsetId branch (pushes (h₁ ++ (now, d) :: h₂)) db) :
    d.answer now jobsetId (handle h₁ db) = d.answer now jobsetId (handle h₁.pushes db) := by
  have hpushes : pushes ((now, d) :: h₂) = (now, d) :: h₂.pushes := List.filter_cons_of_pos hd
  have hidem : (pushes h₁).pushes = h₁.pushes := List.filter_filter.trans (by simp [pushes])
  rw [pushes_append, hpushes, observed_append, observed_append] at heq
  have hlen : (observed jobsetId branch h₁ db).length = (observed jobsetId branch h₁.pushes db).length := by
    rw [length_observed, length_observed, hidem]
  have htail := List.append_inj_right heq hlen
  simp only [observed, hd, if_true, List.cons.injEq, Prod.mk.injEq] at htail
  exact htail.1.1

/-- **Change requests do not interfere with branches**, in a sequence of
webhooks handled one after the other, exactly when no push that is accepted
without the change requests comes after a change request that has created the
evaluation of its commit. -/
theorem changes_undisturbing (jobsetId : Uuid) (branch : String) (h : History) (db : Db) :
    Undisturbed jobsetId branch h db ↔ Unforestalled jobsetId h db := by
  constructor
  · rintro hund h₁ now d h₂ commit rfl hd ha hb
    have hpush : d.isPush = true := by
      cases d with
      | push => rfl
      | change => cases hd
    rw [← answer_of_observed hpush hund.observed] at ha
    exact not_accepted_of_byChange hb hd ha
  · intro hu
    refine ⟨(agree hu).2, ?_⟩
    rintro h₁ now d h₂ commit rfl hd ha
    obtain ⟨k, e, hrow⟩ := PushedRow.of_answerIn now (d.requests (handle h₁ db)) _
      (fun r hr => Delivery.ofPush_of_requests hd hr) ha
    obtain ⟨e', hrow'⟩ := hrow.handle h₂
    rw [handle_append]
    exact ⟨e', hrow'.ofBranch⟩

/-- A commit is proposed for `main`, then `main` is fast-forwarded to it. -/
def fastForward : History :=
  [(0, .change { projectId := 0, commit := "a", first := true, number := some 1, baseBranch := some "main" }),
    (1, .push 0 (branchPush "main" zeroCommit "a"))]

/-- The push is turned down, `main` has no stored head, and its commit no
evaluation but the change request's; without the change request it is accepted. -/
def Forestalled (db : Db) : Prop :=
  fastForward.observed 0 "main" db = [(some false, none)] ∧
    fastForward.pushes.observed 0 "main" db = [(some true, some "a")] ∧
    (fastForward.handle db).evaluations.rows.map (fun e => (e.commitHash, e.prNumber)) = [("a", some 1)]

instance (db : Db) : Decidable (Forestalled db) := inferInstanceAs (Decidable (_ ∧ _ ∧ _))

theorem Forestalled.disturbed {db : Db} (h : Forestalled db) : ¬ Undisturbed 0 "main" fastForward db := by
  intro hund
  have hsame := hund.observed
  rw [h.1, h.2.1] at hsame
  cases hsame

/-- It is so whether the jobset builds only the latest commit or all. -/
theorem merged_by_fast_forward :
    (Forestalled (withJobset mainJobset).db ∧ ¬ Undisturbed 0 "main" fastForward (withJobset mainJobset).db) ∧
    Forestalled (withJobset { mainJobset with onlyBuildLatest := false }).db ∧
      ¬ Undisturbed 0 "main" fastForward (withJobset { mainJobset with onlyBuildLatest := false }).db := by
  obtain ⟨hlatest, hall⟩ : Forestalled (withJobset mainJobset).db ∧
      Forestalled (withJobset { mainJobset with onlyBuildLatest := false }).db := by decide
  exact ⟨⟨hlatest, hlatest.disturbed⟩, hall, hall.disturbed⟩

end Webhooks.History

end Circus.Evaluator
