/-
# Pushes and the stored head

Two readings of `push_source_order`, for a jobset that hears of one branch by
its push webhooks only.

Deliveries in any order, with losses and duplicates (`pushes_never_back`): a
push says which commit it follows, and is turned down unless that is the
stored head, so the head only goes up along the branch's history.

Deliveries in the forge's order (`pushes_in_order`): each push becomes the
stored head, as long as the branch does not come back to a commit it has had,
and is not created again after it has been deleted. Both are turned down: the
first by the unique index, which rolls the new head back with the evaluation,
the second because the all-zero id of a creation is compared with the head
that the deletion has left behind (`pushed_back_or_created_again`).
-/
import Circus.Evaluator.Streams

namespace Circus.Evaluator

open Webhooks

/-- What a jobset asks for when the branch goes from one commit to another. -/
def eventRequest (jobsetId : Uuid) (branch before after : String) : Request :=
  .enqueueSource { jobsetId := jobsetId, commitHash := after } (branchScope branch) (.after before)

theorem pushRequest_branch {projectId : Uuid} {branch before after : String} {j : JobsetRow} {r : Request}
    (h : pushRequest ⟨projectId, after, some before, .branch branch⟩ j = some r) :
    r = eventRequest j.id branch before after := by
  unfold pushRequest at h
  split_ifs at h
  exact (Option.some.inj h).symm

/-! ### In any order -/

/-- The jobset is not polled, and the deliveries that reach it are pushes of
the branch from one of the commits `c 0, …, c n` to the next. -/
def OnlyPushes (projectId jobsetId : Uuid) (branch : String) (c : ℕ → String) (n : ℕ) (s : State) : Action → Prop
  | .deliver _ k => ∀ d ∈ s.sent[k]?, (∃ r ∈ d.requests s.db, r.input.jobsetId = jobsetId) →
      ∃ i < n, d = .push projectId (branchPush branch (c i) (c (i + 1)))
  | .poll _ i => i ≠ jobsetId
  | _ => True

instance (projectId jobsetId : Uuid) (branch : String) (c : ℕ → String) (n : ℕ) (s : State) (a : Action) :
    Decidable (OnlyPushes projectId jobsetId branch c n s a) := by
  unfold OnlyPushes
  split <;> infer_instance

section AnyOrder

variable {cfg : Config} {projectId jobsetId : Uuid} {branch : String} {c : ℕ → String} {n : ℕ}

variable (jobsetId branch c n) in
/-- The tasks that are about to create an evaluation of the jobset are handlers
of those pushes. -/
structure PushTasks (s : State) : Prop where
  events : ∀ t rs, s.phase t = .triggering rs → ∀ r ∈ rs, r.input.jobsetId = jobsetId →
    ∃ i < n, r = eventRequest jobsetId branch (c i) (c (i + 1))
  unpolled : ∀ t jobset, (s.phase t).jobset = some jobset → jobset.id ≠ jobsetId

namespace PushTasks

variable {s s' : State} {a : Action}

theorem of_idle (h : s.Idle) : PushTasks jobsetId branch c n s where
  events t rs hp := by
    rw [h t] at hp
    cases hp
  unpolled t jobset hp := by
    rw [h t] at hp
    cases hp

theorem step (hI : PushTasks jobsetId branch c n s) (ha : OnlyPushes projectId jobsetId branch c n s a)
    (h : step cfg s a = some s') : PushTasks jobsetId branch c n s' where
  events t rs hp r hr hj := by
    rcases triggering_of_step h hp with ⟨rs₀, hp₀, hmem⟩ | ⟨k, d, rfl, hd, rfl⟩
    · exact hI.events t rs₀ hp₀ r (hmem r hr) hj
    · obtain ⟨i, hi, rfl⟩ := ha d hd ⟨r, hr, hj⟩
      refine ⟨i, hi, ?_⟩
      simp only [Delivery.requests, handlePush_branchPush] at hr
      split_ifs at hr
      · cases hr
      · obtain ⟨j, -, hreq⟩ := List.mem_filterMap.mp hr
        obtain rfl := pushRequest_branch hreq
        rw [show j.id = jobsetId from hj]
  unpolled t jobset hp hid := by
    rcases jobset_of_step h hp with hp₀ | ⟨rfl, -⟩
    · exact hI.unpolled t jobset hp₀ hid
    · exact ha hid

/-- What is asked for in the jobset. -/
theorem requestOf_eq (hI : PushTasks jobsetId branch c n s) {r : Request} (hr : requestOf cfg s a = some r)
    (hj : r.input.jobsetId = jobsetId) : ∃ i < n, r = eventRequest jobsetId branch (c i) (c (i + 1)) := by
  obtain ⟨t, -, ⟨rest, hp⟩ | ⟨jobset, commit, hp, rfl⟩ | ⟨jobset, ref, refs, hp, rfl⟩⟩ := requestOf_cases hr
  · exact hI.events t _ hp r List.mem_cons_self hj
  · refine absurd ?_ (hI.unpolled t jobset (by rw [hp]; rfl))
    unfold pollRequest at hj
    split_ifs at hj <;> exact hj
  · refine absurd ?_ (hI.unpolled t jobset (by rw [hp]; rfl))
    unfold refRequest at hj
    split at hj <;> exact hj

end PushTasks

variable (c n) in
/-- The order of `c 0, …, c n`. -/
def InTurn (x y : String) : Prop := ∃ i i', i < i' ∧ i' ≤ n ∧ x = c i ∧ y = c i'

/-- Commits are distinct, so the order is that of the indices. -/
theorem lt_of_inTurn (hc : Set.InjOn c (Set.Iic n)) {i i' : ℕ} (hi : i ≤ n) (hi' : i' ≤ n)
    (h : InTurn c n (c i) (c i')) : i < i' := by
  obtain ⟨j, j', hlt, hj', h1, h2⟩ := h
  rwa [hc (Set.mem_Iic.mpr hi) (Set.mem_Iic.mpr (hlt.le.trans hj')) h1,
    hc (Set.mem_Iic.mpr hi') (Set.mem_Iic.mpr hj') h2]

theorem isTrans_inTurn (hc : Set.InjOn c (Set.Iic n)) : IsTrans String (InTurn c n) := ⟨fun x y z hxy hyz => by
  obtain ⟨i, i', hlt, hi', rfl, rfl⟩ := hxy
  obtain ⟨j, j', hlt', hj', h, rfl⟩ := hyz
  obtain rfl := hc (Set.mem_Iic.mpr hi') (Set.mem_Iic.mpr (hlt'.le.trans hj')) h
  exact ⟨i, j', hlt.trans hlt', hj', rfl, rfl⟩⟩

variable (jobsetId branch c n) in
/-- The jobset's stream, in the order of the branch's history. -/
structure PushInv (s : State) : Prop where
  tasks : PushTasks jobsetId branch c n s
  latest : s.db.onlyBuildLatest jobsetId = true
  ordered : StreamInv (InTurn c n) jobsetId (branchScope branch) s.db
  head : ∀ h, s.db.head jobsetId (branchScope branch) = some h → ∃ i ≤ n, h = c i
  streamed : ∀ k e, s.db.evaluations.get k = some e → e.jobsetId = jobsetId → e.supersededBy.isSome →
    e.InScope jobsetId (branchScope branch)

namespace PushInv

variable {s s' : State} {a : Action}

theorem createsIn (hI : PushInv jobsetId branch c n s) {db : Db} {commit : String}
    (h : CreatesIn cfg s a db jobsetId (branchScope branch) commit) :
    ∃ i < n, commit = c (i + 1) ∧ ∀ h, s.db.head jobsetId (branchScope branch) = some h → h = c i := by
  obtain ⟨r, e, hr, hc, hj, hs, rfl⟩ := h
  obtain ⟨i, hi, rfl⟩ := hI.tasks.requestOf_eq hr hj
  refine ⟨i, hi, rfl, fun h hh => ?_⟩
  have hacc : (SourceOrder.after (c i)).accepts (s.db.head jobsetId (branchScope branch)) = true :=
    hc.accepted (branchScope branch) (.after (c i)) rfl hI.latest
  rw [hh] at hacc
  exact of_decide_eq_true hacc

theorem advances (hI : PushInv jobsetId branch c n s) :
    Advances (InTurn c n) jobsetId (branchScope branch) cfg s a := by
  intro db commit hin h hh
  obtain ⟨i, hi, rfl, hbefore⟩ := hI.createsIn hin
  exact ⟨i, i + 1, Nat.lt_succ_self i, hi, hbefore h hh, rfl⟩

theorem step [IsTrans String (InTurn c n)] (hI : PushInv jobsetId branch c n s) (hk : KeepsLatest jobsetId a)
    (ha : OnlyPushes projectId jobsetId branch c n s a) (h : step cfg s a = some s') :
    PushInv jobsetId branch c n s' where
  tasks := hI.tasks.step ha h
  latest := onlyBuildLatest_effect hk hI.latest (step_effect h)
  ordered := hI.ordered.effect hI.advances (step_effect h)
  head c' hc' := by
    rcases head_of_effect (step_effect h) jobsetId (branchScope branch) with hh | ⟨commit, hin⟩
    · exact hI.head c' (hh ▸ hc')
    · obtain ⟨i, hi, rfl, -⟩ := hI.createsIn hin
      rw [hin.head] at hc'
      exact ⟨i + 1, hi, (Option.some.inj hc').symm⟩
  streamed k e' he' hj hsup := by
    have hrow := row_of_effect (step_effect h) k
    rw [he'] at hrow
    generalize ho : some e' = o at hrow
    cases hrow with
    | same => exact hI.streamed k e' ho.symm hj hsup
    | created =>
      cases ho
      cases hsup
    | superseded r new e hr hc he hs =>
      cases ho
      obtain ⟨sc, hsc, hs⟩ := (Option.any_eq_true _ _).mp hs
      have hin := (of_decide_eq_true (Bool.and_eq_true_iff.mp (Bool.and_eq_true_iff.mp hs).2).1).1
      obtain ⟨i, -, rfl⟩ := hI.tasks.requestOf_eq hr (hin.1.symm.trans hj)
      obtain rfl : branchScope branch = sc := Option.some.inj hsc
      exact ⟨hj, hin.2⟩
    | statement q e hq he =>
      cases ho
      cases q <;> exact hI.streamed k e he hj hsup
    | restarted =>
      cases ho
      cases hsup
    | recorded jobs e hc he =>
      cases ho
      exact hI.streamed k e he hj hsup

end PushInv

/-- **Late webhooks never move a branch backwards.** Let `c 0, …, c n` be
distinct commits, and take a latest-only jobset without evaluations whose
stored head, if any, is one of them. In every run in which the jobset hears of
pushes `c i → c (i + 1)` only, in any order, any number of times: the index of
the stored head never goes down; a push is turned down with the database as it
was, or becomes the head; and no evaluation is superseded by one of a smaller
index. -/
theorem pushes_never_back {s₀ s₁ s : State} {as bs : List Action} (hc : Set.InjOn c (Set.Iic n)) (h₀ : s₀.Idle)
    (hl : s₀.db.onlyBuildLatest jobsetId = true) (hnone : ∀ e ∈ s₀.db.evaluations.rows, e.jobsetId ≠ jobsetId)
    (hhead : ∀ h, s₀.db.head jobsetId (branchScope branch) = some h → ∃ i ≤ n, h = c i)
    (hrun : Along cfg (fun s a => KeepsLatest jobsetId a ∧ OnlyPushes projectId jobsetId branch c n s a) s₀ (as ++ bs))
    (h₁ : exec cfg s₀ as = some s₁) (h : exec cfg s₁ bs = some s) :
    (∀ i ≤ n, s₁.db.head jobsetId (branchScope branch) = some (c i) →
      ∃ i' ≤ n, i ≤ i' ∧ s.db.head jobsetId (branchScope branch) = some (c i')) ∧
    (∀ a cs s₂, bs = a :: cs → step cfg s₁ a = some s₂ → ∀ r ∈ requestOf cfg s₁ a, r.input.jobsetId = jobsetId →
      ∃ i < n, r = eventRequest jobsetId branch (c i) (c (i + 1)) ∧
        (s₂.db = s₁.db ∨ s₂.db.head jobsetId (branchScope branch) = some (c (i + 1)))) ∧
    ∀ e ∈ s.db.evaluations.rows, ∀ e' ∈ s.db.evaluations.rows, e.jobsetId = jobsetId →
      e.supersededBy = some e'.id → ∀ i ≤ n, ∀ i' ≤ n, e.commitHash = c i → e'.commitHash = c i' → i < i' := by
  have := isTrans_inTurn hc
  have hI₀ : PushInv jobsetId branch c n s₀ := by
    have hnone' : ∀ k e, s₀.db.evaluations.get k = some e → e.jobsetId ≠ jobsetId := fun k e he =>
      hnone e (Table.mem_of_get he)
    exact ⟨.of_idle h₀, hl, .of_none hnone', hhead, fun k e he hj => absurd hj (hnone' k e he)⟩
  have hI₁ : PushInv jobsetId branch c n s₁ :=
    Lts.exec_inv (fun _ _ _ hI ha hs => PushInv.step hI ha.1 ha.2 hs) hI₀ hrun.append.1 h₁
  refine ⟨fun i hi hhd => ?_, fun a cs s₂ _ hs r hr hj => ?_, fun e he e' he' hj hsup i hi i' hi' hci hci' => ?_⟩
  · have hstep : ∀ s a s', (PushInv jobsetId branch c n s ∧
          ∃ i' ≤ n, i ≤ i' ∧ s.db.head jobsetId (branchScope branch) = some (c i')) →
        KeepsLatest jobsetId a ∧ OnlyPushes projectId jobsetId branch c n s a → step cfg s a = some s' →
        PushInv jobsetId branch c n s' ∧
          ∃ i' ≤ n, i ≤ i' ∧ s'.db.head jobsetId (branchScope branch) = some (c i') := by
      rintro s a s' ⟨hI, i', hi', hle, hh⟩ ha hs
      have hI' := hI.step ha.1 ha.2 hs
      obtain ⟨c', hc', rfl | hlt⟩ := StreamInv.head_le hI.advances (step_effect hs) hh
      · exact ⟨hI', i', hi', hle, hc'⟩
      · obtain ⟨i₂, hi₂, rfl⟩ := hI'.head c' hc'
        exact ⟨hI', i₂, hi₂, hle.trans (lt_of_inTurn hc hi' hi₂ hlt).le, hc'⟩
    exact (Lts.exec_inv hstep ⟨hI₁, i, hi, le_rfl, hhd⟩ (hrun.append.2 s₁ h₁) h).2
  · obtain ⟨i, hi, rfl⟩ := hI₁.tasks.requestOf_eq hr hj
    refine ⟨i, hi, rfl, ?_⟩
    rcases effect_of_request hr hs with ⟨-, hsame⟩ | ⟨e, hcr⟩
    · exact .inl hsame
    · exact .inr (CreatesIn.head ⟨_, e, hr, hcr, rfl, rfl, rfl⟩)
  · have hI : PushInv jobsetId branch c n s :=
      Lts.exec_inv (fun _ _ _ hI ha hs => PushInv.step hI ha.1 ha.2 hs) hI₁ (hrun.append.2 s₁ h₁) h
    have hsc := hI.streamed e.id e (Db.get_of_mem he) hj (by rw [hsup]; rfl)
    obtain ⟨e₂, he₂, -, hlt⟩ := hI.ordered.ascending e.id e (Db.get_of_mem he) hsc e'.id hsup
    obtain rfl := Option.some.inj ((Db.get_of_mem he').symm.trans he₂)
    rw [hci, hci'] at hlt
    exact lt_of_inTurn hc hi hi' hlt

end AnyOrder

def fourCommits (i : ℕ) : String := ["a", "b", "c", "d"].getD i ""

/-- All are pushed, and `b → c` is delivered first. -/
def secondFirst : List Action :=
  ["a", "b", "c", "d"].map (fun c => .gitPush 0 "main" (some c)) ++ [.deliver 1 2] ++ nexts 1 1

/-- Then `a → b`, `c → d`, and `b → c` again. -/
def othersLater : List Action :=
  [.deliver 2 1, .deliver 3 3] ++ nexts 2 1 ++ nexts 3 1 ++ [.deliver 4 2] ++ nexts 4 1

theorem pushes_never_back_othersLater : ∃ s₁ ∈ exec small (withJobset mainJobset) secondFirst,
    s₁.db.head 0 "branch:main" = some "c" ∧ ∃ s ∈ exec small s₁ othersLater, ∃ i' ≤ 3, 2 ≤ i' ∧
      s.db.head 0 "branch:main" = some (fourCommits i') := by
  obtain ⟨s₁, h₁, hh, s, h, -⟩ : ∃ s₁ ∈ exec small (withJobset mainJobset) secondFirst,
      s₁.db.head 0 "branch:main" = some "c" ∧ ∃ s ∈ exec small s₁ othersLater,
        s.db.head 0 "branch:main" = some "d" := by decide
  have hinj : ∀ i ≤ 3, ∀ i' ≤ 3, fourCommits i = fourCommits i' → i = i' := by decide
  have hrun : Along small (fun s a => KeepsLatest 0 a ∧ OnlyPushes 0 0 "main" fourCommits 3 s a)
      (withJobset mainJobset) (secondFirst ++ othersLater) := by decide
  have := (pushes_never_back (fun i hi i' hi' => hinj i hi i' hi') (idle_withJobset _) (by decide)
    (fun _ he => by cases he) (fun _ hh => by cases hh) hrun h₁ h).1 2 (by decide) hh
  exact ⟨s₁, h₁, hh, s, h, this⟩

/-! ### In the forge's order -/

/-- What the forge sends when a branch goes from one tip to another, where
`none` is a branch that does not exist. -/
def branchMove (branch : String) (tip next : Option String) : PushPayload :=
  branchPush branch (tip.getD zeroCommit) (next.getD zeroCommit)

/-- The jobset, its heads and its commits are the same. -/
structure Quiet (jobsetId : Uuid) (db db' : Db) : Prop where
  jobset : db'.jobsets.get jobsetId = db.jobsets.get jobsetId
  head : ∀ scope, db'.head jobsetId scope = db.head jobsetId scope
  taken : ∀ commit, db'.sourceTaken jobsetId commit = true ↔ db.sourceTaken jobsetId commit = true

/-- The moves of a branch, delivered and handled one after the other. Between
two of them anything may happen that is not about the jobset. -/
inductive Handled (projectId jobsetId : Uuid) (branch : String) :
    Option String → List (Option String) → Db → Db → Prop
  | nil (tip : Option String) (db : Db) : Handled projectId jobsetId branch tip [] db db
  | move {tip next : Option String} {rest : List (Option String)} {db db₁ db₂ : Db} (now : Time)
      (hq : Quiet jobsetId (deliver now projectId (branchMove branch tip next) db) db₁)
      (h : Handled projectId jobsetId branch next rest db₁ db₂) :
      Handled projectId jobsetId branch tip (next :: rest) db db₂

/-- The branch has had the commits `seen`, the latest first. It goes on to
commits it has not had, and is not created again. -/
def Onward : List String → Option String → List (Option String) → Prop
  | _, _, [] => True
  | seen, _, none :: rest => Onward seen none rest
  | seen, tip, some c :: rest => c ∉ seen ∧ (tip = none → seen = []) ∧ Onward (c :: seen) (some c) rest

instance decidableOnward : ∀ (seen : List String) (tip : Option String) (tips : List (Option String)),
    Decidable (Onward seen tip tips)
  | _, _, [] => isTrue trivial
  | seen, _, none :: rest => decidableOnward seen none rest
  | seen, tip, some c :: rest =>
    have : Decidable (Onward (c :: seen) (some c) rest) := decidableOnward (c :: seen) (some c) rest
    inferInstanceAs (Decidable (c ∉ seen ∧ (tip = none → seen = []) ∧ Onward (c :: seen) (some c) rest))

namespace Quiet

variable {jobsetId : Uuid} {db db₁ db₂ : Db}

theorem refl (jobsetId : Uuid) (db : Db) : Quiet jobsetId db db := ⟨rfl, fun _ => rfl, fun _ => Iff.rfl⟩

theorem trans (h : Quiet jobsetId db db₁) (h' : Quiet jobsetId db₁ db₂) : Quiet jobsetId db db₂ where
  jobset := h'.jobset.trans h.jobset
  head scope := (h'.head scope).trans (h.head scope)
  taken commit := (h'.taken commit).trans (h.taken commit)

/-- What is asked for in another jobset. -/
theorem attempt (now : Time) {r : Request} (hr : r.input.jobsetId ≠ jobsetId) (db : Db) :
    Quiet jobsetId db (Webhooks.attempt now r db) := by
  unfold Webhooks.attempt
  split
  next e db' hrun =>
    have hc := Request.created hrun
    refine ⟨by rw [hc.jobsets], fun scope => ?_, fun commit => ?_⟩
    · rw [hc.head, if_neg fun h => hr h.1.symm]
    · rw [sourceTaken_created hc]
      simp [hr]
  next => exact refl jobsetId db

theorem foldl_attempt (now : Time) : ∀ (rs : List Request), (∀ r ∈ rs, r.input.jobsetId ≠ jobsetId) → ∀ db,
    Quiet jobsetId db (rs.foldl (fun db r => Webhooks.attempt now r db) db)
  | [], _, db => refl jobsetId db
  | r :: rs, h, db => (attempt now (h r List.mem_cons_self) db).trans
      (foldl_attempt now rs (fun r hr => h r (List.mem_cons_of_mem _ hr)) _)

end Quiet

/-- A delivery asks once for an evaluation in a jobset that follows the branch. -/
theorem deliver_branchPush {projectId : Uuid} {branch after : String} {jobset : JobsetRow} {db : Db}
    (now : Time) (before : String) (hj : db.jobsets.get jobset.id = some jobset) (hp : jobset.projectId = projectId)
    (hm : (jobsetAcceptsSourceTrigger jobset && jobsetMatchesBranch jobset branch) = true)
    (hd : isDeletedCommit after = false) : ∃ db₁, Quiet jobset.id db db₁ ∧
      Quiet jobset.id (attempt now (eventRequest jobset.id branch before after) db₁)
        (deliver now projectId (branchPush branch before after) db) := by
  have hmem : jobset ∈ listAllForProject projectId db :=
    List.mem_filter.mpr ⟨Table.mem_of_get hj, by simp [hp]⟩
  have hnodup : ((listAllForProject projectId db).map fun j => j.id).Nodup :=
    db.jobsets.nodup.sublist (List.filter_sublist.map _)
  obtain ⟨l₁, l₂, hl⟩ := List.append_of_mem hmem
  have hreq : pushRequest ⟨projectId, after, some before, .branch branch⟩ jobset =
      some (eventRequest jobset.id branch before after) := if_pos hm
  have hother : ∀ l : List JobsetRow, (∀ j ∈ l, j.id ≠ jobset.id) →
      ∀ r ∈ l.filterMap (pushRequest ⟨projectId, after, some before, .branch branch⟩),
        r.input.jobsetId ≠ jobset.id := by
    intro l hne r hr
    obtain ⟨j, hjl, hr⟩ := List.mem_filterMap.mp hr
    rw [pushRequest_branch hr]
    exact hne j hjl
  rw [hl, List.map_append, List.map_cons, List.nodup_append, List.nodup_cons] at hnodup
  obtain ⟨-, ⟨hn₂, -⟩, hn₁⟩ := hnodup
  have h₁ : ∀ j ∈ l₁, j.id ≠ jobset.id := fun j hj => hn₁ j.id (List.mem_map_of_mem hj) _ List.mem_cons_self
  have h₂ : ∀ j ∈ l₂, j.id ≠ jobset.id := fun j hj he => hn₂ (he ▸ List.mem_map_of_mem hj)
  refine ⟨_, Quiet.foldl_attempt now _ (hother l₁ h₁) db, ?_⟩
  rw [deliver, handlePush_branchPush, hd, if_neg Bool.false_ne_true, Option.elim_some, pushRequests, hl,
    List.filterMap_append, List.filterMap_cons, hreq, List.foldl_append, List.foldl_cons]
  exact Quiet.foldl_attempt now _ (hother l₂ h₂) _

/-- The stored head follows the branch, which has had the commits `seen`. -/
structure Follows (jobset : JobsetRow) (branch : String) (seen : List String) (tip : Option String) (db : Db) :
    Prop where
  row : db.jobsets.get jobset.id = some jobset
  head : db.head jobset.id (branchScope branch) = seen.head?
  taken : ∀ commit, db.sourceTaken jobset.id commit = true → commit ∈ seen
  current : ∀ commit, tip = some commit → seen = [] ∨ seen.head? = some commit

namespace Follows

variable {jobset : JobsetRow} {branch : String} {seen : List String} {tip : Option String} {db db' : Db}

theorem quiet (hF : Follows jobset branch seen tip db) (hq : Quiet jobset.id db db') :
    Follows jobset branch seen tip db' where
  row := hq.jobset.trans hF.row
  head := (hq.head _).trans hF.head
  taken commit h := hF.taken commit ((hq.taken commit).mp h)
  current := hF.current

/-- A push onwards is accepted. -/
theorem attempt (now : Time) {commit : String} (hF : Follows jobset branch seen tip db) (hnew : commit ∉ seen)
    (hagain : tip = none → seen = []) : Follows jobset branch (commit :: seen) (some commit)
      (Webhooks.attempt now (eventRequest jobset.id branch (tip.getD zeroCommit) commit) db) := by
  have haccepts :
      (SourceOrder.after (tip.getD zeroCommit)).accepts (db.head jobset.id (branchScope branch)) = true := by
    rw [hF.head]
    cases tip with
    | none => rw [hagain rfl]; rfl
    | some x =>
      rcases hF.current x rfl with rfl | hx
      · rfl
      · simp [hx, SourceOrder.accepts]
  have htaken : db.sourceTaken jobset.id commit = false := by
    by_contra h
    exact hnew (hF.taken commit (by simpa using h))
  obtain ⟨e, db', hrun⟩ := Request.run_source now
    (eventRequest jobset.id branch (tip.getD zeroCommit) commit) rfl hF.row (fun _ => haccepts) htaken
  have hc := Request.created hrun
  rw [Webhooks.attempt, hrun]
  refine ⟨hc.jobsets ▸ hF.row, ?_, fun c h => ?_, fun c h => .inr ?_⟩
  · rw [hc.head, if_pos ⟨rfl, rfl⟩]
    rfl
  · rcases (sourceTaken_created hc _ c).mp h with h | ⟨-, -, rfl⟩
    · exact List.mem_cons_of_mem _ (hF.taken c h)
    · exact List.mem_cons_self
  · rw [← h, List.head?_cons]

end Follows

/-- **In-order pushes are never rejected.** Take a jobset that accepts source
triggers and follows the branch, without an evaluation or a stored head. The
moves of the branch are delivered in the forge's order; the branch never comes
back to a commit it has had, and is not created again after a first push. Then
after each move that is not a deletion the stored head is the new tip. -/
theorem pushes_in_order {projectId : Uuid} (jobset : JobsetRow) (branch : String) {commit : String}
    {tip : Option String} {tips : List (Option String)} {db db' : Db} (hj : db.jobsets.get jobset.id = some jobset)
    (hp : jobset.projectId = projectId)
    (hm : (jobsetAcceptsSourceTrigger jobset && jobsetMatchesBranch jobset branch) = true)
    (hnone : ∀ e ∈ db.evaluations.rows, e.jobsetId ≠ jobset.id)
    (hhead : db.head jobset.id (branchScope branch) = none)
    (hcommits : ∀ next ∈ tips, ∀ c ∈ next, isDeletedCommit c = false) (honward : Onward [] tip tips)
    (h : Handled projectId jobset.id branch tip tips db db') (hlast : tips.getLast? = some (some commit)) :
    db'.head jobset.id (branchScope branch) = some commit := by
  have hF : Follows jobset branch [] tip db := by
    refine ⟨hj, hhead, fun c ht => ?_, fun c _ => .inl rfl⟩
    obtain ⟨k, e, he, -, hje, -⟩ := sourceTaken_iff.mp ht
    exact absurd hje (hnone e (Table.mem_of_get he))
  clear hj hnone hhead
  generalize [] = seen at hF honward
  induction h generalizing seen with
  | nil => cases hlast
  | @move tip next rest db db₁ db₂ now hq h ih =>
    have hrest : ∀ next ∈ rest, ∀ c ∈ next, isDeletedCommit c = false := fun next hn =>
      hcommits next (List.mem_cons_of_mem _ hn)
    have hlater : rest ≠ [] → rest.getLast? = some (some commit) := fun hne => by
      rw [List.getLast?_cons] at hlast
      rw [List.getLast?_eq_some_getLast hne] at hlast ⊢
      exact hlast
    cases next with
    | none =>
      -- a deletion is answered at once
      have hdel : deliver now projectId (branchMove branch tip none) db = db := by
        rw [branchMove, deliver, handlePush_branchPush]
        rfl
      rw [hdel] at hq
      have hne : rest ≠ [] := fun he => by simp [he] at hlast
      exact ih hrest (hlater hne) seen { hF.quiet hq with current := fun c hc => by cases hc } honward
    | some c =>
      obtain ⟨hnew, hagain, honward⟩ := honward
      obtain ⟨db₀, hq₀, hq₁⟩ := deliver_branchPush now (tip.getD zeroCommit) hF.row hp hm
        (hcommits (some c) List.mem_cons_self c rfl)
      have hF₁ := (((hF.quiet hq₀).attempt now hnew hagain).quiet hq₁).quiet hq
      cases rest with
      | nil =>
        cases h
        obtain rfl : c = commit := by simpa using hlast
        exact hF₁.head
      | cons => exact ih hrest (hlater (by simp)) (c :: seen) hF₁ honward

def movesOfMain : Option String → List (Option String) → Db → Db
  | _, [], db => db
  | tip, next :: rest, db => movesOfMain next rest (deliver 0 0 (branchMove "main" tip next) db)

theorem handled_movesOfMain : ∀ (tip : Option String) (tips : List (Option String)) (db : Db),
    Handled 0 0 "main" tip tips db (movesOfMain tip tips db)
  | tip, [], db => .nil tip db
  | _, next :: rest, _ => .move 0 (.refl 0 _) (handled_movesOfMain next rest _)

theorem pushes_in_order_twoPushes :
    (movesOfMain none [some "a", some "b"] (withJobset mainJobset).db).head 0 "branch:main" = some "b" :=
  pushes_in_order mainJobset "main" rfl rfl (by decide) (fun _ he => by cases he) rfl
    (by decide) (by decide) (handled_movesOfMain _ _ _) rfl

/-- The branch is pushed back, or deleted and created again: the stored head
stays behind. -/
theorem pushed_back_or_created_again :
    (∃ db, Handled 0 0 "main" none [some "a", some "b", some "a"] (withJobset mainJobset).db db ∧
      db.head 0 "branch:main" = some "b") ∧
    ∃ db, Handled 0 0 "main" none [some "a", none, some "b"] (withJobset mainJobset).db db ∧
      db.head 0 "branch:main" = some "a" :=
  ⟨⟨_, handled_movesOfMain _ _ _, by decide⟩, ⟨_, handled_movesOfMain _ _ _, by decide⟩⟩

/-! ### The handler as a task -/

section System

variable {cfg : Config} {projectId jobsetId : Uuid} {s s' : State} {a : Action}

/-- The action is not about the jobset. -/
def Ignores (cfg : Config) (jobsetId : Uuid) (s : State) (a : Action) : Prop :=
  (∀ r ∈ requestOf cfg s a, r.input.jobsetId ≠ jobsetId) ∧ ∀ jobset, a = .configure jobset → jobset.id ≠ jobsetId

theorem Quiet.effect {db : Db} {jobset : JobsetRow} (h : Effect cfg s a db) (ha : Ignores cfg jobsetId s a)
    (hj : s.db.jobsets.get jobsetId = some jobset) (hen : jobset.enabled = true) : Quiet jobsetId s.db db where
  jobset := by
    cases h with
    | none | statement => rfl
    | create r e db hr hc => rw [hc.jobsets]
    | restart id db hr hre =>
      rcases hre.jobsets jobsetId with h | ⟨row, hrow, h⟩
      · exact h
      · -- an enabled jobset is left as it is
        obtain rfl := Option.some.inj (hj.symm.trans hrow)
        rw [h, hj, ← hen]
    | record => rw [Db.jobsets_record]
    | configure j hcfg =>
      rw [Db.configure, Table.get_upsert, if_neg fun h => ha.2 j hcfg h.symm]
    | report => rfl
  head scope := by
    rcases head_of_effect h jobsetId scope with hh | ⟨commit, r, e, hr, -, hid, -⟩
    · exact hh
    · exact absurd hid (ha.1 r hr)
  taken commit := by
    refine ⟨fun ht => ?_, sourceTaken_effect h⟩
    obtain ⟨k, e', he', hi, hje, hc⟩ := sourceTaken_iff.mp ht
    rcases identity_before h he' with ⟨e, he, hid⟩ | ⟨r, base, hr, -, rfl⟩
    · refine sourceTaken_iff.mpr ⟨k, e, he, ?_, (EvaluationRow.jobsetId_of_identity hid).symm.trans hje,
        (EvaluationRow.commitHash_of_identity hid).symm.trans hc⟩
      rwa [Ne, ← EvaluationRow.interval_of_identity hid]
    · exact absurd hje (ha.1 r hr)

theorem Quiet.exec {as : List Action} {jobset : JobsetRow} (ha : Along cfg (Ignores cfg jobsetId) s as)
    (hj : s.db.jobsets.get jobsetId = some jobset) (hen : jobset.enabled = true) (h : exec cfg s as = some s') :
    Quiet jobsetId s.db s'.db := by
  have hstep : ∀ s₁ a s₂, Quiet jobsetId s.db s₁.db → Ignores cfg jobsetId s₁ a → step cfg s₁ a = some s₂ →
      Quiet jobsetId s.db s₂.db := fun s₁ a s₂ hq ha hs =>
    hq.trans (Quiet.effect (step_effect hs) ha (hq.jobset.trans hj) hen)
  exact Lts.exec_inv hstep (.refl jobsetId s.db) ha h

/-- The loop of a handler, run to its end. -/
theorem db_of_triggering (t : ℕ) : ∀ {rs : List Request} {s s' : State}, s.phase t = .triggering rs →
    exec cfg s (nexts t rs.length) = some s' → s'.db = rs.foldl (fun db r => attempt s.now r db) s.db
  | [], s, s', _, h => by
    obtain rfl : s = s' := by simpa [nexts] using h
    rfl
  | r :: rs, s, s', hp, h => by
    obtain ⟨s₁, h₁, h₂⟩ := (Lts.exec_cons _).mp h
    obtain ⟨m, hm, hperf⟩ := Option.bind_eq_some_iff.mp h₁
    rw [hp] at hm
    cases hm
    cases performed hperf with
    | refused he | created he =>
      rw [db_of_triggering t (by rw [State.phase_goto, if_pos rfl]) h₂, List.foldl_cons, attempt, he]
      rfl

/-- A delivery handled without interruption, and then anything that is not
about the jobset, is one move of `Handled`. -/
theorem Handled.of_exec {branch : String} {tip next : Option String} {rest : List (Option String)} {t k : ℕ}
    {as : List Action} {s₁ s₂ : State} {db : Db} {jobset : JobsetRow}
    (hd : s.sent[k]? = some (.push projectId (branchMove branch tip next)))
    (h₁ : exec cfg s (.deliver t k :: nexts t
      ((Delivery.push projectId (branchMove branch tip next)).requests s.db).length) = some s₁)
    (hj : s₁.db.jobsets.get jobsetId = some jobset) (hen : jobset.enabled = true)
    (ha : Along cfg (Ignores cfg jobsetId) s₁ as) (h₂ : exec cfg s₁ as = some s₂)
    (hrest : Handled projectId jobsetId branch next rest s₂.db db) :
    Handled projectId jobsetId branch tip (next :: rest) s.db db := by
  refine .move s.now ?_ hrest
  obtain ⟨s₀, h₀, hloop⟩ := (Lts.exec_cons _).mp h₁
  have hs₀ : s₀ = s.goto t (.triggering ((Delivery.push projectId (branchMove branch tip next)).requests s.db)) := by
    simp only [step, hd] at h₀
    split at h₀
    · next hd' =>
      cases hd'
      exact (Option.some.inj h₀).symm
    · cases h₀
  subst hs₀
  have hdb := db_of_triggering t (by rw [State.phase_goto, if_pos rfl]) hloop
  have hdeliver : s₁.db = deliver s.now projectId (branchMove branch tip next) s.db := by
    rw [hdb, deliver, Delivery.requests]
    cases handlePush projectId (branchMove branch tip next) <;> rfl
  rw [← hdeliver]
  exact Quiet.exec ha hj hen h₂

end System

end Circus.Evaluator
