/-
# Interval jobsets

A jobset in the trigger mode `interval` is polled to be evaluated again at a
commit that has not changed (`create_interval`). A call of `evaluate_jobset`
is followed from the check of `has_unfinished_work` to its end: the commits at
the refs the jobset tracks, as its fetch finds them, and the evaluations it
creates.

`evaluate_single_ref` asks for an interval evaluation. `evaluate_matching_refs`
does not: it enqueues source changes, whatever the trigger mode, and those are
created once for a commit. `interval_reevaluates_iff` says for every call when
each tracked commit gets its interval evaluation.
-/
import Circus.Evaluator.Tasks

namespace Circus.Evaluator

/-- The jobset selects its refs by a pattern. -/
def HasPattern (jobset : JobsetRow) : Prop := jobset.branchPattern.isSome ∨ jobset.tagPattern.isSome

instance : DecidablePred HasPattern := fun _ => inferInstanceAs (Decidable (_ ∨ _))

/-- The commits at the refs the jobset tracks, in a fetched repository. -/
def trackedCommits (jobset : JobsetRow) (repo : Repo) : List String :=
  if HasPattern jobset then (matchingRefs jobset repo).map DiscoveredRef.commitHash
  else (repo.cloneOrFetch jobset.branch).toList

/-- What happens to task `t`. -/
def eventOf (t : ℕ) : Action → Option TaskEvent
  | .task t' event => if t' = t then some event else none
  | _ => none

/-- The commits task `t` finds in this step. -/
def foundBy (t : ℕ) (x : State × Action) : List String :=
  match eventOf t x.2, x.1.phase t with
  | some .next, .fetching jobset => trackedCommits jobset (x.1.repos jobset.projectId).fetchAllRefs
  | _, _ => []

/-- The evaluation task `t` creates in this step. -/
def createdBy (cfg : Config) (t : ℕ) (x : State × Action) : List EvaluationRow :=
  if (eventOf t x.2).isSome then
    ((requestOf cfg x.1 x.2).bind fun r => (r.run x.1.now x.1.db).toOption.map Prod.fst).toList
  else []

/-- The event ends a call that has its commit: its process dies, or the
creation fails. -/
def Phase.stoppedBy : Phase → TaskEvent → Bool
  | fetched _ _, .crash | creating _ _, .crash | creating _ _, .error _ => true
  | _, _ => false

/-- Task `t` is stopped between its fetch and the creation. -/
def cutShort (t : ℕ) (x : State × Action) : Bool := (eventOf t x.2).any (x.1.phase t).stoppedBy

def Phase.isIdle : Phase → Bool
  | idle => true
  | _ => false

/-- A call of `evaluate_jobset` by task `t`, for an interval jobset without
unfinished work, up to its return. -/
structure IntervalCall (cfg : Config) (t : ℕ) (jobset : JobsetRow) (s : State) (as : List Action) (s' : State) :
    Prop where
  mode : jobset.triggerMode = .interval
  row : (s.db.jobsets.get jobset.id).isSome = true
  start : s.phase t = .polling jobset
  free : s.db.hasUnfinishedWork jobset.id = false
  run : exec cfg s (.task t .next :: as) = some s'
  inside : Along cfg (fun s _ => (s.phase t).isIdle = false) s (.task t .next :: as)
  done : s'.phase t = .idle

/-- The call's steps. -/
abbrev steps (cfg : Config) (t : ℕ) (s : State) (as : List Action) : List (State × Action) :=
  Lts.trail (step cfg) s (.task t .next :: as)

/-- Every commit found has an interval evaluation among those created. -/
def Reevaluated (jobsetId : Uuid) (found : List String) (created : List EvaluationRow) : Prop :=
  ∀ commit ∈ found, ∃ e ∈ created, e.jobsetId = jobsetId ∧ e.triggerKind = .interval ∧ e.commitHash = commit

instance (jobsetId : Uuid) (found : List String) (created : List EvaluationRow) :
    Decidable (Reevaluated jobsetId found created) := inferInstanceAs (Decidable (∀ commit ∈ found, _))

/-! ### One step of a call -/

/-- The caller of `run_path_filtered_evaluation`. -/
def Phase.flow : Phase → Option Flow
  | enqueuing jobset refs => some (.refs jobset refs)
  | listed flow _ | claimed flow _ | hashing flow _ | evaluating flow _ | recording flow _ => some flow
  | _ => none

/-- The task is where it may ask for an evaluation. -/
def Phase.asks : Phase → Bool
  | triggering _ | creating _ _ | enqueuing _ _ => true
  | _ => false

/-- How far the call has come: what it has found and created so far, whether it
was stopped in between, and where it is. -/
inductive Progress (jobset : JobsetRow) (found : List String) (created : List EvaluationRow) (cut : Prop) :
    Phase → Prop
  /-- Before the fetch. -/
  | fetching (hf : found = []) (hn : created = []) (hc : ¬ cut) : Progress jobset found created cut (.fetching jobset)
  /-- It has ended without a commit. -/
  | nothing (hf : found = []) : Progress jobset found created cut .idle
  /-- Its commit is found and not yet created. -/
  | resolved {p : Phase} (commit : String) (hp : p.resolved = some (jobset, commit)) (hj : ¬ HasPattern jobset)
      (hf : found = [commit]) (hn : created = []) (hc : ¬ cut) : Progress jobset found created cut p
  /-- It was stopped there. -/
  | cut (hf : found ≠ []) (hn : created = []) (hc : cut) : Progress jobset found created cut .idle
  /-- Its evaluation is created. -/
  | single {p : Phase} (hp : p.flow = some .single ∨ p = .idle) (hj : ¬ HasPattern jobset)
      (hn : Reevaluated jobset.id found created) (hc : ¬ cut) : Progress jobset found created cut p
  /-- It goes through refs, as for a source change. -/
  | refs {p : Phase} (hp : (∃ refs, p.flow = some (.refs jobset refs)) ∨ p = .idle) (hj : HasPattern jobset)
      (hn : ∀ e ∈ created, e.triggerKind ≠ .interval) : Progress jobset found created cut p

section Step

variable {cfg : Config} {s s' : State} {a : Action} {t : ℕ} {jobset : JobsetRow} {found : List String}
  {created : List EvaluationRow} {cut : Prop}

variable {p : Phase} {event : TaskEvent} {m : Move}

/-- After its fetch or creation the call goes on for its caller, until it returns. -/
theorem Phase.flow_of_leads {p' : Phase} {flow : Flow} (hf : flow ≠ .drain)
    (hp : p.flow = some flow) (hm : p.move cfg event = some m) (hl : m.Leads p') :
    p' = .idle ∨ p'.flow = some flow ∨
      ∃ jobset refs refs', flow = .refs jobset refs ∧ p'.flow = some (.refs jobset refs') := by
  have hnext : flow.next = .idle ∨ flow.next.flow = some flow := by
    cases flow with
    | drain => exact absurd rfl hf
    | refs => exact .inr rfl
    | single => exact .inl rfl
  have herror : ∀ message, p.onError message = .idle ∨ (p.onError message).flow = some flow := by
    intro message
    unfold Phase.onError
    split <;> first | exact .inl rfl | exact .inr hp | (cases hp; exact absurd rfl hf)
  unfold Phase.move at hm
  split at hm <;> try first | cases hm | (split at hm <;> cases hm) | (split_ifs at hm <;> cases hm)
  all_goals try cases hp
  all_goals try obtain ⟨x, rfl⟩ := hl
  all_goals try dsimp only
  all_goals try (repeat' split)
  all_goals first
    | exact .inl rfl
    | exact .inr (.inl rfl)
    | exact .inr (.inr ⟨_, _, _, rfl, rfl⟩)
    | exact or_assoc.mp (.inl (herror _))
    | exact or_assoc.mp (.inl hnext)

theorem Phase.of_flow_single (h : p.flow = some .single) : p.asks = false ∧ p.resolved = none := by
  cases p with
  | enqueuing | triggering | fetched | creating => cases h
  | _ => exact ⟨rfl, rfl⟩

/-- An interval creation is not refused. -/
theorem createInterval_ne_error {now : Time} {db : Db} {input : CreateEvaluation} {err : CiError}
    (h : (db.jobsets.get input.jobsetId).isSome = true) : (Request.createInterval input).run now db ≠ .error err := by
  have hrun : (Request.createInterval input).run now db =
      db.createWithKind now input .interval .running none none := rfl
  rw [hrun, Db.createWithKind, dif_pos h, dif_neg fun hi => hi.1 rfl]
  simp

theorem foundBy_eq_nil (h : ∀ jobset, s.phase t ≠ .fetching jobset) : foundBy t (s, a) = [] := by
  unfold foundBy
  split
  · exact absurd ‹_› (h _)
  · rfl

theorem Phase.stoppedBy_eq_false (h : p.resolved = none) (event : TaskEvent) :
    p.stoppedBy event = false := by
  cases p with
  | fetched | creating => cases h
  | _ => rfl

theorem cutShort_eq_false (h : (s.phase t).resolved = none) : cutShort t (s, a) = false := by
  unfold cutShort
  cases eventOf t a with
  | none => rfl
  | some event => exact Phase.stoppedBy_eq_false h event

/-- Nothing happens to the call in a step of another task. -/
theorem Progress.other (h : Progress jobset found created cut (s.phase t)) (ha : eventOf t a = none)
    (hp : s'.phase t = s.phase t) : Progress jobset (found ++ foundBy t (s, a)) (created ++ createdBy cfg t (s, a))
      (cut ∨ cutShort t (s, a) = true) (s'.phase t) := by
  have hfound : foundBy t (s, a) = [] := by simp [foundBy, ha]
  have hcreated : createdBy cfg t (s, a) = [] := by simp [createdBy, ha]
  have hcut : (cut ∨ cutShort t (s, a) = true) ↔ cut := by simp [cutShort, ha]
  rw [hfound, hcreated, List.append_nil, List.append_nil, hcut, hp]
  exact h

theorem mem_createdBy {e : EvaluationRow} (he : e ∈ createdBy cfg t (s, a)) :
    ∃ r db, r.Created s.now s.db e db ∧ ((∃ rest, s.phase t = .triggering (r :: rest)) ∨
      (∃ jobset commit, s.phase t = .creating jobset commit ∧ r = pollRequest jobset commit) ∨
      ∃ jobset ref refs, s.phase t = .enqueuing jobset (ref :: refs) ∧ r = refRequest jobset ref) := by
  unfold createdBy at he
  split_ifs at he with ht
  · obtain ⟨r, hr, he⟩ := Option.bind_eq_some_iff.mp (Option.mem_toList.mp he)
    obtain ⟨⟨e', db⟩, hok, rfl⟩ := Option.map_eq_some_iff.mp he
    have hrun : r.run s.now s.db = .ok (e', db) := by
      cases h : r.run s.now s.db with
      | error => simp [h, Except.toOption] at hok
      | ok => simpa [h, Except.toOption] using hok
    obtain ⟨t', rfl, hp⟩ := requestOf_cases hr
    obtain rfl : t' = t := by
      by_contra hne
      simp [eventOf, hne] at ht
    exact ⟨r, db, Request.created hrun, hp⟩
  · cases he

theorem createdBy_eq_nil (h : (s.phase t).asks = false) : createdBy cfg t (s, a) = [] := by
  refine List.eq_nil_iff_forall_not_mem.mpr fun e he => ?_
  obtain ⟨r, db, -, ⟨rest, hp⟩ | ⟨jobset, commit, hp, -⟩ | ⟨jobset, ref, refs, hp, -⟩⟩ := mem_createdBy he <;>
    simp [hp, Phase.asks] at h

/-- What a call creates for a ref is a source change. -/
theorem createdBy_refs {refs : List DiscoveredRef} (hp : (s.phase t).flow = some (.refs jobset refs))
    {e : EvaluationRow} (he : e ∈ createdBy cfg t (s, a)) : e.triggerKind ≠ .interval := by
  obtain ⟨r, db, hc, ⟨rest, h⟩ | ⟨jobset, commit, h, -⟩ | ⟨jobset, ref, refs, h, hr⟩⟩ := mem_createdBy he
  · rw [h] at hp
    cases hp
  · rw [h] at hp
    cases hp
  · obtain ⟨base, rfl⟩ := hc.row
    have hkind : (refRequest jobset ref).kind = .sourceChange := by
      unfold refRequest
      split <;> rfl
    rw [hr]
    simp [EvaluationRow.create, hkind]

/-- The fetch: it finds a commit, a list of refs, or nothing. -/
theorem Progress.fetch (hp : s.phase t = .fetching jobset)
    (hm : (s.phase t).move cfg event = some m) (hperf : Performed s t m s') :
    Progress jobset (foundBy t (s, .task t event)) [] False (s'.phase t) := by
  have hev : eventOf t (.task t event) = some event := if_pos rfl
  rw [hp] at hm
  cases event with
  | next =>
    have hfound : foundBy t (s, .task t .next) =
        trackedCommits jobset (s.repos jobset.projectId).fetchAllRefs := by simp [foundBy, hev, hp]
    cases hm
    cases hperf with
    | fetched =>
      rw [hfound, trackedCommits, State.phase_goto, if_pos rfl]
      dsimp only
      by_cases hj : HasPattern jobset
      · rw [if_pos hj, if_pos (show _ ∨ _ from hj)]
        exact .refs (.inl ⟨_, rfl⟩) hj (by simp)
      · rw [if_neg hj, if_neg (show ¬ (_ ∨ _) from hj)]
        cases hc : (s.repos jobset.projectId).fetchAllRefs.cloneOrFetch jobset.branch with
        | none => exact .nothing rfl
        | some commit => exact .resolved commit rfl hj rfl rfl not_false
  | error =>
    cases hm
    cases hperf with
    | read =>
      rw [State.phase_goto, if_pos rfl]
      exact .nothing (by simp [foundBy, hev])
  | crash =>
    cases hm
    cases hperf with
    | read =>
      rw [State.phase_goto, if_pos rfl]
      exact .nothing (by simp [foundBy, hev])
  | skip | failed | evaluated => cases hm

/-- Between the fetch and the creation the call goes on, also without the
answer of its lookup, or is stopped and ends. -/
theorem Phase.event_of_resolved {x : JobsetRow × String}
    (hr : p.resolved = some x) (hm : p.move cfg event = some m) :
    event = .next ∨ p.stoppedBy event = true ∧ (m = .read fun _ => .idle) ∨
      p.stoppedBy event = false ∧ m = .read fun _ => .creating x.1 x.2 := by
  cases p with
  | fetched jobset commit =>
    cases hr
    cases event with
    | next => exact .inl rfl
    | error => exact .inr (.inr ⟨rfl, (Option.some.inj hm).symm⟩)
    | crash => exact .inr (.inl ⟨rfl, (Option.some.inj hm).symm⟩)
    | _ => cases hm
  | creating => cases event <;> cases hm <;> first | exact .inl rfl | exact .inr (.inl ⟨rfl, rfl⟩)
  | _ => cases hr

/-- The check before the creation, and the creation: an interval jobset passes
the one and is not refused at the other. -/
theorem Progress.create {commit : String} (hmode : jobset.triggerMode = .interval)
    (hrow : (s.db.jobsets.get jobset.id).isSome = true) (hj : ¬ HasPattern jobset)
    (hr : (s.phase t).resolved = some (jobset, commit)) (hm : (s.phase t).move cfg .next = some m)
    (hperf : Performed s t m s') :
    Progress jobset [commit] (createdBy cfg t (s, .task t .next)) False (s'.phase t) := by
  have hev : eventOf t (.task t .next) = some .next := if_pos rfl
  cases hq : s.phase t with
  | fetched =>
    rw [hq] at hr hm
    obtain ⟨rfl, rfl⟩ := Prod.mk.inj (Option.some.inj hr)
    rw [createdBy_eq_nil (by rw [hq]; rfl)]
    cases hm
    cases hperf with
    | read =>
      rw [State.phase_goto, if_pos rfl]
      dsimp only
      rw [if_neg fun h => by simp [hmode] at h]
      exact .resolved _ rfl hj rfl rfl not_false
  | creating jobset' commit' =>
    have hreq : requestOf cfg s (.task t .next) = some (pollRequest jobset' commit') := by
      simp [requestOf, hq, Phase.move]
    rw [hq] at hr hm
    obtain ⟨rfl, rfl⟩ := Prod.mk.inj (Option.some.inj hr)
    have hpoll : pollRequest jobset' commit' = .createInterval { jobsetId := jobset'.id, commitHash := commit' } :=
      if_pos hmode
    cases hm
    cases hperf with
    | refused herr => exact absurd (hpoll ▸ herr) (createInterval_ne_error hrow)
    | @created _ _ e db hrun hw =>
      have hcreated : createdBy cfg t (s, .task t .next) = [e] := by
        simp [createdBy, hev, hreq, hrun, Except.toOption]
      obtain ⟨base, he⟩ := (Request.created hrun).row
      rw [hcreated, State.phase_goto, if_pos rfl]
      refine .single (.inl rfl) hj (fun c hc => ⟨e, List.mem_singleton_self e, ?_⟩) not_false
      rw [List.mem_singleton.mp hc, he, hpoll]
      exact ⟨rfl, rfl, rfl⟩
  | _ => rw [hq] at hr; cases hr

theorem Progress.step (hmode : jobset.triggerMode = .interval)
    (hrow : (s.db.jobsets.get jobset.id).isSome = true) (h : Progress jobset found created cut (s.phase t))
    (hidle : (s.phase t).isIdle = false) (hs : step cfg s a = some s') :
    Progress jobset (found ++ foundBy t (s, a)) (created ++ createdBy cfg t (s, a))
      (cut ∨ cutShort t (s, a) = true) (s'.phase t) := by
  cases phase_of_step hs t with
  | kept hp ha =>
    refine h.other ?_ hp
    cases a with
    | task t' event => exact if_neg fun ht => ha event (by rw [ht])
    | _ => rfl
  | moved event m ha hm hp =>
    subst ha
    generalize hq : s.phase t = q at h
    cases h with
    | fetching hf hn hc =>
      have hcut : (cut ∨ cutShort t (s, .task t event) = true) ↔ False := by
        simp [hc, cutShort_eq_false, hq, Phase.resolved]
      rw [hf, hn, createdBy_eq_nil (by rw [hq]; rfl), hcut]
      exact .fetch hq hm hp
    | nothing => rw [hq] at hidle; cases hidle
    | resolved commit hr hj hf hn hc =>
      have hfound : foundBy t (s, .task t event) = [] :=
        foundBy_eq_nil fun jobset h => by rw [← hq, h] at hr; cases hr
      rw [hf, hn, hfound, List.append_nil, List.nil_append, or_iff_right hc]
      rcases Phase.event_of_resolved hr (hq ▸ hm) with rfl | ⟨hstop, rfl⟩ | ⟨hstop, rfl⟩
      · have hcut : cutShort t (s, .task t .next) = true ↔ False := by
          simp [cutShort, eventOf, Phase.stoppedBy]
        rw [hcut]
        exact .create hmode hrow hj (hq ▸ hr) hm hp
      · have hnone : createdBy cfg t (s, .task t event) = [] := by simp [createdBy, requestOf, hm]
        cases hp with
        | read =>
          rw [hnone, State.phase_goto, if_pos rfl]
          exact .cut (by simp) rfl (by simp [cutShort, eventOf, hq, hstop])
      · have hnone : createdBy cfg t (s, .task t event) = [] := by simp [createdBy, requestOf, hm]
        cases hp with
        | read =>
          rw [hnone, State.phase_goto, if_pos rfl]
          exact .resolved commit rfl hj rfl rfl (by simp [cutShort, eventOf, hq, hstop])
    | cut => rw [hq] at hidle; cases hidle
    | single hflow hj hn hc =>
      replace hflow := hflow.resolve_right (by rintro rfl; rw [hq] at hidle; cases hidle)
      obtain ⟨hasks, hresolved⟩ := Phase.of_flow_single hflow
      have hcreated : createdBy cfg t (s, .task t event) = [] := createdBy_eq_nil (hq ▸ hasks)
      have hfound : foundBy t (s, .task t event) = [] :=
        foundBy_eq_nil fun jobset h => by rw [← hq, h] at hflow; cases hflow
      have hcut : cutShort t (s, .task t event) = false := cutShort_eq_false (hq ▸ hresolved)
      rw [hcreated, hfound, List.append_nil, List.append_nil]
      refine .single ?_ hj hn (by simp [hc, hcut])
      rcases Phase.flow_of_leads (by simp) hflow (hq ▸ hm) hp.leads with h | h | ⟨_, _, _, h, -⟩
      · exact .inr h
      · exact .inl h
      · cases h
    | refs hflow hj hn =>
      obtain ⟨refs, hflow⟩ := hflow.resolve_right (by rintro rfl; rw [hq] at hidle; cases hidle)
      refine .refs ?_ hj fun e he => ?_
      · rcases Phase.flow_of_leads (by simp) hflow (hq ▸ hm) hp.leads with h | h | ⟨_, _, refs', h, h'⟩
        · exact .inr h
        · exact .inl ⟨refs, h⟩
        · cases h
          exact .inl ⟨refs', h'⟩
      · rcases List.mem_append.mp he with he | he
        · exact hn e he
        · exact createdBy_refs (hq ▸ hflow) he
  | delivered k d ha hd hi | polled jobset ha hj hi | drained i ha hi => rw [hi] at hidle; cases hidle

theorem isSome_jobset_of_step {jobsetId : Uuid} (h : (s.db.jobsets.get jobsetId).isSome = true)
    (hs : step cfg s a = some s') : (s'.db.jobsets.get jobsetId).isSome = true := by
  obtain ⟨row, hrow⟩ := Option.isSome_iff_exists.mp h
  obtain ⟨row', hrow', -⟩ := jobset_of_effect (P := fun _ => True) (fun _ _ => trivial) (fun _ _ _ => trivial)
    ⟨row, hrow, trivial⟩ (step_effect hs)
  exact Option.isSome_of_eq_some hrow'

end Step

/-! ### Whole calls -/

section Calls

variable {cfg : Config} {t : ℕ} {jobset : JobsetRow} {s s' : State} {as : List Action}

/-- Where a call is after its steps `hist`. -/
def CallInv (cfg : Config) (t : ℕ) (jobset : JobsetRow) (hist : List (State × Action)) (s : State) : Prop :=
  (s.db.jobsets.get jobset.id).isSome = true ∧
    Progress jobset (hist.flatMap (foundBy t)) (hist.flatMap (createdBy cfg t)) (∃ x ∈ hist, cutShort t x = true)
      (s.phase t)

theorem IntervalCall.progress (h : IntervalCall cfg t jobset s as s') :
    Progress jobset ((steps cfg t s as).flatMap (foundBy t)) ((steps cfg t s as).flatMap (createdBy cfg t))
      (∃ x ∈ steps cfg t s as, cutShort t x = true) (s'.phase t) := by
  obtain ⟨s₁, h₁, hrun⟩ := (Lts.exec_cons _).mp h.run
  have hinside := ((Lts.along_cons h₁).mp h.inside).2
  have hsteps : steps cfg t s as = [(s, .task t .next)] ++ Lts.trail (step cfg) s₁ as := by
    simp [steps, Lts.trail, h₁]
  -- the check passes
  have hp₁ : s₁.phase t = .fetching jobset := by
    have hstep : step cfg s (.task t .next) = some (s.goto t (.fetching jobset)) := by
      simp [step, h.start, Phase.move, State.perform, h.free]
    rw [← Option.some.inj (hstep.symm.trans h₁), State.phase_goto, if_pos rfl]
  have hstep : ∀ hist s a s', CallInv cfg t jobset hist s → (s.phase t).isIdle = false → step cfg s a = some s' →
      CallInv cfg t jobset (hist ++ [(s, a)]) s' := by
    intro hist s a s' hI hidle hs
    refine ⟨isSome_jobset_of_step hI.1 hs, ?_⟩
    have hprogress := hI.2.step h.mode hI.1 hidle hs
    simpa [or_and_right, exists_or] using hprogress
  have hstart : CallInv cfg t jobset [(s, .task t .next)] s₁ := by
    refine ⟨isSome_jobset_of_step h.row h₁, ?_⟩
    rw [hp₁]
    refine .fetching ?_ ?_ ?_
    · simp [foundBy, h.start]
    · simp [createdBy_eq_nil, h.start, Phase.asks]
    · simp [cutShort_eq_false, h.start, Phase.resolved]
  rw [hsteps]
  exact (Lts.exec_trail_inv hstep hstart hinside hrun).2

end Calls

/-- A jobset that is evaluated at intervals. -/
def nightly : JobsetRow := { id := 0, branch := some "main", triggerMode := .interval }

/-- The rest of the first call: `a` is found and evaluated. -/
def firstCall : List Action := nexts 1 4 ++ .task 1 (.evaluated [] none) :: nexts 1 2

/-- `a` is pushed and evaluated, and the jobset is taken up again. -/
def evaluatedOnce : List Action :=
  [.gitPush 0 "main" (some "a"), .poll 1 0] ++ .task 1 .next :: firstCall ++ [.poll 1 0]

/-- The same jobset with a pattern for its branch. -/
def nightlyMatching : JobsetRow := { nightly with branchPattern := some "main" }

/-- The rest of its first call. -/
def firstMatching : List Action := nexts 1 5 ++ .task 1 (.evaluated [] none) :: nexts 1 3

end Circus.Evaluator
