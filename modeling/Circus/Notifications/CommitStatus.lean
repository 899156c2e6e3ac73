/-
# Commit statuses in order

`process_notification_task` of `crates/notification/src/lib.rs` and the
statements of `queries/builds.sql` that change the status of a build. The status
changes of one build are its history; a change may enqueue an event, which
carries the status of that moment, and the retry queue processes the events in
any order. An event is dropped when the current status of the build shows that
it is stale, which is decided by the two statuses alone.

A build waits, runs and is over, and a restart or a retry takes it back. No later
status is overwritten by an earlier one exactly if, from the next event on, the
build is never again in the phase of an event, nor waiting after it has run
(`never_overwritten_iff`). So there is at most one event of each phase: a build
that is restarted and finishes again has two outcomes, and either can be the last
that the forge hears of.
-/
import Circus.Notifications

namespace Circus.Notifications.CommitStatus

/-! ### Freshness -/

def isCommitStatus : NotificationType → Bool
  | .githubStatus | .giteaStatus | .forgejoStatus | .gitlabStatus => true
  | .webhook | .slack | .email => false

/-- `BuildEvent`, as far as `process_notification_task` reads it. -/
structure BuildEvent where
  buildId : Uuid
  jobName : String
  status : BuildStatus
  deriving DecidableEq, Repr

def isDependency (jobName : String) : Bool := "drv:".toList.isPrefixOf jobName.toList

def statusRank : BuildStatus → ℕ
  | .pending => 0
  | .running => 1
  | _ => 2

/-- `stale_commit_status_event`, for the status the build has now. -/
def staleCommitStatusEvent (build event : BuildStatus) : Bool :=
  if build = event then false
  else if statusRank build > statusRank event then true
  else event.isFinished && !build.isFinished

/-- What `process_notification_task` does. -/
inductive Decision
  | done
  | deliver (event : BuildEvent)
  | error (message : String)
  deriving DecidableEq, Repr

/-- `process_notification_task`, for a payload that has been read. -/
def processNotificationTask (getBuild : Uuid → Except String BuildStatus) (channel : NotificationType)
    (event : BuildEvent) : Decision :=
  if isDependency event.jobName then .done
  else if isCommitStatus channel then
    match getBuild event.buildId with
    | .error e => .error ("Failed to load build for notification freshness: " ++ e)
    | .ok status => if staleCommitStatusEvent status event.status then .done else .deliver event
  else .deliver event

/-! ### The history of a build -/

/-- The statements that change the status of a build. -/
inductive Statement
  | start
  | complete (status : BuildStatus)
  | retry
  | requeue
  | resetOrphaned
  | cancel
  | restart
  deriving DecidableEq, Repr

def Statement.set : Statement → BuildStatus → Option BuildStatus
  | start, status => if status = .pending then some .running else none
  | complete status', _ => some status'
  | retry, _ => some .pending
  | requeue, status | resetOrphaned, status => if status = .running then some .pending else none
  | cancel, status => if status = .pending ∨ status = .running then some .cancelled else none
  | restart, status =>
    if status ∈ [BuildStatus.failed, .succeeded, .cancelled, .cachedFailure] then some .pending else none

/-- A status, and whether an event of it is enqueued. -/
structure Change where
  status : BuildStatus
  notified : Bool
  deriving DecidableEq, Repr

/-- The status after the changes so far; the first is the creation of the build. -/
def currentStatus (history : List Change) : BuildStatus := (history.getLast?.map Change.status).getD .pending

def advance (history : List Change) (c : Statement × Bool) : Option (List Change) :=
  (c.1.set (currentStatus history)).map fun status => history ++ [⟨status, c.2⟩]

/-- An event in the queue, with the number of its change. -/
structure Task where
  version : ℕ
  status : BuildStatus
  deriving DecidableEq, Repr

/-- A job of a jobset: its builds are notified about. -/
structure TopLevelJob where
  id : Uuid
  jobName : String
  topLevel : isDependency jobName = false

/-- A channel that sets commit statuses. -/
structure StatusChannel where
  type : NotificationType
  isCommitStatus : CommitStatus.isCommitStatus type = true

/-- One build and one channel. -/
structure State where
  history : List Change
  queue : List Task := []
  delivered : List Task := []
  deriving DecidableEq

inductive Action
  | change (q : Statement) (notified : Bool)
  /-- A runner processes a task: the status may arrive, and the delivery may be
  reported to have succeeded. -/
  | process (t : Task) (arrived ok : Bool)

def created (notified : Bool) : State where
  history := [⟨.pending, notified⟩]
  queue := if notified then [⟨0, .pending⟩] else []

section

variable (job : TopLevelJob) (channel : StatusChannel)

/-- What a runner does with the task in the state it finds. -/
def decision (s : State) (t : Task) : Decision :=
  processNotificationTask (fun _ => .ok (currentStatus s.history)) channel.type ⟨job.id, job.jobName, t.status⟩

def step (s : State) : Action → Option State
  | .change q notified => (advance s.history (q, notified)).map fun history =>
      { s with
        history := history
        queue := if notified then s.queue ++ [⟨s.history.length, currentStatus history⟩] else s.queue }
  | .process t arrived ok =>
    if t ∈ s.queue then
      match decision job channel s t with
      | .done => some { s with queue := s.queue.erase t }
      | .deliver _ => some { s with
          queue := if ok then s.queue.erase t else s.queue
          delivered := if arrived then s.delivered ++ [t] else s.delivered }
      | .error _ => some s
    else none

/-- The step delivers a status on a channel that has got a later one. -/
def Overwrites (s : State) : Action → Prop
  | .process t true _ => t ∈ s.queue ∧ (∃ e, decision job channel s t = .deliver e) ∧
      ∃ d ∈ s.delivered, t.version < d.version
  | _ => False

end

/-- How far a build is. -/
inductive Phase
  | waiting
  | running
  | over
  deriving DecidableEq

def phase : BuildStatus → Phase
  | .pending => .waiting
  | .running => .running
  | _ => .over

/-- A build with the status `z` has left the phase of `x`, other than from running back to waiting. -/
def Passed (x z : BuildStatus) : Prop := phase z ≠ phase x ∧ ¬ (phase x = .running ∧ phase z = .waiting)

instance (x z : BuildStatus) : Decidable (Passed x z) := inferInstanceAs (Decidable (_ ∧ ¬ _))

/-- From the next event on, the build has passed each event. -/
def Ordered (history : List Change) : Prop :=
  ∀ (i j k : ℕ) (x y z : Change), history[i]? = some x → history[j]? = some y → history[k]? = some z → i < j → j ≤ k →
    x.notified = true → y.notified = true → Passed x.status z.status

/-! ### Histories -/

/-- **What looks stale**: the event of a build that has passed it. Of two outcomes neither does at the other, and that
of a run does not while the build waits to run again. -/
theorem staleCommitStatusEvent_iff {z x : BuildStatus} : staleCommitStatusEvent z x = true ↔ Passed x z := by
  cases x <;> cases z <;> decide

theorem currentStatus_concat (history : List Change) (c : Change) : currentStatus (history ++ [c]) = c.status := by
  simp [currentStatus]

variable {history : List Change}

theorem getElem?_last (h : history ≠ []) :
    ∃ c, history[history.length - 1]? = some c ∧ c.status = currentStatus history := by
  obtain ⟨init, c, rfl⟩ := List.eq_nil_or_concat' history |>.resolve_left h
  exact ⟨c, by simp, (currentStatus_concat init c).symm⟩

variable {history' : List Change}

theorem advance_eq {c : Statement × Bool} (h : advance history c = some history') :
    ∃ status, history' = history ++ [⟨status, c.2⟩] := by
  obtain ⟨status, -, rfl⟩ := Option.map_eq_some_iff.mp h
  exact ⟨status, rfl⟩

/-- A history goes on. -/
theorem prefix_of_advance {cs : List (Statement × Bool)}
    (h : Lts.exec advance history cs = some history') : history <+: history' := by
  induction cs generalizing history with
  | nil => exact (Option.some.inj h) ▸ List.prefix_rfl
  | cons c cs ih =>
    obtain ⟨mid, hc, hcs⟩ := (Lts.exec_cons _).mp h
    obtain ⟨status, rfl⟩ := advance_eq hc
    exact (List.prefix_append _ _).trans (ih hcs)

theorem length_of_advance {cs : List (Statement × Bool)}
    (h : Lts.exec advance history cs = some history') : history'.length = history.length + cs.length := by
  induction cs generalizing history with
  | nil => rw [← Option.some.inj h]; rfl
  | cons c cs ih =>
    obtain ⟨mid, hc, hcs⟩ := (Lts.exec_cons _).mp h
    obtain ⟨status, rfl⟩ := advance_eq hc
    rw [ih hcs, List.length_append, List.length_singleton, List.length_cons]
    omega

theorem getElem?_of_isPrefix (h : history <+: history') {i : ℕ} {c : Change}
    (hi : history[i]? = some c) : history'[i]? = some c := by
  obtain ⟨rest, rfl⟩ := h
  have hlt : i < history.length := (List.getElem?_eq_some_iff.mp hi).1
  rw [List.getElem?_append_left hlt, hi]

theorem getElem?_in_isPrefix (h : history <+: history') {i : ℕ} {c : Change}
    (hlt : i < history.length) (hi : history'[i]? = some c) : history[i]? = some c := by
  obtain ⟨rest, rfl⟩ := h
  rwa [List.getElem?_append_left hlt] at hi

theorem currentStatus_of_isPrefix {part : List Change} {n : ℕ} {c : Change} (hpre : part <+: history)
    (hn : part.length = n + 1) (hc : history[n]? = some c) : currentStatus part = c.status := by
  have hne : part ≠ [] := by
    rintro rfl
    cases hn
  obtain ⟨c', hc', hst⟩ := getElem?_last hne
  rw [hn, Nat.add_sub_cancel, getElem?_in_isPrefix hpre (by omega) hc] at hc'
  rw [← hst, ← Option.some.inj hc']

/-! ### Events in order -/

def Action.change? : Action → Option (Statement × Bool)
  | .change q notified => some (q, notified)
  | .process _ _ _ => none

def changes (cs : List (Statement × Bool)) : List Action := cs.map fun c => .change c.1 c.2

theorem filterMap_changes (cs : List (Statement × Bool)) : (changes cs).filterMap Action.change? = cs := by
  rw [changes, List.filterMap_map]
  exact List.filterMap_some

/-- Every task is an event of the history. -/
structure TaskInv (s : State) : Prop where
  nonempty : s.history ≠ []
  queue : ∀ t ∈ s.queue, s.history[t.version]? = some ⟨t.status, true⟩
  delivered : ∀ t ∈ s.delivered, s.history[t.version]? = some ⟨t.status, true⟩

section

variable {job : TopLevelJob} {channel : StatusChannel} {s s' : State}

/-- A task of this build is delivered unless the build has passed it. -/
theorem decision_eq (s : State) (t : Task) : decision job channel s t =
    if Passed t.status (currentStatus s.history) then .done
    else .deliver ⟨job.id, job.jobName, t.status⟩ := by
  simp only [decision, processNotificationTask, job.topLevel, channel.isCommitStatus, Bool.false_eq_true, if_false,
    if_true, staleCommitStatusEvent_iff]

theorem taskInv_created (notified : Bool) : TaskInv (created notified) := by
  refine ⟨List.cons_ne_nil _ _, fun t ht => ?_, fun t ht => ?_⟩
  · cases notified with
    | false => cases ht
    | true => rw [List.mem_singleton.mp ht]; rfl
  · cases ht

variable {notified : Bool}

/-- A change goes on with the history. -/
theorem step_change {q : Statement} (h : step job channel s (.change q notified) = some s') :
    advance s.history (q, notified) = some s'.history ∧ s'.delivered = s.delivered ∧
      s'.queue = if notified then s.queue ++ [⟨s.history.length, currentStatus s'.history⟩] else s.queue := by
  obtain ⟨history, hh, rfl⟩ := Option.map_eq_some_iff.mp h
  exact ⟨hh, rfl, rfl⟩

/-- The tasks that a runner leaves, and the one it delivers, were in the queue. -/
theorem step_process {t : Task} {arrived ok : Bool} (h : step job channel s (.process t arrived ok) = some s') :
    t ∈ s.queue ∧ s'.history = s.history ∧ (∀ x ∈ s'.queue, x ∈ s.queue) ∧
      ∀ x ∈ s'.delivered, x ∈ s.delivered ∨ x = t := by
  simp only [step] at h
  by_cases hm : t ∈ s.queue
  · rw [if_pos hm, decision_eq] at h
    by_cases hst : Passed t.status (currentStatus s.history)
    · rw [if_pos hst] at h
      cases h
      exact ⟨hm, rfl, fun x hx => List.mem_of_mem_erase hx, fun x hx => .inl hx⟩
    · rw [if_neg hst] at h
      cases h
      refine ⟨hm, rfl, fun x hx => ?_, fun x hx => ?_⟩
      · cases ok with
        | true => exact List.mem_of_mem_erase hx
        | false => exact hx
      · cases arrived with
        | true => simpa using hx
        | false => exact .inl hx
  · rw [if_neg hm] at h
    cases h

theorem TaskInv.step {a : Action} (hI : TaskInv s) (h : CommitStatus.step job channel s a = some s') : TaskInv s' := by
  cases a with
  | change =>
    obtain ⟨hadv, hdel, hqueue⟩ := step_change h
    obtain ⟨status, hs⟩ := advance_eq hadv
    have hpre : s.history <+: s'.history := hs ▸ List.prefix_append _ _
    refine ⟨by rw [hs]; simp, fun t ht => ?_, fun t ht => getElem?_of_isPrefix hpre (hI.delivered t (hdel ▸ ht))⟩
    rw [hqueue] at ht
    split_ifs at ht with hn
    · rcases List.mem_append.mp ht with ht | ht
      · exact getElem?_of_isPrefix hpre (hI.queue t ht)
      · rw [List.mem_singleton.mp ht, hs, currentStatus_concat]
        simp [hn]
    · exact getElem?_of_isPrefix hpre (hI.queue t ht)
  | process =>
    obtain ⟨hm, hhist, hqueue, hdel⟩ := step_process h
    refine ⟨hhist ▸ hI.nonempty, fun x hx => hhist ▸ hI.queue x (hqueue x hx), fun x hx => ?_⟩
    rw [hhist]
    rcases hdel x hx with hx | rfl
    · exact hI.delivered x hx
    · exact hI.queue x hm

/-- While the history is a part of an ordered one, nothing is overwritten. -/
theorem TaskInv.not_overwrites {a : Action} (hI : TaskInv s) (hpre : s.history <+: history)
    (hord : Ordered history) : ¬ Overwrites job channel s a := by
  intro ho
  cases a with
  | change => exact ho
  | process t arrived =>
    cases arrived with
    | false => exact ho
    | true =>
      obtain ⟨ht, ⟨e, he⟩, d, hd, hlt⟩ := ho
      obtain ⟨c, hc, hst⟩ := getElem?_last hI.nonempty
      have hx := hI.queue t ht
      have hy := hI.delivered d hd
      have hle : d.version ≤ s.history.length - 1 := by
        have := (List.getElem?_eq_some_iff.mp hy).1
        omega
      have hpassed := hord _ _ _ _ _ _ (getElem?_of_isPrefix hpre hx) (getElem?_of_isPrefix hpre hy)
        (getElem?_of_isPrefix hpre hc) hlt hle rfl rfl
      rw [hst] at hpassed
      rw [decision_eq, if_pos hpassed] at he
      cases he

/-- Whatever order the tasks are processed in. -/
theorem TaskInv.along {as : List Action} (hI : TaskInv s)
    (h : Lts.exec advance s.history (as.filterMap Action.change?) = some history) (hord : Ordered history) :
    Lts.Along (CommitStatus.step job channel) (fun s a => ¬ Overwrites job channel s a) s as := by
  induction as generalizing s with
  | nil => exact trivial
  | cons a as ih =>
    refine ⟨hI.not_overwrites (prefix_of_advance h) hord, fun s' hs => ih (hI.step hs) ?_⟩
    cases a with
    | change =>
      obtain ⟨hadv, -, -⟩ := step_change hs
      obtain ⟨mid, hc, hcs⟩ := (Lts.exec_cons _).mp h
      rw [hadv, Option.some.injEq] at hc
      exact hc ▸ hcs
    | process =>
      obtain ⟨-, hhist, -, -⟩ := step_process hs
      rw [hhist]
      exact h

/-! ### Events out of order -/

variable (job channel) in
/-- The changes without any processing: every event of them is in the queue. -/
theorem exec_changes {cs : List (Statement × Bool)} (h : Lts.exec advance s.history cs = some history) :
    ∃ s', Lts.exec (step job channel) s (changes cs) = some s' ∧ s'.history = history ∧
      s'.delivered = s.delivered ∧ (∀ t ∈ s.queue, t ∈ s'.queue) ∧
      ∀ i x, s.history.length ≤ i → history[i]? = some x → x.notified = true → ⟨i, x.status⟩ ∈ s'.queue := by
  induction cs generalizing s with
  | nil =>
    cases h
    refine ⟨s, rfl, rfl, rfl, fun _ ht => ht, fun i x hi hx _ => ?_⟩
    have := (List.getElem?_eq_some_iff.mp hx).1
    omega
  | cons c cs ih =>
    obtain ⟨mid, hc, hcs⟩ := (Lts.exec_cons _).mp h
    -- the state after the first change
    obtain ⟨s₁, hs₁⟩ : ∃ s₁, step job channel s (.change c.1 c.2) = some s₁ := by
      simp only [step]
      rw [hc]
      exact ⟨_, rfl⟩
    obtain ⟨hadv, hdel, hqueue⟩ := step_change hs₁
    obtain rfl : s₁.history = mid := Option.some.inj (hadv.symm.trans hc)
    obtain ⟨s', hs', hhist, hdel', hkeep, hnew⟩ := ih hcs
    have hsub : ∀ t ∈ s.queue, t ∈ s₁.queue := by
      intro t ht
      rw [hqueue]
      split_ifs
      · exact List.mem_append_left _ ht
      · exact ht
    refine ⟨s', (Lts.exec_cons _).mpr ⟨s₁, hs₁, hs'⟩, hhist, hdel'.trans hdel, fun t ht => hkeep t (hsub t ht),
      fun i x hi hx hn => ?_⟩
    obtain ⟨status, hmid⟩ := advance_eq hadv
    rcases Nat.eq_or_lt_of_le hi with rfl | hlt
    · -- the event of this change
      have hlast : history[s.history.length]? = some ⟨status, c.2⟩ :=
        getElem?_of_isPrefix (prefix_of_advance hcs) (by rw [hmid]; simp)
      obtain rfl := Option.some.inj (hlast.symm.trans hx)
      apply hkeep
      have hcn : c.2 = true := hn
      rw [hqueue, if_pos hcn, hmid, currentStatus_concat]
      simp
    · refine hnew i x ?_ hx hn
      rw [hmid, List.length_append, List.length_singleton]
      exact hlt

variable (job channel) in
/-- A task that the build has not passed is delivered. -/
theorem step_deliver {t : Task} (ht : t ∈ s.queue) (hst : ¬ Passed t.status (currentStatus s.history)) :
    step job channel s (.process t true true) =
      some { s with queue := s.queue.erase t, delivered := s.delivered ++ [t] } := by
  simp only [step, if_pos ht]
  rw [decision_eq, if_neg hst]
  rfl

variable (job channel) in
/-- The event of the creation is in the queue as well. -/
theorem exec_created {cs : List (Statement × Bool)}
    (h : Lts.exec advance (created notified).history cs = some history) :
    ∃ s', Lts.exec (step job channel) (created notified) (changes cs) = some s' ∧ s'.history = history ∧
      ∀ i x, history[i]? = some x → x.notified = true → ⟨i, x.status⟩ ∈ s'.queue := by
  obtain ⟨s', hs', hhist, -, hkeep, hnew⟩ := exec_changes job channel h
  refine ⟨s', hs', hhist, fun i x hx hn => ?_⟩
  rcases Nat.eq_zero_or_pos i with rfl | hpos
  · apply hkeep
    have hfirst : history[0]? = some ⟨.pending, notified⟩ := getElem?_of_isPrefix (prefix_of_advance h) rfl
    obtain rfl := Option.some.inj (hfirst.symm.trans hx)
    have hn : notified = true := hn
    simp [created, hn]
  · exact hnew i x hpos hx hn

theorem ordered_of_never_overwritten {cs : List (Statement × Bool)}
    (h : Lts.exec advance (created notified).history cs = some history)
    (hnever : ∀ as, as.filterMap Action.change? = cs →
      Lts.Along (step job channel) (fun s a => ¬ Overwrites job channel s a) (created notified) as) :
    Ordered history := by
  intro i j k x y z hx hy hz hij hjk hxn hyn
  by_contra hpassed
  have hlen : history.length = 1 + cs.length := length_of_advance h
  have hk : k < history.length := (List.getElem?_eq_some_iff.mp hz).1
  -- the changes up to the later event, those up to the status that is mistaken, and the rest
  obtain ⟨cs₁, cs₂, cs₃, rfl, hl₁, hl₂⟩ : ∃ cs₁ cs₂ cs₃, cs = cs₁ ++ (cs₂ ++ cs₃) ∧ cs₁.length = j ∧
      cs₂.length = k - j := by
    refine ⟨cs.take j, (cs.drop j).take (k - j), (cs.drop j).drop (k - j), by simp, ?_, ?_⟩
    · rw [List.length_take]
      omega
    · rw [List.length_take, List.length_drop]
      omega
  obtain ⟨h₁, hh₁, hrest⟩ := (Lts.exec_append _).mp h
  obtain ⟨h₂, hh₂, hh₃⟩ := (Lts.exec_append _).mp hrest
  have hlen₁ : h₁.length = 1 + cs₁.length := length_of_advance hh₁
  have hlen₂ := length_of_advance hh₂
  have hpre₂ : h₂ <+: history := prefix_of_advance hh₃
  have hpre₁ : h₁ <+: history := (prefix_of_advance hh₂).trans hpre₂
  have hstatus₁ : currentStatus h₁ = y.status := currentStatus_of_isPrefix hpre₁ (by omega) hy
  have hstatus₂ : currentStatus h₂ = z.status := currentStatus_of_isPrefix hpre₂ (by omega) hz
  -- the later event is delivered at once
  obtain ⟨s₁, hs₁, hhist₁, hqueue⟩ := exec_created job channel hh₁
  have hty : (⟨j, y.status⟩ : Task) ∈ s₁.queue := hqueue j y (getElem?_in_isPrefix hpre₁ (by omega) hy) hyn
  have htx : (⟨i, x.status⟩ : Task) ∈ s₁.queue := hqueue i x (getElem?_in_isPrefix hpre₁ (by omega) hx) hxn
  have hs₂ := step_deliver job channel hty (by rw [hhist₁, hstatus₁]; exact fun h => h.1 rfl)
  -- the earlier one when the build is back at it
  obtain ⟨s₃, hs₃, hhist₃, hdel₃, hkeep₃, -⟩ := exec_changes job channel
    (s := { s₁ with queue := s₁.queue.erase ⟨j, y.status⟩, delivered := s₁.delivered ++ [⟨j, y.status⟩] })
    (by rw [hhist₁]; exact hh₂)
  have hrun := hnever (changes cs₁ ++ .process ⟨j, y.status⟩ true true ::
    (changes cs₂ ++ .process ⟨i, x.status⟩ true true :: changes cs₃)) (by
      rw [List.filterMap_append, List.filterMap_cons_none rfl, List.filterMap_append, List.filterMap_cons_none rfl,
        filterMap_changes, filterMap_changes, filterMap_changes])
  have hmid := hrun.append.2 s₁ hs₁
  have hend := (hmid.2 _ hs₂).append.2 s₃ hs₃
  refine hend.1 ⟨hkeep₃ _ ?_, ?_, ⟨j, y.status⟩, ?_, hij⟩
  · refine (List.mem_erase_of_ne ?_).mpr htx
    intro he
    have : i = j := congrArg Task.version he
    omega
  · rw [decision_eq, hhist₃, hstatus₂, if_neg hpassed]
    exact ⟨_, rfl⟩
  · rw [hdel₃]
    simp

end

/-- **Commit statuses are not overwritten**, in whatever order the queue
processes the events of a history, exactly if the build has passed each event
from the next one on. -/
theorem never_overwritten_iff {job : TopLevelJob} {channel : StatusChannel} {notified : Bool}
    {cs : List (Statement × Bool)} {history : List Change}
    (h : Lts.exec advance (created notified).history cs = some history) :
    (∀ as, as.filterMap Action.change? = cs →
      Lts.Along (step job channel) (fun s a => ¬ Overwrites job channel s a) (created notified) as) ↔
      Ordered history := by
  constructor
  · exact ordered_of_never_overwritten h
  · rintro hord as rfl
    exact (taskInv_created notified).along h hord

def packageJob : TopLevelJob := ⟨1, "packages.default", by decide +kernel⟩

def githubChannel : StatusChannel := ⟨.githubStatus, rfl⟩

/-- A build that runs once and is not touched again. -/
theorem never_overwritten_once :
    Lts.exec advance (created true).history [(.start, true), (.complete .succeeded, true)] =
      some [⟨.pending, true⟩, ⟨.running, true⟩, ⟨.succeeded, true⟩] ∧
    ∀ as, as.filterMap Action.change? = [(.start, true), (.complete .succeeded, true)] →
      Lts.Along (step packageJob githubChannel) (fun s a => ¬ Overwrites packageJob githubChannel s a)
        (created true) as := by
  have hrun : Lts.exec advance (created true).history [(.start, true), (.complete .succeeded, true)] =
      some [⟨.pending, true⟩, ⟨.running, true⟩, ⟨.succeeded, true⟩] := by decide
  refine ⟨hrun, (never_overwritten_iff hrun).mpr ?_⟩
  intro i j k x y z hx hy hz hij hjk _ _
  have hk : k < 3 := (List.getElem?_eq_some_iff.mp hz).1
  have : (i = 0 ∧ (k = 1 ∨ k = 2)) ∨ i = 1 ∧ k = 2 := by omega
  rcases this with ⟨rfl, rfl | rfl⟩ | ⟨rfl, rfl⟩ <;> cases hx <;> cases hz <;> decide

/-- A failed build is restarted and succeeds. The second outcome is delivered
before the first one. -/
def restarted : List Action :=
  [.change .start true, .change (.complete .failed) true, .change .restart false, .change .start true,
    .change (.complete .succeeded) true, .process ⟨5, .succeeded⟩ true true]

/-- The channel then gets the failure of the first run. -/
theorem restarted_overwritten :
    ∃ s ∈ Lts.exec (step packageJob githubChannel) (created true) restarted,
      currentStatus s.history = .succeeded ∧ s.delivered = [⟨5, .succeeded⟩] ∧
      Overwrites packageJob githubChannel s (.process ⟨2, .failed⟩ true true) := by
  refine ⟨_, rfl, rfl, rfl, by decide, ⟨_, decision_eq _ _⟩, ⟨5, .succeeded⟩, by decide, by decide⟩

end Circus.Notifications.CommitStatus
