/-
# The notification queue

`queries/notification_tasks.sql`, `repo/notification_tasks.rs` and the
`notification_retry_loop` of the queue runners. A loop claims up to ten tasks in
one statement, which leaves them running, and then delivers and marks them one
after the other. What it has claimed it knows only from the answer to that
statement, and no statement ever takes up a running task again: a task is lost
when the answer does not arrive or has a row that does not convert, when the
process dies with tasks left, and when marking a task fails.

In a run without these (`Undisturbed`) every running task is held by a live
loop.
-/
import Circus.Lts
import Circus.Models
import Circus.Table

namespace Circus.Notifications

/-! ### Tasks -/

inductive NotificationType
  | githubStatus
  | giteaStatus
  | forgejoStatus
  | gitlabStatus
  | webhook
  | slack
  | email
  deriving DecidableEq, Repr

def NotificationType.fromStr (s : String) : Except String NotificationType :=
  if s = "github_status" then .ok githubStatus
  else if s = "gitea_status" then .ok giteaStatus
  else if s = "forgejo_status" then .ok forgejoStatus
  else if s = "gitlab_status" then .ok gitlabStatus
  else if s = "webhook" then .ok webhook
  else if s = "slack" then .ok slack
  else if s = "email" then .ok email
  else .error ("invalid notification type '" ++ s ++ "'")

/-- `NotificationTaskStatus`. -/
inductive TaskStatus
  | pending
  | running
  | completed
  | failed
  deriving DecidableEq, Repr

/-- The columns of `notification_tasks`, with the type as `τ`. -/
structure Columns (τ : Type) where
  id : Uuid
  notificationType : τ
  payload : String
  status : TaskStatus := .pending
  attempts : ℕ := 0
  maxAttempts : ℤ := 5
  nextRetryAt : Time
  lastError : Option String := none
  createdAt : Time
  completedAt : Option Time := none
  deriving DecidableEq, Repr

abbrev TaskRow := Columns String

abbrev NotificationTask := Columns NotificationType

def tryFrom (r : TaskRow) : Except String NotificationTask := do
  let notificationType ← NotificationType.fromStr r.notificationType
  return ⟨r.id, notificationType, r.payload, r.status, r.attempts, r.maxAttempts, r.nextRetryAt, r.lastError,
    r.createdAt, r.completedAt⟩

theorem id_of_tryFrom {r : TaskRow} {t : NotificationTask} (h : tryFrom r = .ok t) : t.id = r.id := by
  unfold tryFrom at h
  cases hn : NotificationType.fromStr r.notificationType with
  | error => simp [hn, bind, Except.bind] at h
  | ok =>
    simp only [hn, bind, Except.bind, pure, Except.pure, Except.ok.injEq] at h
    rw [← h]

/-- A batch converts as a whole or not at all. -/
theorem ids_of_mapM_tryFrom : ∀ {rows : List TaskRow} {ts : List NotificationTask},
    rows.mapM tryFrom = .ok ts → ts.map (·.id) = rows.map (·.id)
  | [], ts, h => by
    rw [List.mapM_nil] at h
    cases h
    rfl
  | r :: rows, ts, h => by
    rw [List.mapM_cons] at h
    cases hr : tryFrom r with
    | error => simp [hr, bind, Except.bind] at h
    | ok =>
      cases hrest : rows.mapM tryFrom with
      | error => simp [hr, hrest, bind, Except.bind] at h
      | ok =>
        simp only [hr, hrest, bind, Except.bind, pure, Except.pure, Except.ok.injEq] at h
        rw [← h, List.map_cons, List.map_cons, id_of_tryFrom hr, ids_of_mapM_tryFrom hrest]

/-! ### Statements -/

abbrev Tasks := Table fun r : TaskRow => r.id

namespace TaskRow

/-- The `WHERE` of `claim_pending`. -/
def ready (now : Time) (r : TaskRow) : Bool := decide (r.status = .pending ∧ r.nextRetryAt ≤ now)

/-- The `SET` of `claim_pending`. -/
def claim (r : TaskRow) : TaskRow := { r with status := .running, attempts := r.attempts + 1 }

def markCompleted (now : Time) (r : TaskRow) : TaskRow := { r with status := .completed, completedAt := some now }

def markFailedAndRetry (now : Time) (error : String) (r : TaskRow) : TaskRow :=
  { r with
    status := if r.maxAttempts ≤ r.attempts then .failed else .pending
    lastError := some error
    nextRetryAt := if r.maxAttempts ≤ r.attempts then now else now + 2 ^ (r.attempts - 1)
    completedAt := if r.maxAttempts ≤ r.attempts then some now else none }

/-- The `SET` of `requeue_failed`. -/
def requeue (now : Time) (r : TaskRow) : TaskRow :=
  { r with status := .pending, attempts := 0, nextRetryAt := now, lastError := none, completedAt := none }

/-- The `WHERE` of `cleanup_old_tasks`. -/
def old (now : Time) (retentionDays : ℕ) (r : TaskRow) : Bool :=
  decide (r.status = .completed ∨ r.status = .failed) &&
    (r.completedAt.any (fun at' => decide (at' + retentionDays * 86400 < now)) ||
      decide (r.createdAt + retentionDays * 86400 < now))

/-- What a delivery makes of its task. -/
def mark (now : Time) (result : Except String Unit) (r : TaskRow) : TaskRow :=
  match result with
  | .ok () => markCompleted now r
  | .error error => markFailedAndRetry now error r

theorem status_mark (now : Time) (result : Except String Unit) (r : TaskRow) :
    (mark now result r).status ≠ .running := by
  cases result with
  | ok => simp [mark, markCompleted]
  | error =>
    simp only [mark, markFailedAndRetry]
    split_ifs <;> simp

theorem id_mark (now : Time) (result : Except String Unit) (r : TaskRow) : (mark now result r).id = r.id := by
  cases result <;> rfl

theorem id_claim (r : TaskRow) : r.claim.id = r.id := rfl

end TaskRow

namespace Tasks

theorem id_of_get {tasks : Tasks} {id : Uuid} {t : TaskRow} (h : tasks.get id = some t) : t.id = id :=
  @Table.key_of_get _ _ (fun r : TaskRow => r.id) _ tasks id t h

/-- What `claim_pending` selects: the tasks that have waited longest. -/
def batch (tasks : Tasks) (now : Time) (limit : ℕ) : List TaskRow :=
  ((tasks.select (TaskRow.ready now)).insertionSort fun a b => a.nextRetryAt ≤ b.nextRetryAt).take limit

def claimPending (tasks : Tasks) (now : Time) (limit : ℕ) : Tasks :=
  tasks.update (fun r => decide (r.id ∈ (tasks.batch now limit).map (·.id))) TaskRow.claim fun _ => rfl

/-- `mark_completed` or `mark_failed_and_retry`. -/
def mark (tasks : Tasks) (now : Time) (id : Uuid) (result : Except String Unit) : Tasks :=
  tasks.update (fun r => decide (r.id = id)) (TaskRow.mark now result) (TaskRow.id_mark now result)

def requeueFailed (tasks : Tasks) (now : Time) (id : Uuid) : Tasks :=
  tasks.update (fun r => decide (r.id = id ∧ r.status = .failed)) (TaskRow.requeue now) fun _ => rfl

def newId (tasks : Tasks) : Uuid := (tasks.rows.map fun r => r.id).sum + 1

theorem id_lt_newId {tasks : Tasks} {r : TaskRow} (h : r ∈ tasks.rows) : r.id < tasks.newId := by
  have hm : r.id ∈ tasks.rows.map fun r => r.id := List.mem_map.mpr ⟨r, h, rfl⟩
  have hle := List.single_le_sum (fun _ _ => Nat.zero_le _) r.id hm
  exact Nat.lt_succ_of_le hle

/-- A row after the claim is one of the batch, or as it was. -/
theorem mem_claimPending {tasks : Tasks} {now : Time} {limit : ℕ} {t : TaskRow}
    (h : t ∈ (tasks.claimPending now limit).rows) :
    t.id ∈ (tasks.batch now limit).map (·.id) ∨ t ∈ tasks.rows := by
  obtain ⟨r, hr, rfl⟩ := List.mem_map.mp h
  by_cases hb : r.id ∈ (tasks.batch now limit).map (·.id)
  · rw [if_pos (by simpa using hb)]
    exact .inl hb
  · rw [if_neg (by simpa using hb)]
    exact .inr hr

/-- A row after a mark is not the marked one, or does not run. -/
theorem mem_mark {tasks : Tasks} {now : Time} {id : Uuid} {result : Except String Unit} {t : TaskRow}
    (h : t ∈ (tasks.mark now id result).rows) (hrun : t.status = .running) : t ∈ tasks.rows ∧ t.id ≠ id := by
  obtain ⟨r, hr, rfl⟩ := List.mem_map.mp h
  by_cases hid : r.id = id
  · rw [if_pos (by simpa using hid)] at hrun
    exact absurd hrun (TaskRow.status_mark _ _ _)
  · rw [if_neg (by simpa using hid)]
    exact ⟨hr, hid⟩

end Tasks

/-! ### The loops -/

/-- Where a `notification_retry_loop` is. -/
inductive Loop
  /-- `enable_retry_queue` is not set. -/
  | off
  | sleeping
  /-- Before the delivery of the first of the claimed tasks. -/
  | delivering (tasks : List NotificationTask)
  /-- Before the statement that marks `task`. -/
  | marking (task : NotificationTask) (result : Except String Unit) (rest : List NotificationTask)

namespace Loop

/-- The `for` over the claimed tasks. -/
def forTasks : List NotificationTask → Loop
  | [] => sleeping
  | t :: ts => delivering (t :: ts)

/-- The tasks the loop is still going to process. -/
def held : Loop → List Uuid
  | off | sleeping => []
  | delivering tasks => tasks.map (·.id)
  | marking task _ rest => task.id :: rest.map (·.id)

theorem held_forTasks (ts : List NotificationTask) : (forTasks ts).held = ts.map (·.id) := by
  cases ts <;> rfl

end Loop

structure State where
  now : Time := 0
  tasks : Tasks
  /-- The queue runners that are alive. -/
  loops : AList fun _ : ℕ => Loop := ∅

/-- How a statement ends: it is done, it has failed, or it is done and its answer
is lost. -/
inductive Answer
  | done
  | failed
  | lost
  deriving DecidableEq

inductive Action
  | tick (secs : Time)
  /-- `notification_tasks::create`, by whichever version of Circus. -/
  | create (notificationType payload : String) (maxAttempts : ℤ)
  /-- Queue runner `p` starts. -/
  | start (p : ℕ) (enableRetryQueue : Bool)
  | crash (p : ℕ)
  | claim (p : ℕ) (answer : Answer)
  /-- `process_notification_task` returns. -/
  | deliver (p : ℕ) (result : Except String Unit)
  | mark (p : ℕ) (answer : Answer)
  /-- An operator retries a failed task. -/
  | requeue (id : Uuid)
  /-- The cleanup beside the loop. -/
  | cleanup (p retentionDays : ℕ)

/-- The limit `notification_retry_loop` claims with. -/
def claimLimit : ℕ := 10

namespace State

/-- What the next `claim_pending` selects. -/
def batch (s : State) : List TaskRow := s.tasks.batch s.now claimLimit

/-- Where the loop goes on with the answer to `claim_pending`. -/
def claimed (s : State) : Loop :=
  match (s.batch.map TaskRow.claim).mapM tryFrom with
  | .ok tasks => .forTasks tasks
  | .error _ => .sleeping

/-- Runner `p` goes on at `l`. -/
def goto (s : State) (p : ℕ) (l : Loop) : State := { s with loops := s.loops.insert p l }

end State

def step (s : State) : Action → Option State
  | .tick secs => some { s with now := s.now + secs }
  | .create notificationType payload maxAttempts => some { s with
      tasks := s.tasks.upsert {
        id := s.tasks.newId, notificationType := notificationType, payload := payload, maxAttempts := maxAttempts,
        nextRetryAt := s.now, createdAt := s.now } }
  | .start p enableRetryQueue =>
    match s.loops.lookup p with
    | none => some (s.goto p (if enableRetryQueue then .sleeping else .off))
    | some _ => none
  | .crash p => some { s with loops := s.loops.erase p }
  | .claim p answer =>
    match s.loops.lookup p with
    | some .sleeping =>
      match answer with
      | .done => some ({ s with tasks := s.tasks.claimPending s.now claimLimit }.goto p s.claimed)
      | .failed => some s
      | .lost => some { s with tasks := s.tasks.claimPending s.now claimLimit }
    | _ => none
  | .deliver p result =>
    match s.loops.lookup p with
    | some (.delivering (t :: ts)) => some (s.goto p (.marking t result ts))
    | _ => none
  | .mark p answer =>
    match s.loops.lookup p with
    | some (.marking t result rest) => some ({ s with
        tasks := if answer = Answer.failed then s.tasks else s.tasks.mark s.now t.id result }.goto p (.forTasks rest))
    | _ => none
  | .requeue id => some { s with tasks := s.tasks.requeueFailed s.now id }
  | .cleanup p retentionDays =>
    match s.loops.lookup p with
    | none | some .off => none
    | some _ => some { s with tasks := s.tasks.delete (TaskRow.old s.now retentionDays) }

/-! ### Held tasks -/

/-- Some live loop is still going to process the task. -/
def State.Held (s : State) (id : Uuid) : Prop := ∃ x ∈ s.loops.entries, id ∈ x.2.held

instance (s : State) (id : Uuid) : Decidable (s.Held id) :=
  inferInstanceAs (Decidable (∃ x ∈ s.loops.entries, id ∈ x.2.held))

/-- The task is finished, or waits, or runs under a live loop. -/
def State.Accounted (s : State) (t : TaskRow) : Prop :=
  t.status = .completed ∨ t.status = .failed ∨ t.status = .pending ∨ t.status = .running ∧ s.Held t.id

instance (s : State) (t : TaskRow) : Decidable (s.Accounted t) := inferInstanceAs (Decidable (_ ∨ _ ∨ _ ∨ _ ∧ _))

/-- No step loses a task: no runner dies with tasks left, the answer to a claim
arrives and converts, and every task is marked. -/
def Undisturbed (s : State) : Action → Prop
  | .crash p => ∀ l ∈ s.loops.lookup p, l.held = []
  | .claim _ .done => ∀ r ∈ s.batch, (tryFrom r).isOk = true
  | .claim _ .lost => s.batch = []
  | .mark _ answer => answer ≠ .failed
  | _ => True

instance (s : State) (a : Action) : Decidable (Undisturbed s a) := by
  unfold Undisturbed
  split <;> infer_instance

namespace State

section Held

variable {s : State} {id : Uuid}

theorem held_iff : s.Held id ↔ ∃ p l, s.loops.lookup p = some l ∧ id ∈ l.held := by
  constructor
  · rintro ⟨⟨p, l⟩, hm, hid⟩
    exact ⟨p, l, AList.mem_lookup_iff.mpr hm, hid⟩
  · rintro ⟨p, l, hl, hid⟩
    exact ⟨⟨p, l⟩, AList.mem_lookup_iff.mp hl, hid⟩

theorem accounted_iff {t : TaskRow} : s.Accounted t ↔ (t.status = .running → s.Held t.id) := by
  unfold Accounted
  cases t.status <;> simp

/-- Where runner `p` goes on, a task stays held unless it was `p` that held it
and lets go of it. -/
theorem Held.goto {p : ℕ} {l : Loop} (h : s.Held id)
    (hl : ∀ l₀, s.loops.lookup p = some l₀ → id ∈ l₀.held → id ∈ l.held) : (s.goto p l).Held id := by
  obtain ⟨q, l₀, hq, hid⟩ := held_iff.mp h
  rw [held_iff]
  by_cases hqp : q = p
  · subst hqp
    exact ⟨q, l, AList.lookup_insert _, hl l₀ hq hid⟩
  · exact ⟨q, l₀, by rwa [State.goto, AList.lookup_insert_ne hqp], hid⟩

end Held

theorem mapM_isOk : ∀ {rows : List TaskRow}, (∀ r ∈ rows, (tryFrom r).isOk = true) →
    ∃ ts, (rows.map TaskRow.claim).mapM tryFrom = .ok ts
  | [], _ => ⟨[], rfl⟩
  | r :: rows, h => by
    obtain ⟨ts, hts⟩ := mapM_isOk fun r' hr' => h r' (List.mem_cons_of_mem _ hr')
    have hr := h r List.mem_cons_self
    cases hn : NotificationType.fromStr r.notificationType with
    | error => simp [tryFrom, hn, bind, Except.bind, Except.isOk, Except.toBool] at hr
    | ok =>
      rw [List.map_cons, List.mapM_cons, hts]
      simp [tryFrom, TaskRow.claim, hn, bind, Except.bind, pure, Except.pure]

/-- A batch that converts is held as a whole. -/
theorem held_claimed {s : State} (h : ∀ r ∈ s.batch, (tryFrom r).isOk = true) :
    s.claimed.held = s.batch.map (·.id) := by
  obtain ⟨ts, hts⟩ := mapM_isOk h
  rw [claimed, hts]
  simp only
  rw [Loop.held_forTasks, ids_of_mapM_tryFrom hts, List.map_map]
  rfl

end State

/-! ### No task is lost -/

/-- Every running task is held. -/
def QueueInv (s : State) : Prop := ∀ t ∈ s.tasks.rows, t.status = .running → s.Held t.id

section Step

variable {s s' : State}

/-- A statement that lets no row run but those that did. -/
theorem QueueInv.update {p : TaskRow → Bool} {f : TaskRow → TaskRow} {hf : ∀ r, (f r).id = r.id} (hI : QueueInv s)
    (hrun : ∀ r, p r = true → (f r).status ≠ .running) : QueueInv { s with tasks := s.tasks.update p f hf } := by
  intro t ht hst
  obtain ⟨r, hr, rfl⟩ := List.mem_map.mp ht
  by_cases hp : p r = true
  · rw [if_pos hp] at hst
    exact absurd hst (hrun r hp)
  · rw [if_neg hp] at hst ⊢
    exact hI r hr hst

theorem QueueInv.claim {p : ℕ} (hI : QueueInv s) (hp : s.loops.lookup p = some .sleeping)
    (hok : ∀ r ∈ s.batch, (tryFrom r).isOk = true) :
    QueueInv ({ s with tasks := s.tasks.claimPending s.now claimLimit }.goto p s.claimed) := by
  intro t ht hrun
  suffices hheld : (s.goto p s.claimed).Held t.id from hheld
  rcases Tasks.mem_claimPending ht with hb | hr
  · refine State.held_iff.mpr ⟨p, _, AList.lookup_insert _, ?_⟩
    rw [State.held_claimed hok]
    exact hb
  · -- the claiming loop held nothing
    refine (hI t hr hrun).goto fun l₀ hl₀ hid₀ => ?_
    rw [hp, Option.some.injEq] at hl₀
    subst hl₀
    cases hid₀

theorem QueueInv.mark {p : ℕ} {t : NotificationTask} {result : Except String Unit} {rest : List NotificationTask}
    (hI : QueueInv s) (hp : s.loops.lookup p = some (.marking t result rest)) :
    QueueInv ({ s with tasks := s.tasks.mark s.now t.id result }.goto p (.forTasks rest)) := by
  intro r hr hrun
  suffices hheld : (s.goto p (.forTasks rest)).Held r.id from hheld
  obtain ⟨hr, hne⟩ := Tasks.mem_mark hr hrun
  refine (hI r hr hrun).goto fun l₀ hl₀ hid₀ => ?_
  rw [hp, Option.some.injEq] at hl₀
  subst hl₀
  rw [Loop.held_forTasks]
  exact (List.mem_cons.mp hid₀).resolve_left hne

theorem QueueInv.step {a : Action} (hI : QueueInv s) (ha : Undisturbed s a) (h : step s a = some s') :
    QueueInv s' := by
  cases a with
  | tick =>
    cases h
    exact hI
  | create =>
    cases h
    intro t ht hst
    rcases Table.mem_upsert.mp ht with rfl | ⟨ht, -⟩
    · cases hst
    · exact hI t ht hst
  | start p enableRetryQueue =>
    simp only [Notifications.step] at h
    split at h
    next hp =>
      cases h
      intro t ht hst
      exact (hI t ht hst).goto fun l₀ hl₀ => by simp [hp] at hl₀
    next => cases h
  | crash p =>
    cases h
    intro t ht hst
    obtain ⟨q, l, hq, hid⟩ := State.held_iff.mp (hI t ht hst)
    have hqp : q ≠ p := by
      rintro rfl
      rw [ha l hq] at hid
      cases hid
    exact State.held_iff.mpr ⟨q, l, by rwa [AList.lookup_erase_ne hqp], hid⟩
  | claim p answer =>
    simp only [Notifications.step] at h
    split at h
    next hp =>
      cases answer with
      | done =>
        cases h
        exact hI.claim hp ha
      | failed =>
        cases h
        exact hI
      | lost =>
        cases h
        have hb : s.tasks.batch s.now claimLimit = [] := ha
        refine hI.update fun r hr => ?_
        simp [hb] at hr
    next => cases h
  | deliver p result =>
    simp only [Notifications.step] at h
    split at h
    next t ts hp =>
      cases h
      intro r hr hst
      exact (hI r hr hst).goto fun l₀ hl₀ hid => by
        rw [hp, Option.some.injEq] at hl₀
        subst hl₀
        exact hid
    next => cases h
  | mark p answer =>
    simp only [Notifications.step] at h
    split at h
    next t result rest hp =>
      rw [if_neg ha] at h
      cases h
      exact hI.mark hp
    next => cases h
  | requeue =>
    cases h
    exact hI.update fun r _ => by simp [TaskRow.requeue]
  | cleanup p retentionDays =>
    simp only [Notifications.step] at h
    split at h
    next => cases h
    next => cases h
    next =>
      cases h
      exact fun t ht => hI t (List.mem_of_mem_filter ht)

end Step

/-- **No task is lost**, in every run without a disturbance: every task is
completed, failed or pending, or it runs under a live loop that is still going
to process it. -/
theorem tasks_accounted {s₀ s : State} {as : List Action} (h₀ : ∀ t ∈ s₀.tasks.rows, s₀.Accounted t)
    (hrun : Lts.Along step Undisturbed s₀ as) (h : Lts.exec step s₀ as = some s) :
    ∀ t ∈ s.tasks.rows, s.Accounted t := by
  have hI₀ : QueueInv s₀ := fun t ht => State.accounted_iff.mp (h₀ t ht)
  have hI : QueueInv s := Lts.exec_inv (fun _ _ _ hI ha hs => hI.step ha hs) hI₀ hrun h
  exact fun t ht => State.accounted_iff.mpr (hI t ht)

/-- No tasks, and one queue runner. -/
def started : State := { tasks := ⟨[], List.nodup_nil⟩, loops := AList.singleton 0 .sleeping }

/-- Two tasks, which the runner claims. -/
def claimedBoth : List Action :=
  [.create "slack" "build 1" 5, .create "email" "build 2" 1, .claim 0 .done]

/-- The delivery of one task fails for good, and the other is delivered. -/
def bothProcessed : List Action :=
  claimedBoth ++ [.deliver 0 (.error "refused"), .mark 0 .done, .deliver 0 (.ok ()), .mark 0 .lost]

theorem tasks_accounted_processed :
    ∃ s ∈ Lts.exec step started bothProcessed, (s.tasks.rows.map fun t => t.status) = [.failed, .completed] ∧
      ∀ t ∈ s.tasks.rows, s.Accounted t := by
  have hrun : Lts.Along step Undisturbed started bothProcessed := by decide
  obtain ⟨s, hs, hst⟩ : ∃ s ∈ Lts.exec step started bothProcessed,
      (s.tasks.rows.map fun t => t.status) = [.failed, .completed] := by decide
  exact ⟨s, hs, hst, tasks_accounted (by decide) hrun hs⟩

/-- A runner that dies after its claim, an answer that does not arrive, a row
that does not convert and a mark that fails each leave a task running that no
loop holds. -/
theorem tasks_lost :
    (∃ s ∈ Lts.exec step started (claimedBoth ++ [.crash 0, .start 0 true]), ∃ t ∈ s.tasks.rows, ¬ s.Accounted t) ∧
    (∃ s ∈ Lts.exec step started [.create "slack" "build 1" 5, .claim 0 .lost],
      ∃ t ∈ s.tasks.rows, ¬ s.Accounted t) ∧
    (∃ s ∈ Lts.exec step started [.create "slack" "build 1" 5, .create "matrix" "build 1" 5, .claim 0 .done],
      ∃ t ∈ s.tasks.rows, t.notificationType = "slack" ∧ ¬ s.Accounted t) ∧
    ∃ s ∈ Lts.exec step started (claimedBoth ++ [.deliver 0 (.ok ()), .mark 0 .failed]),
      ∃ t ∈ s.tasks.rows, ¬ s.Accounted t := by
  decide

end Circus.Notifications
