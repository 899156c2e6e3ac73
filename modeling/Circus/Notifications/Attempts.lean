/-
# How often and when a notification is attempted

The attempts of a task over any interleaving of the queue runners' loops. A
`claim_pending` skips the rows that other statements have locked, so that what
it claims is any ten of the tasks that are ready (`claimPast`).

What has happened to a task is read off the run: how often it has been claimed
since it was created or requeued, when its last attempt failed and whether it is
completed (`Ledger`). Nobody but the loop that has claimed a task marks it, so
the row agrees with the ledger (`RowInv`), and the row alone decides whether a
task is claimed again (`claims_bounded`).
-/
import Circus.Notifications

namespace Circus.Notifications.Attempts

/-! ### Claims that skip locked rows -/

inductive Action
  | plain (a : Notifications.Action)
  /-- `claim_pending` while other statements hold the rows of `locked`. -/
  | claimPast (p : ℕ) (locked : List Uuid) (answer : Answer)

/-- What `claim_pending` selects past the locked rows. -/
def batchPast (s : State) (locked : List Uuid) : List TaskRow :=
  ((s.tasks.select fun r => TaskRow.ready s.now r && decide (r.id ∉ locked)).insertionSort
    fun a b => a.nextRetryAt ≤ b.nextRetryAt).take claimLimit

def claimRows (tasks : Tasks) (rows : List TaskRow) : Tasks :=
  tasks.update (fun r => decide (r.id ∈ rows.map (·.id))) TaskRow.claim TaskRow.id_claim

def goOn (rows : List TaskRow) : Loop :=
  match (rows.map TaskRow.claim).mapM tryFrom with
  | .ok tasks => .forTasks tasks
  | .error _ => .sleeping

def claimStep (s : State) (p : ℕ) (locked : List Uuid) (answer : Answer) : Option State :=
  match s.loops.lookup p with
  | some .sleeping =>
    match answer with
    | .done => some ({ s with tasks := claimRows s.tasks (batchPast s locked) }.goto p (goOn (batchPast s locked)))
    | .failed => some s
    | .lost => some { s with tasks := claimRows s.tasks (batchPast s locked) }
  | _ => none

def step (s : State) : Action → Option State
  | .plain a => Notifications.step s a
  | .claimPast p locked answer => claimStep s p locked answer

theorem batchPast_nil (s : State) : batchPast s [] = s.batch := by
  simp [batchPast, State.batch, Tasks.batch]

/-- A claim with no row locked is the claim of one loop alone. -/
theorem step_claim (s : State) (p : ℕ) (answer : Answer) :
    Notifications.step s (.claim p answer) = claimStep s p [] answer := by
  unfold claimStep claimRows goOn
  rw [batchPast_nil]
  rfl

theorem of_mem_batchPast {s : State} {locked : List Uuid} {r : TaskRow} (h : r ∈ batchPast s locked) :
    r ∈ s.tasks.rows ∧ r.status = .pending ∧ r.nextRetryAt ≤ s.now := by
  have hm := List.mem_of_mem_take h
  rw [List.mem_insertionSort] at hm
  obtain ⟨hr, hs⟩ := List.mem_filter.mp hm
  have hready : TaskRow.ready s.now r = true := (Bool.and_eq_true_iff.mp hs).1
  exact ⟨hr, of_decide_eq_true hready⟩

theorem nodup_batchPast (s : State) (locked : List Uuid) : ((batchPast s locked).map (·.id)).Nodup := by
  refine List.Nodup.sublist ((List.take_sublist _ _).map _) ?_
  have hperm := (List.perm_insertionSort (fun a b : TaskRow => a.nextRetryAt ≤ b.nextRetryAt)
    (s.tasks.select fun r => TaskRow.ready s.now r && decide (r.id ∉ locked))).map (·.id)
  rw [hperm.nodup_iff]
  exact s.tasks.nodup.sublist (List.filter_sublist.map _)

/-- A claimed task was ready. -/
theorem ready_of_mem_ids {s : State} {locked : List Uuid} {id : Uuid} (h : id ∈ (batchPast s locked).map (·.id)) :
    ∃ t, s.tasks.get id = some t ∧ t.status = .pending ∧ t.nextRetryAt ≤ s.now := by
  obtain ⟨t, ht, rfl⟩ := List.mem_map.mp h
  obtain ⟨hm, hst, hnow⟩ := of_mem_batchPast ht
  exact ⟨t, Table.get_of_mem hm, hst, hnow⟩

theorem get_claimRows (tasks : Tasks) (rows : List TaskRow) (id : Uuid) :
    (claimRows tasks rows).get id =
      (tasks.get id).map fun r => if id ∈ rows.map (·.id) then TaskRow.claim r else r := by
  refine (Table.get_update tasks _ _ _ id).trans ?_
  cases hg : tasks.get id with
  | none => rfl
  | some r =>
    have hid : r.id = id := Tasks.id_of_get hg
    simp only [Option.map_some, hid, decide_eq_true_eq]

theorem held_goOn (rows : List TaskRow) : (goOn rows).held = rows.map (·.id) ∨ (goOn rows).held = [] := by
  unfold goOn
  cases ht : (rows.map TaskRow.claim).mapM tryFrom with
  | error => exact .inr rfl
  | ok =>
    left
    simp only
    rw [Loop.held_forTasks, ids_of_mapM_tryFrom ht, List.map_map]
    rfl

/-! ### The ledger of a task -/

/-- What a step does to one task. -/
inductive Event
  | created
  | requeued
  | claimed
  | completed
  | failed (at' : Time)
  deriving DecidableEq

/-- How a task is marked after its delivery. -/
def Event.marked (now : Time) : Except String Unit → Event
  | .ok () => .completed
  | .error _ => .failed now

/-- Ids are not used twice; where the table hands out the id of a deleted task
again, that is another task. -/
def event (id : Uuid) (s : State) : Action → Option Event
  | .plain (.create _ _ _) => if s.tasks.newId = id then some .created else none
  | .plain (.claim _ answer) =>
    if answer ≠ .failed ∧ id ∈ (batchPast s []).map (·.id) then some .claimed else none
  | .claimPast _ locked answer =>
    if answer ≠ .failed ∧ id ∈ (batchPast s locked).map (·.id) then some .claimed else none
  | .plain (.mark p answer) =>
    match s.loops.lookup p with
    | some (.marking t result _) =>
      if t.id = id ∧ answer ≠ .failed then some (.marked s.now result) else none
    | _ => none
  | .plain (.requeue id') =>
    if id' = id ∧ (s.tasks.get id).any (fun t => decide (t.status = .failed)) = true then some .requeued else none
  | _ => none

structure Ledger where
  /-- The claims since the task was created or last requeued. -/
  claims : ℕ := 0
  /-- When the last of them ended in `mark_failed_and_retry`. -/
  failedAt : Option Time := none
  /-- `mark_completed` has been executed. -/
  completed : Bool := false
  deriving DecidableEq

def Ledger.note (l : Ledger) : Event → Ledger
  | .created => {}
  | .requeued => { l with claims := 0, failedAt := none }
  | .claimed => { l with claims := l.claims + 1, failedAt := none }
  | .completed => { l with completed := true }
  | .failed at' => { l with failedAt := some at' }

def Ledger.noteStep (id : Uuid) (l : Ledger) (x : State × Action) : Ledger := (event id x.1 x.2).elim l l.note

/-- What the steps of a run have done to the task. -/
def ledger (id : Uuid) (steps : List (State × Action)) : Ledger := steps.foldl (Ledger.noteStep id) {}

/-! ### The row of a task -/

/-- The row agrees with the ledger. -/
structure RowInv (l : Ledger) (t : TaskRow) : Prop where
  attempts : t.attempts = l.claims
  bound : (l.claims : ℤ) ≤ max 1 t.maxAttempts
  completed : l.completed = true → t.status = .completed
  /-- A task that waits has an attempt left, and waits long enough. -/
  pending : t.status = .pending → (l.claims : ℤ) < max 1 t.maxAttempts ∧
    ∀ at', l.failedAt = some at' → at' + 2 ^ (l.claims - 1) ≤ t.nextRetryAt

namespace RowInv

variable {l : Ledger} {t : TaskRow}

theorem of_new (hst : t.attempts = 0) : RowInv {} t := by
  have hpos : (0 : ℤ) < max 1 t.maxAttempts := lt_max_of_lt_left one_pos
  refine ⟨hst, hpos.le, fun h => ?_, fun _ => ⟨hpos, fun at' h => ?_⟩⟩
  · cases h
  · cases h

theorem not_completed (h : RowInv l t) (hst : t.status ≠ .completed) : l.completed = false := by
  by_contra hc
  exact hst (h.completed (by simpa using hc))

theorem claim (h : RowInv l t) (hst : t.status = .pending) : RowInv (l.note .claimed) (TaskRow.claim t) where
  attempts := congrArg (· + 1) h.attempts
  bound := by
    have hlt := (h.pending hst).1
    push_cast [Ledger.note]
    exact hlt
  completed := fun hc => absurd (h.completed hc) (by simp [hst])
  pending := fun hp => by cases hp

theorem markCompleted (h : RowInv l t) (now : Time) :
    RowInv (l.note .completed) (TaskRow.markCompleted now t) where
  attempts := h.attempts
  bound := h.bound
  completed := fun _ => rfl
  pending := fun hp => by cases hp

/-- The statement itself sees to it that the next attempt is due late enough. -/
theorem markFailedAndRetry (h : RowInv l t) (hst : t.status = .running) (now : Time) (error : String) :
    RowInv (l.note (.failed now)) (TaskRow.markFailedAndRetry now error t) where
  attempts := h.attempts
  bound := h.bound
  completed := fun hc => by
    have hn := h.not_completed (by simp [hst])
    simp [Ledger.note, hn] at hc
  pending := fun hp => by
    by_cases hmax : t.maxAttempts ≤ t.attempts
    · simp [TaskRow.markFailedAndRetry, hmax] at hp
    · have hlt : (l.claims : ℤ) < t.maxAttempts := by
        rw [← h.attempts]
        exact not_le.mp hmax
      refine ⟨lt_max_of_lt_right hlt, fun at' hat => ?_⟩
      obtain rfl : now = at' := Option.some.inj hat
      have hnext : (TaskRow.markFailedAndRetry now error t).nextRetryAt = now + 2 ^ (t.attempts - 1) := if_neg hmax
      rw [hnext, h.attempts]
      exact Nat.le_refl _

theorem mark (h : RowInv l t) (hst : t.status = .running) (now : Time) (result : Except String Unit) :
    RowInv (l.note (.marked now result)) (TaskRow.mark now result t) := by
  cases result with
  | ok => exact h.markCompleted now
  | error error => exact h.markFailedAndRetry hst now error

theorem requeue (h : RowInv l t) (hst : t.status = .failed) (now : Time) :
    RowInv (l.note .requeued) (TaskRow.requeue now t) := by
  have hpos : (0 : ℤ) < max 1 t.maxAttempts := lt_max_of_lt_left one_pos
  refine ⟨rfl, hpos.le, fun hc => ?_, fun _ => ⟨hpos, fun at' hat => ?_⟩⟩
  · have hn := h.not_completed (by simp [hst])
    simp [Ledger.note, hn] at hc
  · cases hat

end RowInv

/-! ### Who holds a task -/

/-- Runner `p` is still going to process the task. -/
def Holds (s : State) (p : ℕ) (id : Uuid) : Prop := ∃ l, s.loops.lookup p = some l ∧ id ∈ l.held

theorem holds_goto {s : State} {p q : ℕ} {l : Loop} {id : Uuid} :
    Holds (s.goto p l) q id ↔ if q = p then id ∈ l.held else Holds s q id := by
  unfold Holds State.goto
  by_cases hq : q = p
  · subst hq
    simp [AList.lookup_insert]
  · simp [AList.lookup_insert_ne hq, hq]

structure AttemptInv (id : Uuid) (l : Ledger) (s : State) : Prop where
  one : ∀ p q, Holds s p id → Holds s q id → p = q
  once : ∀ p x, s.loops.lookup p = some x → x.held.count id ≤ 1
  running : ∀ p, Holds s p id → ∃ t, s.tasks.get id = some t ∧ t.status = .running
  row : ∀ t, s.tasks.get id = some t → RowInv l t

namespace AttemptInv

variable {id : Uuid} {l : Ledger} {s s' : State}

theorem once_goto {p : ℕ} {x : Loop} (hI : AttemptInv id l s) (hc : x.held.count id ≤ 1) (q : ℕ) (y : Loop)
    (hy : (s.loops.insert p x).lookup q = some y) : y.held.count id ≤ 1 := by
  by_cases hqp : q = p
  · subst hqp
    rw [AList.lookup_insert, Option.some.injEq] at hy
    exact hy ▸ hc
  · rw [AList.lookup_insert_ne hqp] at hy
    exact hI.once q y hy

/-- Loops that hold the task no more than before. -/
theorem goto {p : ℕ} {x : Loop} (hI : AttemptInv id l s) (hx : id ∈ x.held → Holds s p id)
    (hc : x.held.count id ≤ 1) : AttemptInv id l (s.goto p x) := by
  have hle : ∀ q, Holds (s.goto p x) q id → Holds s q id := by
    intro q hq
    rw [holds_goto] at hq
    split_ifs at hq with hqp
    · exact hqp ▸ hx hq
    · exact hq
  exact ⟨fun q r hq hr => hI.one q r (hle q hq) (hle r hr), hI.once_goto hc, fun q hq => hI.running q (hle q hq),
    hI.row⟩

/-- A statement that leaves the row of the task alone. -/
theorem tasks {tasks : Tasks} (hI : AttemptInv id l s) (ht : tasks.get id = s.tasks.get id) :
    AttemptInv id l { s with tasks := tasks } :=
  ⟨hI.one, hI.once, fun p hp => by rw [ht]; exact hI.running p hp, fun t h => hI.row t (ht ▸ h)⟩

/-- A task that does not run is held by nobody. -/
theorem not_holds (hI : AttemptInv id l s) {t : TaskRow} (ht : s.tasks.get id = some t) (hst : t.status ≠ .running)
    (p : ℕ) : ¬ Holds s p id := by
  intro hp
  obtain ⟨t', ht', hrun⟩ := hI.running p hp
  rw [ht, Option.some.injEq] at ht'
  exact hst (ht' ▸ hrun)

/-- A statement that rewrites the row of a task nobody holds. -/
theorem rewrite {tasks : Tasks} {l' : Ledger} (hI : AttemptInv id l s) (hn : ∀ p, ¬ Holds s p id)
    (hrow : ∀ t, tasks.get id = some t → RowInv l' t) : AttemptInv id l' { s with tasks := tasks } :=
  ⟨hI.one, hI.once, fun p hp => absurd hp (hn p), hrow⟩

theorem claimRows (hI : AttemptInv id l s) (locked : List Uuid) :
    AttemptInv id (if id ∈ (batchPast s locked).map (·.id) then l.note .claimed else l)
      { s with tasks := Attempts.claimRows s.tasks (batchPast s locked) } := by
  have hget := get_claimRows s.tasks (batchPast s locked) id
  split_ifs with hm
  · obtain ⟨t, ht, hst, -⟩ := ready_of_mem_ids hm
    refine hI.rewrite (hI.not_holds ht (by simp [hst])) fun t' ht' => ?_
    rw [hget, ht, Option.map_some, if_pos hm, Option.some.injEq] at ht'
    exact ht' ▸ (hI.row t ht).claim hst
  · refine hI.tasks ?_
    rw [hget]
    simp [hm]

/-- The loop that has claimed the task is the only one to hold it. -/
theorem claim (hI : AttemptInv id l s) (p : ℕ) (locked : List Uuid) :
    AttemptInv id (if id ∈ (batchPast s locked).map (·.id) then l.note .claimed else l)
      ({ s with tasks := Attempts.claimRows s.tasks (batchPast s locked) }.goto p (goOn (batchPast s locked))) := by
  have hheld := held_goOn (batchPast s locked)
  have hcount : (goOn (batchPast s locked)).held.count id ≤ 1 := by
    rcases hheld with h | h <;> rw [h]
    · exact List.nodup_iff_count_le_one.mp (nodup_batchPast s locked) id
    · simp
  have hclaim := hI.claimRows locked
  by_cases hm : id ∈ (batchPast s locked).map (·.id)
  · obtain ⟨t, ht, hst, -⟩ := ready_of_mem_ids hm
    have hfree := hI.not_holds ht (by simp [hst])
    rw [if_pos hm] at hclaim ⊢
    have honly : ∀ q, Holds ({ s with tasks := Attempts.claimRows s.tasks (batchPast s locked) }.goto p
        (goOn (batchPast s locked))) q id → q = p := by
      intro q hq
      rw [holds_goto] at hq
      split_ifs at hq with hqp
      · exact hqp
      · exact absurd hq (hfree q)
    refine ⟨fun q r hq hr => (honly q hq).trans (honly r hr).symm, hI.once_goto hcount, fun q _ => ?_, hclaim.row⟩
    · have hget := get_claimRows s.tasks (batchPast s locked) id
      rw [ht, Option.map_some, if_pos hm] at hget
      exact ⟨TaskRow.claim t, hget, rfl⟩
  · rw [if_neg hm] at hclaim ⊢
    refine hclaim.goto (fun h => absurd ?_ hm) hcount
    rcases hheld with he | he
    · exact he ▸ h
    · rw [he] at h
      cases h

theorem claimStep {p : ℕ} {locked : List Uuid} {answer : Answer} (hI : AttemptInv id l s)
    (h : Attempts.claimStep s p locked answer = some s') :
    AttemptInv id (l.noteStep id (s, .claimPast p locked answer)) s' := by
  have hnote : l.noteStep id (s, .claimPast p locked answer) =
      if answer ≠ .failed ∧ id ∈ (batchPast s locked).map (·.id) then l.note .claimed else l := by
    simp only [Ledger.noteStep, event]
    split_ifs <;> rfl
  rw [hnote]
  unfold Attempts.claimStep at h
  split at h
  next =>
    cases answer with
    | done =>
      cases h
      simpa using hI.claim p locked
    | failed =>
      cases h
      simpa using hI
    | lost =>
      cases h
      simpa using hI.claimRows locked
  next => cases h

/-- Only the loop that holds a task marks it. -/
theorem mark {p : ℕ} {t : NotificationTask} {result : Except String Unit} {rest : List NotificationTask}
    (hI : AttemptInv id l s) (hp : s.loops.lookup p = some (.marking t result rest)) (answer : Answer) :
    AttemptInv id (l.noteStep id (s, .plain (.mark p answer)))
      ({ s with tasks := if answer = Answer.failed then s.tasks else s.tasks.mark s.now t.id result }.goto p
        (.forTasks rest)) := by
  have honce := hI.once p _ hp
  simp only [Loop.held, List.count_cons] at honce
  have hcount : (Loop.forTasks rest).held.count id ≤ 1 := by
    rw [Loop.held_forTasks]
    omega
  have hholds : id ∈ (Loop.forTasks rest).held → Holds s p id := by
    rw [Loop.held_forTasks]
    exact fun h => ⟨_, hp, List.mem_cons_of_mem _ h⟩
  by_cases ha : answer = .failed
  · have hnote : l.noteStep id (s, .plain (.mark p answer)) = l := by
      simp [Ledger.noteStep, event, hp, ha]
    rw [hnote, if_pos ha]
    exact hI.goto hholds hcount
  rw [if_neg ha]
  by_cases hid : t.id = id
  · -- the task is marked, and nobody holds it any more
    have hnote : l.noteStep id (s, .plain (.mark p answer)) = l.note (.marked s.now result) := by
      simp [Ledger.noteStep, event, hp, ha, hid]
    rw [hnote]
    have hself : Holds s p id := ⟨_, hp, hid ▸ List.mem_cons_self⟩
    obtain ⟨r, hr, hrun⟩ := hI.running p hself
    have hrest : id ∉ rest.map (·.id) := by
      rw [← List.count_eq_zero]
      simp only [hid, beq_self_eq_true, if_true] at honce
      omega
    have hnone : ∀ q, ¬ Holds ({ s with tasks := s.tasks.mark s.now t.id result }.goto p (.forTasks rest)) q id := by
      intro q hq
      rw [holds_goto] at hq
      split_ifs at hq with hqp
      · rw [Loop.held_forTasks] at hq
        exact hrest hq
      · exact hqp (hI.one q p hq hself)
    refine ⟨fun q _ hq => absurd hq (hnone q), hI.once_goto hcount, fun q hq => absurd hq (hnone q), fun t' ht' => ?_⟩
    · have hget : (s.tasks.mark s.now t.id result).get id = some (TaskRow.mark s.now result r) := by
        unfold Tasks.mark
        rw [Table.get_update, hr, Option.map_some, if_pos (decide_eq_true ((Tasks.id_of_get hr).trans hid.symm))]
      have ht : (s.tasks.mark s.now t.id result).get id = some t' := ht'
      rw [hget, Option.some.injEq] at ht
      exact ht ▸ (hI.row r hr).mark hrun s.now result
  · have hnote : l.noteStep id (s, .plain (.mark p answer)) = l := by
      simp [Ledger.noteStep, event, hp, hid]
    rw [hnote]
    have hget : (s.tasks.mark s.now t.id result).get id = s.tasks.get id := by
      unfold Tasks.mark
      rw [Table.get_update]
      cases hg : s.tasks.get id with
      | none => rfl
      | some r =>
        have hr : r.id ≠ t.id := by
          rw [Tasks.id_of_get hg]
          exact fun h => hid h.symm
        rw [Option.map_some, if_neg (by simpa using hr)]
    exact (hI.tasks hget).goto hholds hcount

theorem requeue (hI : AttemptInv id l s) (id' : Uuid) :
    AttemptInv id (l.noteStep id (s, .plain (.requeue id')))
      { s with tasks := s.tasks.requeueFailed s.now id' } := by
  have hget : (s.tasks.requeueFailed s.now id').get id =
      (s.tasks.get id).map fun r => if id = id' ∧ r.status = .failed then TaskRow.requeue s.now r else r := by
    refine (Table.get_update s.tasks _ _ _ id).trans ?_
    cases hg : s.tasks.get id with
    | none => rfl
    | some r =>
      have hid : r.id = id := Tasks.id_of_get hg
      simp only [Option.map_some, hid, decide_eq_true_eq]
  by_cases hq : id' = id ∧ (s.tasks.get id).any (fun t => decide (t.status = .failed)) = true
  · have hnote : l.noteStep id (s, .plain (.requeue id')) = l.note .requeued := by
      simp only [Ledger.noteStep, event, if_pos hq, Option.elim_some]
    rw [hnote]
    obtain ⟨rfl, hany⟩ := hq
    obtain ⟨t, ht, hst⟩ := (Option.any_eq_true _ _).mp hany
    have hst : t.status = .failed := of_decide_eq_true hst
    refine hI.rewrite (hI.not_holds ht (by simp [hst])) fun t' ht' => ?_
    rw [hget, ht, Option.map_some, if_pos ⟨rfl, hst⟩, Option.some.injEq] at ht'
    exact ht' ▸ (hI.row t ht).requeue hst s.now
  · have hnote : l.noteStep id (s, .plain (.requeue id')) = l := by
      simp only [Ledger.noteStep, event, if_neg hq, Option.elim_none]
    rw [hnote]
    refine hI.tasks ?_
    rw [hget]
    cases hg : s.tasks.get id with
    | none => rfl
    | some =>
      rw [Option.map_some, if_neg]
      rintro ⟨rfl, hst⟩
      exact hq ⟨rfl, by simp [hg, hst]⟩

theorem create (hI : AttemptInv id l s) (notificationType payload : String) (maxAttempts : ℤ)
    (h : Notifications.step s (.create notificationType payload maxAttempts) = some s') :
    AttemptInv id (l.noteStep id (s, .plain (.create notificationType payload maxAttempts))) s' := by
  cases h
  by_cases hid : s.tasks.newId = id
  · have hnote : l.noteStep id (s, .plain (.create notificationType payload maxAttempts)) = {} := by
      simp [Ledger.noteStep, event, hid, Ledger.note]
    rw [hnote]
    -- an id that no row has is held by no loop
    have hfree : ∀ p, ¬ Holds s p id := by
      intro p hp
      obtain ⟨t, ht, -⟩ := hI.running p hp
      have hlt := Tasks.id_lt_newId (Table.mem_of_get ht)
      rw [hid, Tasks.id_of_get ht] at hlt
      exact lt_irrefl _ hlt
    refine hI.rewrite hfree fun t ht => ?_
    rw [Table.get_upsert, if_pos hid.symm, Option.some.injEq] at ht
    exact .of_new (ht ▸ rfl)
  · have hnote : l.noteStep id (s, .plain (.create notificationType payload maxAttempts)) = l := by
      simp [Ledger.noteStep, event, hid]
    rw [hnote]
    refine hI.tasks ?_
    rw [Table.get_upsert, if_neg fun h => hid h.symm]

theorem cleanup (hI : AttemptInv id l s) (retentionDays : ℕ) :
    AttemptInv id l { s with tasks := s.tasks.delete (TaskRow.old s.now retentionDays) } := by
  refine ⟨hI.one, hI.once, fun p hp => ?_, fun t ht => ?_⟩
  · obtain ⟨t, ht, hrun⟩ := hI.running p hp
    refine ⟨t, ?_, hrun⟩
    rw [Table.get_delete, ht]
    simp [TaskRow.old, hrun]
  · rw [Table.get_delete] at ht
    exact hI.row t (Option.eq_some_of_filter_eq_some ht)

theorem step {a : Action} (hI : AttemptInv id l s) (h : Attempts.step s a = some s') :
    AttemptInv id (l.noteStep id (s, a)) s' := by
  cases a with
  | claimPast => exact hI.claimStep h
  | plain a =>
    cases a with
    | claim p answer =>
      have h' : Attempts.claimStep s p [] answer = some s' := (step_claim s p answer).symm.trans h
      exact hI.claimStep h'
    | create notificationType payload maxAttempts => exact hI.create notificationType payload maxAttempts h
    | tick =>
      cases h
      exact ⟨hI.one, hI.once, hI.running, hI.row⟩
    | start p enableRetryQueue =>
      simp only [Attempts.step, Notifications.step] at h
      split at h
      next =>
        cases h
        refine hI.goto (fun hm => ?_) ?_
        · split_ifs at hm <;> cases hm
        · split_ifs <;> simp [Loop.held]
      next => cases h
    | crash p =>
      cases h
      have hle : ∀ q x, (s.loops.erase p).lookup q = some x → s.loops.lookup q = some x := by
        intro q x hx
        by_cases hqp : q = p
        · subst hqp
          simp at hx
        · rwa [AList.lookup_erase_ne hqp] at hx
      have hholds : ∀ q, Holds { s with loops := s.loops.erase p } q id → Holds s q id := by
        rintro q ⟨x, hx, hid⟩
        exact ⟨x, hle q x hx, hid⟩
      exact ⟨fun q r hq hr => hI.one q r (hholds q hq) (hholds r hr), fun q x hx => hI.once q x (hle q x hx),
        fun q hq => hI.running q (hholds q hq), hI.row⟩
    | deliver p result =>
      simp only [Attempts.step, Notifications.step] at h
      split at h
      next t ts hp =>
        cases h
        exact hI.goto (fun hm => ⟨_, hp, hm⟩) (hI.once p (.delivering (t :: ts)) hp)
      next => cases h
    | mark p answer =>
      simp only [Attempts.step, Notifications.step] at h
      split at h
      next t result rest hp =>
        cases h
        exact hI.mark hp answer
      next => cases h
    | requeue id' =>
      cases h
      exact hI.requeue id'
    | cleanup p retentionDays =>
      simp only [Attempts.step, Notifications.step] at h
      split at h
      next => cases h
      next => cases h
      next =>
        cases h
        exact hI.cleanup retentionDays

end AttemptInv

/-! ### Bounded and spaced attempts -/

theorem attemptInv_of_run {s₀ s : State} {as : List Action} (h₀ : s₀.tasks.rows = [])
    (hidle : ∀ x ∈ s₀.loops.entries, x.2.held = []) (h : Lts.exec step s₀ as = some s) (id : Uuid) :
    AttemptInv id (ledger id (Lts.trail step s₀ as)) s := by
  have hidle' : ∀ p x, s₀.loops.lookup p = some x → x.held = [] := fun p x hx =>
    hidle ⟨p, x⟩ (AList.mem_lookup_iff.mp hx)
  have hfree : ∀ p, ¬ Holds s₀ p id := by
    rintro p ⟨x, hx, hid⟩
    rw [hidle' p x hx] at hid
    cases hid
  have hinit : AttemptInv id (ledger id []) s₀ := by
    refine ⟨fun p _ hp => absurd hp (hfree p), fun p x hx => by simp [hidle' p x hx], fun p hp => absurd hp (hfree p),
      fun t ht => ?_⟩
    have hm := Table.mem_of_get ht
    rw [h₀] at hm
    cases hm
  have hall : Lts.Along step (fun _ _ => True) s₀ as := .of_mem fun _ _ _ => trivial
  have hstep : ∀ steps s a s', AttemptInv id (ledger id steps) s → True → step s a = some s' →
      AttemptInv id (ledger id (steps ++ [(s, a)])) s' := by
    intro steps s a s' hI _ hs
    simpa [ledger] using hI.step hs
  simpa using Lts.exec_trail_inv hstep hinit hall h

/-- A claimed task was ready, whichever statement claims it. -/
theorem ready_of_claimed {id : Uuid} {s : State} {a : Action} (h : event id s a = some .claimed) :
    ∃ t, s.tasks.get id = some t ∧ t.status = .pending ∧ t.nextRetryAt ≤ s.now := by
  have hbatch : ∃ locked, id ∈ (batchPast s locked).map (·.id) := by
    unfold event at h
    split at h
    · split_ifs at h
      cases h
    · split_ifs at h with hc
      exact ⟨[], hc.2⟩
    · split_ifs at h with hc
      exact ⟨_, hc.2⟩
    · split at h
      · split_ifs at h
        rename_i result _ _ _
        cases result <;> cases h
      · cases h
    · split_ifs at h
      cases h
    · cases h
  obtain ⟨locked, hm⟩ := hbatch
  exact ready_of_mem_ids hm

/-- **Bounded, spaced attempts.** After any run of any number of loops no two of
them hold a task, and whatever claims the task next leaves it with at most
`max 1 max_attempts` claims since it was created or last requeued, takes it from
nobody, finds it not completed and, if the `k` th claim ended in
`mark_failed_and_retry`, comes at least `2 ^ (k - 1)` seconds after it. -/
theorem claims_bounded {s₀ s : State} {as : List Action} (h₀ : s₀.tasks.rows = [])
    (hidle : ∀ x ∈ s₀.loops.entries, x.2.held = []) (h : Lts.exec step s₀ as = some s) (id : Uuid) :
    (∀ p q, Holds s p id → Holds s q id → p = q) ∧
    ∀ a, event id s a = some .claimed →
      (∃ t, s.tasks.get id = some t ∧
        ((ledger id (Lts.trail step s₀ as)).claims : ℤ) + 1 ≤ max 1 t.maxAttempts) ∧
      (∀ p, ¬ Holds s p id) ∧
      (ledger id (Lts.trail step s₀ as)).completed = false ∧
      ∀ at', (ledger id (Lts.trail step s₀ as)).failedAt = some at' →
        at' + 2 ^ ((ledger id (Lts.trail step s₀ as)).claims - 1) ≤ s.now := by
  have hI := attemptInv_of_run h₀ hidle h id
  refine ⟨hI.one, fun a ha => ?_⟩
  obtain ⟨t, ht, hst, hnow⟩ := ready_of_claimed ha
  have hrow := hI.row t ht
  obtain ⟨hlt, hspaced⟩ := hrow.pending hst
  exact ⟨⟨t, ht, hlt⟩, hI.not_holds ht (by simp [hst]), hrow.not_completed (by simp [hst]),
    fun at' hat => (hspaced at' hat).trans hnow⟩

/-- Two runners; the first attempt fails after the other runner has claimed
past the locked row. -/
def retried : List Action :=
  [.plain (.start 1 true), .plain (.create "slack" "build 1" 2), .claimPast 0 [1] .done, .claimPast 1 [] .done,
    .plain (.deliver 1 (.error "refused")), .plain (.mark 1 .done), .plain (.tick 1)]

theorem claims_bounded_retried :
    ∃ s ∈ Lts.exec step started retried, event 1 s (.claimPast 0 [] .done) = some .claimed ∧
      ledger 1 (Lts.trail step started retried) = { claims := 1, failedAt := some 0 } ∧ 0 + 2 ^ 0 ≤ s.now := by
  obtain ⟨s, hs, hclaim⟩ : ∃ s ∈ Lts.exec step started retried,
      event 1 s (.claimPast 0 [] .done) = some .claimed := by decide
  have hledger : ledger 1 (Lts.trail step started retried) = { claims := 1, failedAt := some 0 } := by decide
  obtain ⟨-, hnext⟩ := claims_bounded rfl (by decide) hs 1
  obtain ⟨-, -, -, hspaced⟩ := hnext _ hclaim
  rw [hledger] at hspaced
  exact ⟨s, hs, hclaim, hledger, hspaced 0 rfl⟩

/-- **What a loop holds is running**, and is held once: no requeue, clean-up or
claim of another loop gets at it. -/
theorem held_runs {s₀ s : State} {as : List Action} (h₀ : s₀.tasks.rows = [])
    (hidle : ∀ x ∈ s₀.loops.entries, x.2.held = []) (h : Lts.exec step s₀ as = some s) {p : ℕ} {x : Loop}
    (hp : s.loops.lookup p = some x) :
    x.held.Nodup ∧ ∀ id ∈ x.held, (∃ t, s.tasks.get id = some t ∧ t.status = .running) ∧
      ∀ q, Holds s q id → q = p := by
  have hI := attemptInv_of_run h₀ hidle h
  refine ⟨List.nodup_iff_count_le_one.mpr fun id => (hI id).once p x hp, fun id hid => ?_⟩
  exact ⟨(hI id).running p ⟨x, hp, hid⟩, fun q hq => (hI id).one q p hq ⟨x, hp, hid⟩⟩

theorem held_runs_claimed : ∃ s ∈ Lts.exec step started (retried.take 4), ∃ x ∈ s.loops.lookup 1, x.held = [1] ∧
    ∀ id ∈ x.held, (∃ t, s.tasks.get id = some t ∧ t.status = .running) ∧ ∀ q, Holds s q id → q = 1 :=
  ⟨_, rfl, _, rfl, by decide, (@held_runs started _ (retried.take 4) rfl (by decide) rfl 1 _ rfl).2⟩

end Circus.Notifications.Attempts
