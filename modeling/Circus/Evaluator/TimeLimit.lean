/-
# The time limit of an evaluation

`max_eval_time` limits an evaluation. `run_nix_and_record_builds` measures it
from `evaluation_time`, in the copy of the row its caller has claimed or
created: before it starts Nix it gives up if nothing is left, and when Nix has
failed it blames the limit if that much time has passed.

`evaluation_time` is set when a row is created, swept or restarted. A claim
does not touch it: `try_claim_pending` sets `started_at`, and the
`update_status` of `claim_existing` sets no time at all. So the limit runs
from the claim where a poll has created its evaluation as running, and else
only if the row is claimed the moment it became pending
(`timed_out_after_limit`); `timed_out_too_early` has the runs in which it was
queued, swept or completed before.

The evaluator gets the attempts of its tasks: the copy, the time of the claim,
and whether Nix was started.
-/
import Circus.Evaluator.Tasks

namespace Circus.Evaluator

/-! ### The clock -/

theorem Performed.now {s s' : State} {t : ℕ} {m : Move} (h : Performed s t m s') : s'.now = s.now := by
  cases h <;> rfl

/-- Only a tick moves the clock. -/
theorem now_of_step {cfg : Config} {s s' : State} {a : Action} (h : step cfg s a = some s') : s.now ≤ s'.now := by
  cases a with
  | tick secs => exact Option.some.inj h ▸ Nat.le_add_right s.now secs
  | configure | report => exact Option.some.inj h ▸ le_rfl
  | gitPush =>
    simp only [step, State.gitPush] at h
    split_ifs at h
    exact Option.some.inj h ▸ le_rfl
  | gitTag | change => exact Option.some.inj h ▸ le_rfl
  | deliver =>
    obtain ⟨_, -, -, rfl⟩ := deliver_of_step h
    exact le_rfl
  | cancel => exact (State.issue_eq_some.mp h).2 ▸ le_rfl
  | restart => exact Option.some.inj h ▸ le_rfl
  | sweep => exact (State.issue_eq_some.mp h).2 ▸ le_rfl
  | poll =>
    obtain ⟨_, -, -, -, rfl⟩ := poll_of_step h
    exact le_rfl
  | drain =>
    obtain ⟨_, _, _, -, -, -, -, -, -, rfl⟩ := drain_of_step h
    exact le_rfl
  | task =>
    obtain ⟨m, -, hp⟩ := Option.bind_eq_some_iff.mp h
    exact (performed hp).now.ge

namespace TimeLimit

structure Config where
  evaluator : Evaluator.Config
  nixTimeout : Time
  maxEvalTime : Option Time

/-! ### The limit -/

/-- The time since `evaluation_time`, unless that is yet to come. -/
def elapsed (now : Time) (e : EvaluationRow) : Option Time :=
  if e.evaluationTime ≤ now then some (now - e.evaluationTime) else none

def nixTimeout (cfg : Config) (now : Time) (e : EvaluationRow) : Time :=
  cfg.maxEvalTime.elim cfg.nixTimeout fun limit => min (limit - (elapsed now e).getD 0) cfg.nixTimeout

/-- There is a limit, and no time is left. -/
def exceeded (cfg : Config) (now : Time) (e : EvaluationRow) : Bool :=
  cfg.maxEvalTime.isSome && decide (nixTimeout cfg now e = 0)

def exceededMessage : String := "Evaluation exceeded max_eval_time"

/-- The status of an evaluation when Nix has failed. -/
def statusOfError (cfg : Config) (now : Time) (e : EvaluationRow) : EvaluationStatus :=
  if cfg.maxEvalTime.any fun limit => (elapsed now e).any fun x => decide (limit ≤ x) then .timedOut else .failed

/-! ### The system -/

/-- What a task works on: the evaluation as it has claimed or created it, and when. -/
structure Claim where
  row : EvaluationRow
  claimedAt : Time
  /-- Nix was started. -/
  started : Bool := false
  deriving DecidableEq

/-- `run_nix_and_record_builds` may end with this failure. -/
def Claim.mayFail (cfg : Config) (now : Time) (timedOut : Bool) (message : String) (c : Claim) : Bool :=
  if c.started then decide (failureStatus timedOut = statusOfError cfg now c.row)
  else exceeded cfg now c.row && decide (failureStatus timedOut = .timedOut ∧ message = exceededMessage)

inductive Action
  | base (a : Evaluator.Action)
  /-- Task `t` has time left, and starts Nix. -/
  | start (t : ℕ)

structure State where
  base : Evaluator.State
  claims : AList fun _ : ℕ => Claim := ∅

namespace State

/-- The limit and Nix say how the task goes on. -/
def forbids (cfg : Config) (s : State) : Evaluator.Action → Bool
  | .task t .skip => (s.claims.lookup t).any Claim.started
  | .task t (.failed timedOut message) => !(s.claims.lookup t).any (Claim.mayFail cfg s.base.now timedOut message)
  | .task t (.evaluated _ _) => !(s.claims.lookup t).any Claim.started
  | _ => false

/-- The claims after a step to `b`: a task that comes to a copy has just got it. -/
def claimed (s : State) (b : Evaluator.State) : Evaluator.Action → AList fun _ : ℕ => Claim
  | .task t _ =>
    match (s.base.phase t).copy, (b.phase t).copy with
    | none, some e => s.claims.insert t { row := e, claimedAt := s.base.now }
    | _, _ => s.claims
  | _ => s.claims

end State

def step (cfg : Config) (s : State) : Action → Option State
  | .base a =>
    if s.forbids cfg a then none
    else (Evaluator.step cfg.evaluator s.base a).map fun b => { base := b, claims := s.claimed b a }
  | .start t =>
    match s.base.phase t, s.claims.lookup t with
    | .evaluating _ _, some c =>
      if c.started || exceeded cfg s.base.now c.row then none
      else some { s with claims := s.claims.insert t { c with started := true } }
    | _, _ => none

abbrev exec (cfg : Config) := Lts.exec (step cfg)

abbrev Along (cfg : Config) := Lts.Along (step cfg)

/-! ### Claims -/

/-- The statements that make a running evaluation of a pending or a completed one. -/
def isClaim : Statement → Bool
  | .tryClaimPending _ => true
  | .updateStatus _ status _ => decide (status = .running)
  | _ => false

/-- The row a claim returns. -/
def claimOf (cfg : Evaluator.Config) (s : Evaluator.State) (a : Evaluator.Action) : Option EvaluationRow :=
  ((statementOf cfg s a).filter isClaim).bind fun q => q.returning s.now s.db

/-- Evaluation `id` is claimed at its `evaluation_time`. -/
def ClaimsPromptly (cfg : Config) (id : Uuid) (s : State) : Action → Prop
  | .base a => ∀ e ∈ claimOf cfg.evaluator s.base a, e.id = id → e.evaluationTime = s.base.now
  | .start _ => True

instance (cfg : Config) (id : Uuid) (s : State) : DecidablePred (ClaimsPromptly cfg id s)
  | .base a => inferInstanceAs (Decidable (∀ e ∈ claimOf cfg.evaluator s.base a, _))
  | .start _ => inferInstanceAs (Decidable True)

/-! ### The attempts of a run -/

/-- The evaluation a task has claimed and not yet evaluated. -/
def works : Phase → Option Uuid
  | .claimed _ e | .hashing _ e => some e.id
  | .evaluating _ id => some id
  | _ => none

theorem works_onError {p : Phase} {message : String} {k : Uuid} (h : works (p.onError message) = some k) :
    works p = some k := by
  unfold Phase.onError at h
  split at h <;> first | exact h | cases h

theorem works_of_copy {p : Phase} {e : EvaluationRow} (h : p.copy = some e) : works p = some e.id := by
  cases p <;> cases h <;> rfl

/-- A task comes to work on an evaluation with a copy of it. -/
theorem works_of_leads {cfg : Evaluator.Config} {p p' : Phase} {event : TaskEvent} {m : Move} {k : Uuid}
    (hm : p.move cfg event = some m) (hl : m.Leads p') (h : works p' = some k) :
    works p = some k ∨ p.copy = none ∧ ∃ e, p'.copy = some e ∧ e.id = k := by
  unfold Phase.move at hm
  split at hm <;> try first | cases hm | (split at hm <;> cases hm) | (split_ifs at hm <;> cases hm)
  all_goals try obtain ⟨x, rfl⟩ := hl
  all_goals try dsimp only at h ⊢
  all_goals try (repeat' split at h)
  all_goals first
    | exact .inl h
    | exact .inl (works_onError h)
    | (unfold Flow.next at h; split at h <;> cases h)
    | cases h
  all_goals exact .inr ⟨rfl, _, rfl, rfl⟩

/-- Every task that works on an evaluation has a claim of it, and claims of
evaluation `id` were made at its `evaluation_time`. -/
structure ClaimInv (id : Uuid) (s : State) : Prop where
  held : ∀ t k, works (s.base.phase t) = some k → ∃ c, s.claims.lookup t = some c ∧ c.row.id = k
  past : ∀ t c, s.claims.lookup t = some c → c.claimedAt ≤ s.base.now
  prompt : ∀ t c, s.claims.lookup t = some c → c.row.id = id → c.row.evaluationTime = c.claimedAt

section Step

variable {cfg : Config} {id : Uuid} {s s' : State}

/-- A task keeps its claim, or has just made it. -/
theorem lookup_claimed (s : State) (b : Evaluator.State) (a : Evaluator.Action) (t : ℕ) :
    (s.claimed b a).lookup t = s.claims.lookup t ∧
      (∀ event, a = .task t event → (s.base.phase t).copy = none → (b.phase t).copy = none) ∨
    ∃ event e, a = .task t event ∧ (s.base.phase t).copy = none ∧ (b.phase t).copy = some e ∧
      (s.claimed b a).lookup t = some { row := e, claimedAt := s.base.now } := by
  cases a with
  | task t' event =>
    simp only [State.claimed]
    split
    · next e h h' =>
      by_cases ht : t = t'
      · subst ht
        exact .inr ⟨event, e, rfl, h, h', AList.lookup_insert _⟩
      · refine .inl ⟨AList.lookup_insert_ne ht, fun event' heq => ?_⟩
        exact absurd (Action.task.inj heq).1.symm ht
    · next hno =>
      refine .inl ⟨rfl, fun event' heq h => ?_⟩
      obtain ⟨rfl, -⟩ := Action.task.inj heq
      exact Option.eq_none_iff_forall_ne_some.mpr fun e h' => hno e h h'
  | _ => exact .inl ⟨rfl, fun event heq => by cases heq⟩

theorem ClaimInv.base {a : Evaluator.Action} {b : Evaluator.State} (hI : ClaimInv id s)
    (ha : ClaimsPromptly cfg id s (.base a)) (hs : Evaluator.step cfg.evaluator s.base a = some b) :
    ClaimInv id { base := b, claims := s.claimed b a } where
  held := by
    intro t k hk
    rcases lookup_claimed s b a t with ⟨hl, hkeep⟩ | ⟨event, e, hact, hnone, hcopy, hl⟩
    · rw [hl]
      rcases held_of_step (P := (works · = some k)) (fun _ hb h => by cases hb <;> cases h) hs hk with
        ⟨h, -⟩ | ⟨event, m, hact, hm, hp⟩
      · exact hI.held t k h
      · rcases works_of_leads hm hp.leads hk with h | ⟨hnone, e, he, -⟩
        · exact hI.held t k h
        · exact absurd (he.symm.trans (hkeep event hact hnone)) (by simp)
    · exact ⟨_, hl, Option.some.inj ((works_of_copy hcopy).symm.trans hk)⟩
  past := by
    intro t c hc
    have hnow : s.base.now ≤ b.now := now_of_step hs
    rcases lookup_claimed s b a t with ⟨hl, -⟩ | ⟨event, e, hact, hnone, hcopy, hl⟩
    · exact (hI.past t c (hl ▸ hc)).trans hnow
    · obtain rfl := Option.some.inj (hl.symm.trans hc)
      exact hnow
  prompt := by
    intro t c hc hid
    rcases lookup_claimed s b a t with ⟨hl, -⟩ | ⟨event, e, rfl, hnone, hcopy, hl⟩
    · exact hI.prompt t c (hl ▸ hc) hid
    · obtain rfl := Option.some.inj (hl.symm.trans hc)
      obtain ⟨m, hm, hp⟩ := Option.bind_eq_some_iff.mp hs
      rcases copy_of_performed hm (performed hp) hcopy with h | ⟨r, hr⟩ | ⟨q, next, rfl, hret, hq⟩
      · rw [hnone] at h
        cases h
      · -- a creation sets `evaluation_time`
        obtain ⟨base, rfl⟩ := (Request.created hr).row
        rfl
      · have hst : statementOf cfg.evaluator s.base (.task t event) = some q := by simp [statementOf, hm]
        have hclaim : isClaim q = true := by rcases hq with ⟨_, rfl⟩ | ⟨_, _, rfl⟩ <;> rfl
        exact ha e (by rw [claimOf, hst, Option.filter_some_pos hclaim]; exact hret) hid

theorem ClaimInv.step {a : Action} (hI : ClaimInv id s) (ha : ClaimsPromptly cfg id s a)
    (hs : step cfg s a = some s') : ClaimInv id s' := by
  cases a with
  | base =>
    simp only [TimeLimit.step] at hs
    split_ifs at hs
    obtain ⟨b, hb, rfl⟩ := Option.map_eq_some_iff.mp hs
    exact hI.base ha hb
  | start t =>
    simp only [TimeLimit.step] at hs
    split at hs
    · next flow k c hp hc =>
      split_ifs at hs
      cases hs
      -- the claim is of the same row, at the same time
      have hback : ∀ t' c', (s.claims.insert t { c with started := true }).lookup t' = some c' →
          ∃ c₀, s.claims.lookup t' = some c₀ ∧ c₀.row = c'.row ∧ c₀.claimedAt = c'.claimedAt := by
        intro t' c' hc'
        by_cases ht : t' = t
        · subst ht
          rw [AList.lookup_insert] at hc'
          exact ⟨c, hc, Option.some.inj hc' ▸ ⟨rfl, rfl⟩⟩
        · exact ⟨c', AList.lookup_insert_ne ht ▸ hc', rfl, rfl⟩
      refine ⟨fun t' k' hk => ?_, fun t' c' hc' => ?_, fun t' c' hc' hid => ?_⟩
      · obtain ⟨c₀, hc₀, hid⟩ := hI.held t' k' hk
        by_cases ht : t' = t
        · subst ht
          obtain rfl := Option.some.inj (hc.symm.trans hc₀)
          exact ⟨_, AList.lookup_insert _, hid⟩
        · exact ⟨c₀, (AList.lookup_insert_ne ht).trans hc₀, hid⟩
      · obtain ⟨c₀, hc₀, -, hat⟩ := hback t' c' hc'
        exact hat ▸ hI.past t' c₀ hc₀
      · obtain ⟨c₀, hc₀, hr, hat⟩ := hback t' c' hc'
        rw [← hr, ← hat]
        exact hI.prompt t' c₀ hc₀ (hr ▸ hid)
    · cases hs

end Step

/-- The limit is blamed only when that much time has passed since `evaluation_time`. -/
theorem limit_le_of_mayFail {cfg : Config} {now : Time} {timedOut : Bool} {message : String} {c : Claim}
    (hnix : 0 < cfg.nixTimeout) (hpast : c.row.evaluationTime ≤ now) (hto : failureStatus timedOut = .timedOut)
    (h : c.mayFail cfg now timedOut message = true) :
    ∃ limit, cfg.maxEvalTime = some limit ∧ c.row.evaluationTime + limit ≤ now := by
  have helapsed : elapsed now c.row = some (now - c.row.evaluationTime) := if_pos hpast
  have hle : ∀ limit, limit ≤ now - c.row.evaluationTime → c.row.evaluationTime + limit ≤ now := by
    intro limit hl
    calc c.row.evaluationTime + limit ≤ c.row.evaluationTime + (now - c.row.evaluationTime) := Nat.add_le_add_left hl _
      _ = now := Nat.add_sub_cancel' hpast
  unfold Claim.mayFail at h
  split_ifs at h with hstarted
  · -- Nix has failed
    have hst : statusOfError cfg now c.row = .timedOut := (of_decide_eq_true h).symm.trans hto
    unfold statusOfError at hst
    split_ifs at hst with hany
    obtain ⟨limit, hlimit, hx⟩ := (Option.any_eq_true _ _).mp hany
    rw [helapsed, Option.any_some, decide_eq_true_iff] at hx
    exact ⟨limit, hlimit, hle limit hx⟩
  · -- no time is left, and Nix is not started
    obtain ⟨hex, -⟩ := Bool.and_eq_true_iff.mp h
    obtain ⟨hsome, hzero⟩ := Bool.and_eq_true_iff.mp hex
    obtain ⟨limit, hlimit⟩ := Option.isSome_iff_exists.mp hsome
    have hmin : min (limit - (now - c.row.evaluationTime)) cfg.nixTimeout = 0 := by
      simpa [nixTimeout, hlimit, helapsed] using hzero
    have hsub : limit - (now - c.row.evaluationTime) = 0 := by
      rcases Nat.min_eq_zero_iff.mp hmin with h | h
      · exact h
      · exact absurd h hnix.ne'
    exact ⟨limit, hlimit, hle limit (Nat.le_of_sub_eq_zero hsub)⟩

/-- A `finish_running` with `timed_out` is that of `run_nix_and_record_builds`. -/
theorem Phase.move_timedOut {cfg : Evaluator.Config} {p : Phase} {event : TaskEvent} {id : Uuid}
    {message : Option String} {next : Option EvaluationRow → Phase}
    (h : p.move cfg event = some (.statement (.finishRunning id .timedOut message) next)) :
    ∃ flow timedOut text, p = .evaluating flow id ∧ event = .failed timedOut text ∧
      failureStatus timedOut = .timedOut := by
  unfold Phase.move at h
  split at h <;> try first | cases h | (split at h <;> cases h) | (split_ifs at h <;> cases h)
  injection h with h
  injection h with hq
  injection hq with hid hst
  exact ⟨_, _, _, by rw [hid], rfl, hst⟩

/-- **Time limits.** In every run in which evaluation `id` is only claimed at
its `evaluation_time`, and with a Nix timeout, a task that ends it as timed out
claimed or created it no later than `max_eval_time` ago. -/
theorem timed_out_after_limit {cfg : Config} {b₀ : Evaluator.State} {s s' : State} {as : List Action} {id : Uuid}
    {t : ℕ} {event : TaskEvent} {message : Option String} (h₀ : b₀.Idle) (hnix : 0 < cfg.nixTimeout)
    (hrun : Along cfg (ClaimsPromptly cfg id) { base := b₀ } as) (h : exec cfg { base := b₀ } as = some s)
    (hq : statementOf cfg.evaluator s.base (.task t event) = some (.finishRunning id .timedOut message))
    (hs : step cfg s (.base (.task t event)) = some s') :
    ∃ c limit, s.claims.lookup t = some c ∧ c.row.id = id ∧ cfg.maxEvalTime = some limit ∧
      c.claimedAt + limit ≤ s.base.now := by
  have hI₀ : ClaimInv id { base := b₀ } := by
    refine ⟨fun t k hk => ?_, fun t c hc => ?_, fun t c hc => ?_⟩
    · rw [h₀ t] at hk
      cases hk
    · cases hc
    · cases hc
  have hI : ClaimInv id s := Lts.exec_inv (fun _ _ _ hI ha hs => hI.step ha hs) hI₀ hrun h
  obtain ⟨flow, timedOut, text, hp, rfl, hto⟩ :
      ∃ flow timedOut text, s.base.phase t = .evaluating flow id ∧ event = .failed timedOut text ∧
        failureStatus timedOut = .timedOut := by
    rcases statementOf_eq_some hq with ⟨_, ha, -⟩ | ⟨ha, -⟩ | ⟨t', event', next, ha, hm⟩
    · cases ha
    · cases ha
    · obtain ⟨rfl, rfl⟩ := Action.task.inj ha
      exact Phase.move_timedOut hm
  obtain ⟨c, hc, hid⟩ := hI.held t id (by rw [hp]; rfl)
  have hprompt : c.row.evaluationTime = c.claimedAt := hI.prompt t c hc hid
  have hpast : c.row.evaluationTime ≤ s.base.now := hprompt ▸ hI.past t c hc
  have hfail : c.mayFail cfg s.base.now timedOut text = true := by
    simp only [step] at hs
    split_ifs at hs with hf
    simpa [State.forbids, hc] using hf
  obtain ⟨limit, hlimit, hle⟩ := limit_le_of_mayFail hnix hpast hto hfail
  exact ⟨c, limit, hc, hid, hlimit, hprompt ▸ hle⟩

def fiveSeconds : Config := { evaluator := small, nixTimeout := 100, maxEvalTime := some 5 }

def ofBase (as : List Evaluator.Action) : List Action := as.map .base

/-- A poll creates an evaluation, and five seconds pass before Nix is started. -/
def polledFor5 : List Action := ofBase (List.flatten [[.gitPush 0 "main" (some "a"), .poll 1 0], nexts 1 5, [.tick 5]])

theorem timed_out_after_limit_polled : ∃ s ∈ exec fiveSeconds { base := withJobset mainJobset } polledFor5,
    ∃ c limit, s.claims.lookup 1 = some c ∧ c.row.id = 1 ∧ fiveSeconds.maxEvalTime = some limit ∧
      c.claimedAt + limit ≤ s.base.now := by
  obtain ⟨s, h, hq, hs⟩ : ∃ s ∈ exec fiveSeconds { base := withJobset mainJobset } polledFor5,
      statementOf small s.base (.task 1 (.failed true exceededMessage)) =
        some (.finishRunning 1 .timedOut (some exceededMessage)) ∧
      (step fiveSeconds s (.base (.task 1 (.failed true exceededMessage)))).isSome = true := by
    decide
  obtain ⟨s', hs⟩ := Option.isSome_iff_exists.mp hs
  have hrun : Along fiveSeconds (ClaimsPromptly fiveSeconds 1) { base := withJobset mainJobset } polledFor5 := by
    decide
  exact ⟨s, h, timed_out_after_limit (idle_withJobset _) (by decide) hrun h hq hs⟩

/-- Task `t` may end its evaluation as timed out, before the limit has passed since its claim. -/
def TooEarly (cfg : Config) (t : ℕ) (s : State) : Prop :=
  (step cfg s (.base (.task t (.failed true exceededMessage)))).isSome = true ∧
    ∃ c ∈ s.claims.lookup t, ∃ limit ∈ cfg.maxEvalTime, s.base.now < c.claimedAt + limit

instance (cfg : Config) (t : ℕ) (s : State) : Decidable (TooEarly cfg t s) := inferInstanceAs (Decidable (_ ∧ _))

/-- A push is handled, and waits for six seconds. -/
def queued : List Action := ofBase (List.flatten
  [[.gitPush 0 "main" (some "a"), .deliver 1 0], nexts 1 2, [.tick 6, .drain 1 1], nexts 1 3])

/-- The task that has claimed it crashes; it is swept, and waits for six seconds. -/
def swept : List Action := ofBase (List.flatten
  [[.gitPush 0 "main" (some "a"), .deliver 1 0], nexts 1 2, [.drain 1 1], nexts 1 1,
    [.task 1 .crash, .tick 11, .sweep, .tick 6, .drain 1 1], nexts 1 3])

/-- A poll evaluates `a` without builds; six seconds later another one claims its evaluation. -/
def completed : List Action :=
  List.flatten [ofBase (List.flatten [[.gitPush 0 "main" (some "a"), .poll 1 0], nexts 1 4, [.task 1 (.error "")]]),
    [.start 1], ofBase (List.flatten [[.task 1 (.evaluated [] none)], nexts 1 2, [.tick 6, .poll 2 0], nexts 2 8])]

theorem timed_out_too_early :
    (∃ s ∈ exec fiveSeconds { base := withJobset mainJobset } queued, TooEarly fiveSeconds 1 s) ∧
    (∃ s ∈ exec fiveSeconds { base := withJobset mainJobset } swept, TooEarly fiveSeconds 1 s) ∧
    (∃ s ∈ exec fiveSeconds { base := withJobset mainJobset } completed, TooEarly fiveSeconds 2 s) ∧
    ∃ s ∈ exec { fiveSeconds with nixTimeout := 0 } { base := withJobset mainJobset }
      (ofBase (List.flatten [[.gitPush 0 "main" (some "a"), .poll 1 0], nexts 1 5])),
      TooEarly { fiveSeconds with nixTimeout := 0 } 1 s := by
  decide

end TimeLimit

end Circus.Evaluator
