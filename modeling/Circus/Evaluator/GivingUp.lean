/-
# Giving up on orphans

`sweep_orphaned` requeues a running evaluation whose evaluator has died, and
marks it failed instead the third time. `giving_up_final`: an evaluation whose
attempts all end in a crash is started three times at most, and not again
after it has been given up, as long as no restart reaches it then.

The evaluator does restart it: the next poll of the same commit meets the
unique index, reads the failed row and hands it to `claim_existing`, whose
restart resets the count of orphanings. `restarted_after_giving_up` starts an
evaluation a fourth time that way.
-/
import Circus.Evaluator.Claiming

namespace Circus

def EvaluationRow.GivenUp (e : EvaluationRow) : Prop :=
  e.status = .failed ∧ e.errorMessage = some EvaluationRow.givingUp

instance (e : EvaluationRow) : Decidable e.GivenUp := inferInstanceAs (Decidable (_ ∧ _))

def EvaluationRow.startsLeft (e : EvaluationRow) : ℕ :=
  match e.status with
  | .pending => 3 - e.orphanedCount
  | .running => 2 - e.orphanedCount
  | _ => 0

namespace Evaluator

def Db.GivenUp (db : Db) (id : Uuid) : Prop := ∃ e, db.evaluations.get id = some e ∧ e.GivenUp

instance (db : Db) (id : Uuid) : Decidable (db.GivenUp id) :=
  inferInstanceAs (Decidable (∃ e ∈ db.evaluations.get id, _))

/-- The statement ends an attempt on evaluation `id`, or rejects it. -/
def Statement.ends (id : Uuid) : Statement → Bool
  | finishRunning i _ _ => decide (i = id)
  | updateStatus i status _ => decide (i = id ∧ status ≠ .running)
  | _ => false

/-- An operator cancels or restarts evaluation `id`. -/
def Action.operates (id : Uuid) : Action → Bool
  | .cancel i | .restart i => decide (i = id)
  | _ => false

/-- No operator acts on evaluation `id`, and no attempt on it comes to its end. -/
def CrashesOnly (cfg : Config) (id : Uuid) (s : State) (a : Action) : Prop :=
  a.operates id = false ∧ (∀ q ∈ statementOf cfg s a, q.ends id = false) ∧ ∀ c ∈ commitOf cfg s a, c.1 ≠ id

instance (cfg : Config) (id : Uuid) (s : State) (a : Action) : Decidable (CrashesOnly cfg id s a) := by
  unfold CrashesOnly
  infer_instance

/-- Once evaluation `id` is given up, `claim_existing` does not restart it. -/
def LeavesGivenUp (cfg : Config) (id : Uuid) (s : State) (a : Action) : Prop :=
  s.db.GivenUp id → restartOf cfg s a ≠ some id

instance (cfg : Config) (id : Uuid) (s : State) (a : Action) : Decidable (LeavesGivenUp cfg id s a) := by
  unfold LeavesGivenUp
  infer_instance

/-- The action makes evaluation `id` running. -/
def starts (cfg : Config) (id : Uuid) (s : State) (a : Action) : Bool :=
  !decide (s.db.Running id) && (step cfg s a).any fun s' => decide (s'.db.Running id)

/-! ### The row of such an evaluation -/

/-- The states of an evaluation whose attempts end in crashes only. -/
inductive Orphaning (e : EvaluationRow) : Prop
  | pending (h : e.status = .pending) (hc : e.orphanedCount ≤ 2)
  | running (h : e.status = .running) (hc : e.orphanedCount ≤ 2)
  | givenUp (h : e.GivenUp)
  | cancelled (h : e.status = .cancelled)

/-- What a step may make of the row. -/
structure OrphanStep (e e' : EvaluationRow) : Prop where
  row : Orphaning e'
  left : e'.startsLeft + (if e.status ≠ .running ∧ e'.status = .running then 1 else 0) ≤ e.startsLeft
  final : e.GivenUp → e'.GivenUp

namespace Orphaning

variable {e : EvaluationRow}

theorem refl (h : Orphaning e) : OrphanStep e e := ⟨h, by simp, id⟩

/-- A claim takes one start. -/
theorem claim (now : Time) (h : Orphaning e) (hp : e.status = .pending) : OrphanStep e (e.claim now) := by
  cases h with
  | pending _ hc =>
    refine ⟨.running rfl hc, ?_, fun hg => ?_⟩
    · simp only [EvaluationRow.startsLeft, EvaluationRow.claim, hp]
      simp only [ne_eq, reduceCtorEq, not_false_eq_true, and_self, if_true]
      omega
    · rw [hg.1] at hp
      cases hp
  | running h => simp [h] at hp
  | givenUp h => simp [h.1] at hp
  | cancelled h => simp [h] at hp

/-- A sweep counts the start as lost, and gives up at the third. -/
theorem sweep (now : Time) (hr : e.status = .running) : OrphanStep e (e.sweepOrphaned now) := by
  have hnot : ¬ e.GivenUp := fun hg => by simp [hg.1] at hr
  by_cases h2 : 2 ≤ e.orphanedCount
  · have hst : (e.sweepOrphaned now).status = .failed := by simp [EvaluationRow.sweepOrphaned, h2]
    refine ⟨.givenUp ⟨hst, by simp [EvaluationRow.sweepOrphaned, h2]⟩, ?_, fun hg => absurd hg hnot⟩
    simp [EvaluationRow.startsLeft, hst]
  · have hst : (e.sweepOrphaned now).status = .pending := by simp [EvaluationRow.sweepOrphaned, h2]
    have hc : (e.sweepOrphaned now).orphanedCount = e.orphanedCount + 1 := rfl
    refine ⟨.pending hst (by omega), ?_, fun hg => absurd hg hnot⟩
    simp only [EvaluationRow.startsLeft, hst, hr, hc]
    simp only [ne_eq, not_true_eq_false, false_and, if_false]
    omega

/-- Superseded, it is cancelled for good, or was over before. -/
theorem supersede (by' : Uuid) (h : Orphaning e) : OrphanStep e (e.supersede by') := by
  by_cases hact : e.status.isActive = true
  · have hst : (e.supersede by').status = .cancelled := by simp [EvaluationRow.supersede, hact]
    refine ⟨.cancelled hst, by simp [EvaluationRow.startsLeft, hst], fun hg => ?_⟩
    rw [hg.1] at hact
    cases hact
  · have hst : (e.supersede by').status = e.status := by simp [EvaluationRow.supersede, hact]
    have hm : (e.supersede by').errorMessage = e.errorMessage := by simp [EvaluationRow.supersede, hact]
    have hgu : e.GivenUp → (e.supersede by').GivenUp := fun hg => ⟨hst.trans hg.1, hm.trans hg.2⟩
    have hleft : (e.supersede by').startsLeft = e.startsLeft := by
      simp only [EvaluationRow.startsLeft, hst]
      rfl
    refine ⟨?_, by simp [hleft, hst], hgu⟩
    cases h with
    | pending h | running h => simp [h, EvaluationStatus.isActive] at hact
    | givenUp h => exact .givenUp (hgu h)
    | cancelled h => exact .cancelled (hst.trans h)

/-- The statements of a run without an end of an attempt. -/
theorem set {cfg : Config} {s : State} {a : Action} {q : Statement} (hq : statementOf cfg s a = some q)
    (hc : CrashesOnly cfg e.id s a) (hr : rerunOf cfg s a ≠ some e.id) (h : Orphaning e)
    (hs : q.selects s.now e = true) : OrphanStep e (q.set s.now e) := by
  have hends := hc.2.1 q hq
  rcases statementOf_cases hq with ⟨i, rfl⟩ | ⟨i, hi, rfl⟩ | ⟨i, rfl⟩ | ⟨i, st, m, rfl, -⟩ |
    ⟨t, flow, e₀, -, rfl⟩ | ⟨i, rfl, rfl⟩ | rfl
  · exact h.claim s.now (decide_eq_true_iff.mp hs).2
  · have hp : e.id = i := decide_eq_true_iff.mp hs
    exact absurd (hp ▸ hi) hr
  · have hp : e.id = i := decide_eq_true_iff.mp hs
    simp [Statement.ends, hp] at hends
  · have hp : e.id = i ∧ e.status = .running := decide_eq_true_iff.mp hs
    simp [Statement.ends, hp.1] at hends
  · -- the inputs hash is of no concern here
    refine ⟨?_, by simp [Statement.set, EvaluationRow.setInputsHash, EvaluationRow.startsLeft], fun hg => hg⟩
    cases h with
    | pending h hle => exact .pending h hle
    | running h hle => exact .running h hle
    | givenUp h => exact .givenUp h
    | cancelled h => exact .cancelled h
  · have hp : e.id = i ∧ (e.status = .pending ∨ e.status = .running) := decide_eq_true_iff.mp hs
    have := hc.1
    simp [Action.operates, hp.1] at this
  · exact Orphaning.sweep s.now (decide_eq_true_iff.mp hs).1

end Orphaning

/-! ### Runs -/

/-- The row of evaluation `id`, and what `claim_existing` has seen of it. -/
structure OrphanInv (id : Uuid) (s : State) : Prop where
  row : ∀ e, s.db.evaluations.get id = some e → Orphaning e
  copy : ∀ t e, s.phase t = .claiming e → e.id = id →
    e.status = .pending ∨ e.status = .running ∨ e.status = .cancelled ∨ e.status = .failed ∧ s.db.GivenUp id
  norerun : ∀ t, s.phase t ≠ .rerunning id

/-- How often evaluation `id` can still be started. -/
def Db.startsLeft (db : Db) (id : Uuid) : ℕ := (db.evaluations.get id).elim 3 EvaluationRow.startsLeft

section Step

variable {cfg : Config} {id : Uuid} {s s' : State} {a : Action}

/-- No step restarts the evaluation or sets it back to running. -/
theorem OrphanInv.untouched (hI : OrphanInv id s) (hc : CrashesOnly cfg id s a) (hg : LeavesGivenUp cfg id s a) :
    restartOf cfg s a ≠ some id ∧ rerunOf cfg s a ≠ some id := by
  constructor
  · intro h
    rcases restartOf_task h with rfl | ⟨t, e, hp, hid, hst⟩
    · have := hc.1
      simp [Action.operates] at this
    · rcases hI.copy t e hp hid with h' | h' | h' | ⟨-, hgu⟩
      · simp [h'] at hst
      · simp [h'] at hst
      · simp [h'] at hst
      · exact hg hgu h
  · intro h
    obtain ⟨t, hp⟩ := rerunOf_task h
    exact hI.norerun t hp

/-- What a step makes of the evaluation: it creates it, or follows `OrphanStep`. -/
theorem OrphanInv.row_step (hI : OrphanInv id s) (hc : CrashesOnly cfg id s a) (hg : LeavesGivenUp cfg id s a)
    (h : step cfg s a = some s') :
    (s.db.evaluations.get id = none ∧ ∀ e', s'.db.evaluations.get id = some e' → e'.orphanedCount = 0 ∧
      (e'.status = .pending ∨ e'.status = .running)) ∨
    ∃ e e', s.db.evaluations.get id = some e ∧ s'.db.evaluations.get id = some e' ∧ OrphanStep e e' := by
  obtain ⟨hre, hru⟩ := hI.untouched hc hg
  generalize ho : s'.db.evaluations.get id = o
  have hrow := row_of_effect (step_effect h) id
  rw [ho] at hrow
  cases hrow with
  | same =>
    cases he : s.db.evaluations.get id with
    | none => exact .inl ⟨rfl, fun e' he' => by cases he'⟩
    | some e => exact .inr ⟨e, e, rfl, rfl, (hI.row e he).refl⟩
  | created r base hr hcr hid =>
    refine .inl ⟨hid ▸ Db.get_nextId _, fun e' he' => ?_⟩
    cases he'
    refine ⟨rfl, ?_⟩
    show r.status = .pending ∨ r.status = .running
    unfold Request.status
    split_ifs
    · exact .inr rfl
    · exact .inl rfl
  | superseded r new e hr hcr he => exact .inr ⟨e, _, he, rfl, (hI.row e he).supersede _⟩
  | statement q e hq he hs =>
    obtain rfl := Db.id_of_get he
    exact .inr ⟨e, _, he, rfl, (hI.row e he).set hq hc hru hs⟩
  | restarted e hr => exact absurd hr hre
  | recorded jobs e hcommit => exact absurd rfl (hc.2.2 _ hcommit)

theorem OrphanInv.final (hI : OrphanInv id s) (hc : CrashesOnly cfg id s a) (hg : LeavesGivenUp cfg id s a)
    (h : step cfg s a = some s') (hgu : s.db.GivenUp id) : s'.db.GivenUp id := by
  obtain ⟨e₀, he₀, hgu⟩ := hgu
  rcases hI.row_step hc hg h with ⟨hn, -⟩ | ⟨e, e', he, he', hs⟩
  · rw [he₀] at hn
    cases hn
  · rw [he₀] at he
    cases he
    exact ⟨e', he', hs.final hgu⟩

theorem OrphanInv.step (hI : OrphanInv id s) (hc : CrashesOnly cfg id s a) (hg : LeavesGivenUp cfg id s a)
    (h : step cfg s a = some s') : OrphanInv id s' where
  row e' he' := by
    rcases hI.row_step hc hg h with ⟨-, hnew⟩ | ⟨e, e₁, -, he₁, hs⟩
    · obtain ⟨hcount, hst | hst⟩ := hnew e' he'
      · exact .pending hst (by omega)
      · exact .running hst (by omega)
    · rw [he'] at he₁
      cases he₁
      exact hs.row
  copy t e he hid := by
    have old : ∀ e, (s.phase t = .claiming e ∨ s.db.evaluations.get id = some e) → e.id = id →
        e.status = .pending ∨ e.status = .running ∨ e.status = .cancelled ∨ e.status = .failed ∧ s'.db.GivenUp id := by
      rintro e (hp | hp) hid
      · rcases hI.copy t e hp hid with h' | h' | h' | ⟨h', hgu⟩
        · exact .inl h'
        · exact .inr (.inl h')
        · exact .inr (.inr (.inl h'))
        · exact .inr (.inr (.inr ⟨h', hI.final hc hg h hgu⟩))
      · cases hI.row e hp with
        | pending h' => exact .inl h'
        | running h' => exact .inr (.inl h')
        | givenUp h' => exact .inr (.inr (.inr ⟨h'.1, hI.final hc hg h ⟨e, hp, h'⟩⟩))
        | cancelled h' => exact .inr (.inr (.inl h'))
    rcases held_of_step (P := (· = .claiming e)) (fun _ hb h => by cases hb <;> cases h) h he with
      ⟨he, -⟩ | ⟨event, m, -, hm, hp⟩
    · exact old e (.inl he) hid
    · exact old e (.inr (hid ▸ claiming_of_performed hm hp he)) hid
  norerun t hp' := by
    rcases held_of_step (P := (· = .rerunning id)) (fun _ hb h => by cases hb <;> cases h) h hp' with
      ⟨hp', -⟩ | ⟨event, m, -, hm, hp⟩
    · exact hI.norerun t hp'
    · obtain ⟨e, he, hst, hid⟩ := Phase.rerunning_of_leads hm (hp' ▸ hp.leads)
      rcases hI.copy t e he hid with h' | h' | h' | ⟨h', -⟩ <;> simp [h'] at hst

theorem OrphanInv.startsLeft_step (hI : OrphanInv id s) (hc : CrashesOnly cfg id s a)
    (hg : LeavesGivenUp cfg id s a) (h : Evaluator.step cfg s a = some s') :
    s'.db.startsLeft id + (if starts cfg id s a then 1 else 0) ≤ s.db.startsLeft id := by
  have hstart : starts cfg id s a = true ↔ ¬ s.db.Running id ∧ s'.db.Running id := by simp [starts, h]
  rcases hI.row_step hc hg h with ⟨hn, hnew⟩ | ⟨e, e', he, he', hs⟩
  · cases ho : s'.db.evaluations.get id with
    | none => simp [hstart, Db.Running, Db.startsLeft, hn, ho]
    | some e' =>
      obtain ⟨hcount, hst | hst⟩ := hnew e' ho
      · simp [hstart, Db.Running, Db.startsLeft, hn, ho, EvaluationRow.startsLeft, hst]
      · simp [hstart, Db.Running, Db.startsLeft, hn, ho, EvaluationRow.startsLeft, hst, hcount]
  · simpa [hstart, Db.Running, Db.startsLeft, he, he'] using hs.left

end Step

theorem orphanInv_of_idle {id : Uuid} {s : State} (h₀ : s.Idle) (hnew : s.db.evaluations.get id = none) :
    OrphanInv id s where
  row e he := by
    rw [hnew] at he
    cases he
  copy t e hp := by
    rw [h₀ t] at hp
    cases hp
  norerun t hp := by
    rw [h₀ t] at hp
    cases hp

/-- **Giving up is final.** Take any run, from before evaluation `id` exists,
without an operator's action on it, in which no attempt on it comes to its
end, and in which `claim_existing` does not restart it once it is given up.
After the sweep has given it up it is never running again, and it is started
three times at most. -/
theorem giving_up_final {cfg : Config} {id : Uuid} {s₀ s₁ s : State} {as bs : List Action} (h₀ : s₀.Idle)
    (hnew : s₀.db.evaluations.get id = none)
    (hrun : Along cfg (fun s a => CrashesOnly cfg id s a ∧ LeavesGivenUp cfg id s a) s₀ (as ++ bs))
    (h₁ : exec cfg s₀ as = some s₁) (h : exec cfg s₁ bs = some s) :
    (s₁.db.GivenUp id → ¬ s.db.Running id) ∧ Lts.count (step cfg) (starts cfg id) s₀ (as ++ bs) ≤ 3 := by
  have hI₀ := orphanInv_of_idle h₀ hnew
  constructor
  · intro hgu
    have hstep : ∀ s a s', OrphanInv id s ∧ s.db.GivenUp id → CrashesOnly cfg id s a ∧ LeavesGivenUp cfg id s a →
        step cfg s a = some s' → OrphanInv id s' ∧ s'.db.GivenUp id := fun s a s' hI hc hs =>
      ⟨hI.1.step hc.1 hc.2 hs, hI.1.final hc.1 hc.2 hs hI.2⟩
    have hI₁ : OrphanInv id s₁ :=
      Lts.exec_inv (fun _ _ _ hI hc hs => OrphanInv.step hI hc.1 hc.2 hs) hI₀ hrun.append.1 h₁
    obtain ⟨e, he, hst, -⟩ := (Lts.exec_inv hstep ⟨hI₁, hgu⟩ (hrun.append.2 s₁ h₁) h).2
    rintro ⟨e', he', hr⟩
    rw [he] at he'
    cases he'
    rw [hst] at hr
    cases hr
  · have hle := Lts.count_le (fun s => s.db.startsLeft id)
      (fun s a s' (hI : OrphanInv id s) hc hs => ⟨hI.step hc.1 hc.2 hs, hI.startsLeft_step hc.1 hc.2 hs⟩)
      hI₀ hrun ((Lts.exec_append _).mpr ⟨s₁, h₁, h⟩)
    simpa [Db.startsLeft, hnew] using hle

/-- The evaluator dies, and its deadline passes. -/
def crashAndSweep : List Action := [.task 1 .crash, .tick 11, .sweep]

/-- A poll creates evaluation 1, and its evaluator dies three times. -/
def threeCrashes : List Action :=
  [.gitPush 0 "main" (some "a"), .poll 1 0] ++ nexts 1 4 ++ crashAndSweep ++ .drain 1 1 :: nexts 1 1 ++
    crashAndSweep ++ .drain 1 1 :: nexts 1 1 ++ crashAndSweep

/-- The next poll of the same commit, up to `claim_existing`. -/
def pollAgain : List Action := .poll 1 0 :: nexts 1 5

theorem giving_up_final_threeCrashes :
    ∃ s₁ ∈ exec small (withJobset mainJobset) threeCrashes, s₁.db.GivenUp 1 ∧
      ∃ s ∈ exec small s₁ pollAgain, s.db.GivenUp 1 ∧ ¬ s.db.Running 1 ∧
        Lts.count (step small) (starts small 1) (withJobset mainJobset) (threeCrashes ++ pollAgain) ≤ 3 := by
  obtain ⟨s₁, h₁, hgu, s, h, hgu'⟩ : ∃ s₁ ∈ exec small (withJobset mainJobset) threeCrashes, s₁.db.GivenUp 1 ∧
      ∃ s ∈ exec small s₁ pollAgain, s.db.GivenUp 1 := by decide
  have hrun : Along small (fun s a => CrashesOnly small 1 s a ∧ LeavesGivenUp small 1 s a) (withJobset mainJobset)
      (threeCrashes ++ pollAgain) := by decide
  obtain ⟨hfinal, hcount⟩ := giving_up_final (idle_withJobset _) rfl hrun h₁ h
  exact ⟨s₁, h₁, hgu, s, h, hgu', hfinal hgu, hcount⟩

/-- Two statements later the evaluation is running for the fourth time. -/
theorem restarted_after_giving_up :
    Along small (CrashesOnly small 1) (withJobset mainJobset) (threeCrashes ++ pollAgain ++ nexts 1 2) ∧
    (∃ s₁ ∈ exec small (withJobset mainJobset) threeCrashes, s₁.db.GivenUp 1 ∧
      ∃ s ∈ exec small s₁ (pollAgain ++ nexts 1 2), s.db.Running 1) ∧
    Lts.count (step small) (starts small 1) (withJobset mainJobset) (threeCrashes ++ pollAgain ++ nexts 1 2) = 4 := by
  decide

end Evaluator

end Circus
