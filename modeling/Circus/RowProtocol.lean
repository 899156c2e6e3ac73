/-
# One build row

The statements on one row of `builds`, in any interleaving: worker tasks
(`start`, then `requeue`, `retry` or `complete`), scheduler loops
(`mark_build_done`: `start` with its result ignored, then `complete`), the
operator (`cancel`, `restart`), supersession and the orphan sweep. A worker
reports only on a row its own `start` returned, and a loop settles only a
build it has read as pending; nothing else is assumed of either, and there
may be any number of both.

`start`, `requeue` and the two cancellations look at the status before they
write; `retry` and `complete` do not. `cancelled_until_restart_iff`: a
cancelled row stays cancelled until a restart in exactly those runs in which
no `retry` reaches it, and no `complete` with another status.
`cancelled_then_succeeded` is a run in which one does.
-/
import Circus.Lts
import Circus.Queries

namespace Circus.RowProtocol

open Lts

structure State where
  row : Build
  now : Time := 0
  /-- the worker tasks whose own `start` returned the row -/
  claimed : ℕ → Bool := fun _ => false
  /-- the loops that have read the row as pending -/
  listed : ℕ → Bool := fun _ => false
  /-- the loops between the two statements of `mark_build_done` -/
  marking : ℕ → Bool := fun _ => false

inductive Action
  | tick (secs : Time)
  | setEffectiveFeatures (features : List String)
  /-- `free`: no running twin, and the locks are to be had -/
  | start (worker : ℕ) (free : Bool)
  | requeue
  | retry (worker : ℕ)
  | complete (worker : ℕ) (c : Completion)
  | list (loop : ℕ)
  | markStart (loop : ℕ) (free : Bool)
  | markComplete (loop : ℕ) (c : Completion)
  | cancel
  | cancelSuperseded (supersededBy : Uuid)
  | resetOrphaned (olderThanSecs : Time)
  | restart

/-- The row after a `start`: claimed if it is pending. -/
def started (free : Bool) (now : Time) (b : Build) : Build :=
  if b.status = .pending ∧ free = true then b.claim now else b

def completed (now : Time) (c : Completion) (b : Build) : Build :=
  b.complete now c.status c.logPath c.buildOutputPath c.errorMessage

/-- One statement. -/
def step (s : State) : Action → Option State
  | .tick secs => some { s with now := s.now + secs }
  | .setEffectiveFeatures fs => some { s with row := s.row.setEffectiveFeatures fs }
  | .start w free =>
    some { s with
      row := started free s.now s.row
      claimed := if s.row.status = .pending ∧ free = true then Function.update s.claimed w true else s.claimed }
  | .requeue => some { s with row := s.row.requeue }
  | .retry w => if s.claimed w then some { s with row := s.row.retry } else none
  | .complete w c => if s.claimed w then some { s with row := completed s.now c s.row } else none
  | .list l =>
    if s.row.status = .pending then some { s with listed := Function.update s.listed l true } else none
  | .markStart l free =>
    if s.listed l then
      some { s with row := started free s.now s.row, marking := Function.update s.marking l true }
    else none
  | .markComplete l c =>
    if s.marking l then
      some { s with row := completed s.now c s.row, marking := Function.update s.marking l false }
    else none
  | .cancel => some { s with row := s.row.cancel s.now }
  | .cancelSuperseded e => some { s with row := s.row.cancelSuperseded s.now e }
  | .resetOrphaned secs =>
    some { s with row := if s.row.orphaned s.now secs then s.row.resetOrphaned else s.row }
  | .restart => some { s with row := s.row.restart }

/-- The row is not cancelled when a `retry` reaches it, nor when a `complete`
with another status does. -/
def Guarded (s : State) : Action → Prop
  | .retry _ => s.row.status ≠ .cancelled
  | .complete _ c | .markComplete _ c => s.row.status = .cancelled → c.status = .cancelled
  | _ => True

instance (s : State) (a : Action) : Decidable (Guarded s a) := by
  unfold Guarded
  split <;> infer_instance

/-- Along the run of `as` from `s`, once the row is cancelled it stays so
until the next restart. -/
def CancelledUntilRestart (s : State) (as : List Action) : Prop :=
  ∀ pre mid post s₁ s₂, as = pre ++ mid ++ post → exec step s pre = some s₁ → s₁.row.status = .cancelled →
    .restart ∉ mid → exec step s₁ mid = some s₂ → s₂.row.status = .cancelled

/-- One statement other than `restart` keeps a cancelled row cancelled exactly
if it is guarded. -/
theorem step_cancelled {s s' : State} {a : Action} (hc : s.row.status = .cancelled) (ha : a ≠ .restart)
    (h : step s a = some s') : s'.row.status = .cancelled ↔ Guarded s a := by
  cases a with
  | tick => cases h; simpa [Guarded] using hc
  | setEffectiveFeatures => cases h; simpa [Guarded, Build.setEffectiveFeatures] using hc
  | start => cases h; simp [Guarded, started, hc]
  | requeue => cases h; simp [Guarded, Build.requeue, hc]
  | cancel => cases h; simp [Guarded, Build.cancel, hc]
  | cancelSuperseded => cases h; simp [Guarded, Build.cancelSuperseded, hc]
  | resetOrphaned => cases h; simp [Guarded, Build.orphaned, hc]
  | restart => exact absurd rfl ha
  | retry | complete | list | markStart | markComplete =>
    simp only [step] at h
    split at h <;> cases h
    simp_all [Guarded, Build.retry, completed, Build.complete, started]

theorem CancelledUntilRestart.tail {s s₁ : State} {a : Action} {as : List Action}
    (h : CancelledUntilRestart s (a :: as)) (ha : step s a = some s₁) : CancelledUntilRestart s₁ as := by
  intro pre mid post s₂ s₃ has hpre
  exact h (a :: pre) mid post s₂ s₃ (by rw [has]; rfl) ((exec_cons step).mpr ⟨s₁, ha, hpre⟩)

theorem CancelledUntilRestart.guarded : ∀ {as : List Action} {s s' : State}, exec step s as = some s' →
    CancelledUntilRestart s as → Along step Guarded s as
  | [], _, _, _, _ => trivial
  | a :: as, s, s', he, h => by
    obtain ⟨s₁, h1, h2⟩ := (exec_cons step).mp he
    refine ⟨?_, fun s₁' h1' => ?_⟩
    · by_cases hc : s.row.status = .cancelled
      · by_cases ha : a = .restart
        · subst ha; trivial
        · have hs₁ := h [] [a] as s s₁ rfl rfl hc (by simpa using Ne.symm ha)
            ((exec_cons step).mpr ⟨s₁, h1, rfl⟩)
          exact (step_cancelled hc ha h1).mp hs₁
      · cases a <;> simp [Guarded, hc]
    · obtain rfl : s₁ = s₁' := Option.some.inj (h1.symm.trans h1')
      exact (h.tail h1).guarded h2

theorem cancelledUntilRestart_of_guarded {s : State} {as : List Action} (h : Along step Guarded s as) :
    CancelledUntilRestart s as := by
  rintro pre mid post s₁ s₂ rfl hpre hc hmid he
  have hG : Along step Guarded s₁ mid := h.append.1.append.2 s₁ hpre
  have hR : Along step (fun _ a => a ≠ Action.restart) s₁ mid := .of_mem fun a ha _ h => hmid (h ▸ ha)
  exact exec_inv (fun s a s' hc hP h => (step_cancelled hc hP.2 h).mpr hP.1) hc (hG.and hR) he

/-- **Cancellation is final until a restart exactly in the guarded runs.** -/
theorem cancelled_until_restart_iff {s s' : State} {as : List Action} (h : exec step s as = some s') :
    CancelledUntilRestart s as ↔ Along step Guarded s as :=
  ⟨fun hc => hc.guarded h, cancelledUntilRestart_of_guarded⟩

/-- A pending row nobody has touched. -/
def demoRow : Build := { id := 1, evaluationId := 1, drvPath := "a.drv" }

/-- A worker reports, and only then the operator restarts and cancels: a
guarded run. -/
theorem cancelled_until_restart_reported : CancelledUntilRestart { row := demoRow }
    [.start 0 true, .complete 0 (succeededBy none none), .restart, .cancel, .start 1 true, .requeue] :=
  (cancelled_until_restart_iff rfl).mpr (by decide)

/-- The operator cancels a build while its worker executes it; the worker's
`complete` makes it a success, with no restart in between. -/
theorem cancelled_then_succeeded : ∃ s₁ s₂,
    exec step { row := demoRow } [.start 0 true, .cancel] = some s₁ ∧ s₁.row.status = .cancelled ∧
    exec step s₁ [.complete 0 (succeededBy none none)] = some s₂ ∧ s₂.row.status = .succeeded :=
  ⟨_, _, rfl, rfl, rfl, rfl⟩

end Circus.RowProtocol
