/-
# Computations that issue commands

A `Trace` is the list of commands a computation has issued and what it ended
with, a value or an error. `Every P` says that each command issued has `P`; for
a sequence it is asked of both parts, of the second at the value of the first
(`every_bind`).
-/
import Mathlib.Control.Basic

structure Trace (κ ε α : Type) where
  issued : List κ
  result : Except ε α

namespace Trace

variable {κ ε α β : Type} {P : κ → Prop}

protected def pure (a : α) : Trace κ ε α := ⟨[], .ok a⟩

protected def bind (t : Trace κ ε α) (f : α → Trace κ ε β) : Trace κ ε β :=
  match t.result with
  | .ok a => ⟨t.issued ++ (f a).issued, (f a).result⟩
  | .error e => ⟨t.issued, .error e⟩

instance : Monad (Trace κ ε) where
  pure := Trace.pure
  bind := Trace.bind

/-- No command. -/
def lift (r : Except ε α) : Trace κ ε α := ⟨[], r⟩

/-- One command, and how it ends. -/
def run (command : κ) (r : Except ε α) : Trace κ ε α := ⟨[command], r⟩

def Every (P : κ → Prop) (t : Trace κ ε α) : Prop := ∀ c ∈ t.issued, P c

@[simp] theorem every_pure (a : α) : Every P (pure a : Trace κ ε α) := fun _ hc => by cases hc

@[simp] theorem every_lift (r : Except ε α) : Every P (lift r : Trace κ ε α) := fun _ hc => by cases hc

@[simp] theorem every_run {command : κ} {r : Except ε α} : Every P (run command r) ↔ P command := by
  simp [Every, run]

theorem every_bind {t : Trace κ ε α} {f : α → Trace κ ε β} :
    Every P (t >>= f) ↔ Every P t ∧ ∀ a, t.result = .ok a → Every P (f a) := by
  change Every P (Trace.bind t f) ↔ _
  unfold Every Trace.bind
  cases t.result with
  | ok => simp only [List.forall_mem_append, Except.ok.injEq, forall_eq']
  | error => simp

theorem result_lift_bind (r : Except ε α) (f : α → Trace κ ε β) :
    (lift r >>= f).result = r >>= fun a => (f a).result := by
  cases r <;> rfl

@[simp] theorem result_lift (r : Except ε α) : (lift r : Trace κ ε α).result = r := rfl

end Trace
