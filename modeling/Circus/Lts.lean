/-
# Executable transition systems

A system is a step function `step : σ → α → Option σ`: the action `a` is not
enabled in `s` when `step s a = none`. `exec` runs a list of actions, `Along`
says that every step of such a run meets a condition on the state before it
and the action taken, and `exec_inv` is the one induction on runs: a property
that every such step preserves holds wherever the run ends. Every prefix of a
run is a run, so "wherever it ends" is "in every state it reaches".
`exec_trail_inv` is the same for properties that speak of the past of a state.

`exec_sim` carries runs of one system to runs of another. `count` counts steps
of a run, and a potential bounds it (`count_le`). `Reaches` is for what some
run can still do: with a measure that an enabled action brings down, a goal
is reached (`reaches_of_measure`).
-/
import Mathlib

namespace Lts

variable {σ α : Type*} (step : σ → α → Option σ)

/-- Run a list of actions. -/
def exec : σ → List α → Option σ
  | s, [] => some s
  | s, a :: as => (step s a).bind fun s' => exec s' as

/-- Every step of the run of `as` from `s` meets `P`. -/
def Along (P : σ → α → Prop) : σ → List α → Prop
  | _, [] => True
  | s, a :: as => P s a ∧ ∀ s', step s a = some s' → Along P s' as

@[simp] theorem exec_nil (s : σ) : exec step s [] = some s := rfl

theorem exec_cons {s s' : σ} {a : α} {as : List α} :
    exec step s (a :: as) = some s' ↔ ∃ s₁, step s a = some s₁ ∧ exec step s₁ as = some s' := by
  simp [exec, Option.bind_eq_some_iff]

theorem exec_append {s s' : σ} : ∀ {as bs : List α}, exec step s (as ++ bs) = some s' ↔
    ∃ s₁, exec step s as = some s₁ ∧ exec step s₁ bs = some s'
  | [], bs => by simp
  | a :: as, bs => by
    rw [List.cons_append, exec_cons]
    constructor
    · rintro ⟨s₁, h1, h2⟩
      obtain ⟨s₂, h3, h4⟩ := exec_append.mp h2
      exact ⟨s₂, (exec_cons step).mpr ⟨s₁, h1, h3⟩, h4⟩
    · rintro ⟨s₂, h1, h2⟩
      obtain ⟨s₁, h3, h4⟩ := (exec_cons step).mp h1
      exact ⟨s₁, h3, exec_append.mpr ⟨s₂, h4, h2⟩⟩

variable {step}

variable {P : σ → α → Prop} {Inv : σ → Prop}

/-- **Invariants of runs.** What every step that meets `P` preserves holds
wherever a run of such steps ends. -/
theorem exec_inv (hstep : ∀ s a s', Inv s → P s a → step s a = some s' → Inv s') :
    ∀ {as : List α} {s s' : σ}, Inv s → Along step P s as → exec step s as = some s' → Inv s'
  | [], s, s', h, _, he => by
    obtain rfl : s = s' := by simpa using he
    exact h
  | a :: as, s, s', h, ha, he => by
    obtain ⟨s₁, h1, h2⟩ := (exec_cons step).mp he
    exact exec_inv hstep (hstep s a s₁ h ha.1 h1) (ha.2 s₁ h1) h2

variable (step) in
/-- The states a run goes through, each with the action taken in it. -/
def trail : σ → List α → List (σ × α)
  | _, [] => []
  | s, a :: as => (s, a) :: (step s a).elim [] fun s' => trail s' as

/-- **Invariants of runs with their past.** `Inv h s` may speak of the steps
`h` that led to `s`. -/
theorem exec_trail_inv {Inv : List (σ × α) → σ → Prop}
    (hstep : ∀ h s a s', Inv h s → P s a → step s a = some s' → Inv (h ++ [(s, a)]) s') :
    ∀ {as : List α} {h : List (σ × α)} {s s' : σ}, Inv h s → Along step P s as → exec step s as = some s' →
      Inv (h ++ trail step s as) s'
  | [], h, s, s', hi, _, he => by
    obtain rfl : s = s' := by simpa using he
    simpa [trail] using hi
  | a :: as, h, s, s', hi, ha, he => by
    obtain ⟨s₁, h1, h2⟩ := (exec_cons step).mp he
    have := exec_trail_inv hstep (hstep h s a s₁ hi ha.1 h1) (ha.2 s₁ h1) h2
    rw [trail, h1, Option.elim_some]
    rwa [List.append_assoc, List.singleton_append] at this

theorem mem_of_mem_trail {x : σ × α} : ∀ {as : List α} {s : σ}, x ∈ trail step s as → x.2 ∈ as
  | a :: as, s, h => by
    rcases List.mem_cons.mp h with rfl | h
    · exact List.mem_cons_self
    · cases hs : step s a with
      | none =>
        rw [hs] at h
        cases h
      | some =>
        rw [hs] at h
        exact List.mem_cons_of_mem _ (mem_of_mem_trail h)

theorem along_cons {s s₁ : σ} {a : α} {as : List α} (h : step s a = some s₁) :
    Along step P s (a :: as) ↔ P s a ∧ Along step P s₁ as :=
  ⟨fun ha => ⟨ha.1, ha.2 s₁ h⟩, fun ha => ⟨ha.1, fun _ hs => Option.some.inj (h.symm.trans hs) ▸ ha.2⟩⟩

instance decidableAlong {P : σ → α → Prop} [∀ s a, Decidable (P s a)] :
    ∀ (s : σ) (as : List α), Decidable (Along step P s as)
  | _, [] => isTrue trivial
  | s, a :: as =>
    match h : step s a with
    | none => decidable_of_iff (P s a) ⟨fun hP => ⟨hP, by simp [h]⟩, fun ha => ha.1⟩
    | some s₁ =>
      have : Decidable (Along step P s₁ as) := decidableAlong s₁ as
      decidable_of_iff (P s a ∧ Along step P s₁ as) (along_cons h).symm

theorem Along.and {Q : σ → α → Prop} : ∀ {as : List α} {s : σ}, Along step P s as → Along step Q s as →
    Along step (fun s a => P s a ∧ Q s a) s as
  | [], _, _, _ => trivial
  | _ :: _, _, h, h' => ⟨⟨h.1, h'.1⟩, fun s' hs => (h.2 s' hs).and (h'.2 s' hs)⟩

theorem Along.of_mem : ∀ {as : List α} {s : σ}, (∀ a ∈ as, ∀ s, P s a) → Along step P s as
  | [], _, _ => trivial
  | _ :: _, s, h => ⟨h _ List.mem_cons_self s, fun _ _ => of_mem fun a ha => h a (List.mem_cons_of_mem _ ha)⟩

theorem Along.append : ∀ {as bs : List α} {s : σ}, Along step P s (as ++ bs) →
    Along step P s as ∧ ∀ s', exec step s as = some s' → Along step P s' bs
  | [], bs, s, h => ⟨trivial, fun s' hs => by
      obtain rfl : s = s' := by simpa using hs
      exact h⟩
  | a :: as, bs, s, h => by
    refine ⟨⟨h.1, fun s' hs => (Along.append (h.2 s' hs)).1⟩, fun s' hs => ?_⟩
    obtain ⟨s₁, h1, h2⟩ := (exec_cons step).mp hs
    exact (Along.append (h.2 s₁ h1)).2 s' h2

/-- **Simulation of runs.** If every step of one system is matched by a run of
another that keeps `R`, so is every run. `Q` follows what the matching actions
have in common. -/
theorem exec_sim {τ β : Type*} {step' : τ → β → Option τ} {R : σ → τ → Prop} {P : α → Prop} {Q : β → Prop}
    (hstep : ∀ s a s' r, R s r → P a → step s a = some s' →
      ∃ bs r', exec step' r bs = some r' ∧ R s' r' ∧ ∀ b ∈ bs, Q b) :
    ∀ {as : List α} {s s' : σ} {r : τ}, R s r → (∀ a ∈ as, P a) → exec step s as = some s' →
      ∃ bs r', exec step' r bs = some r' ∧ R s' r' ∧ ∀ b ∈ bs, Q b
  | [], s, s', r, h, _, he => by
    obtain rfl : s = s' := by simpa using he
    exact ⟨[], r, rfl, h, by simp⟩
  | a :: as, s, s', r, h, hP, he => by
    obtain ⟨s₁, h1, h2⟩ := (exec_cons step).mp he
    obtain ⟨bs, r₁, hbs, hr₁, hQ⟩ := hstep s a s₁ r h (hP a List.mem_cons_self) h1
    obtain ⟨cs, r', hcs, hr', hQ'⟩ := exec_sim hstep hr₁ (fun a ha => hP a (List.mem_cons_of_mem _ ha)) h2
    refine ⟨bs ++ cs, r', (exec_append step').mpr ⟨r₁, hbs, hcs⟩, hr', fun b hb => ?_⟩
    rcases List.mem_append.mp hb with hb | hb
    · exact hQ b hb
    · exact hQ' b hb

/-! ### How often a run does something -/

variable (step) in
/-- The number of steps of the run of `as` from `s` that `p` counts. -/
def count (p : σ → α → Bool) : σ → List α → ℕ
  | _, [] => 0
  | s, a :: as => (if p s a then 1 else 0) + (step s a).elim 0 fun s' => count p s' as

/-- **Counting by a potential.** If no step raises `φ` and each counted step
lowers it, a run has no more counted steps than `φ` had to begin with. -/
theorem count_le {p : σ → α → Bool} (φ : σ → ℕ)
    (hstep : ∀ s a s', Inv s → P s a → step s a = some s' → Inv s' ∧ φ s' + (if p s a then 1 else 0) ≤ φ s) :
    ∀ {as : List α} {s s' : σ}, Inv s → Along step P s as → exec step s as = some s' → count step p s as ≤ φ s
  | [], _, _, _, _, _ => Nat.zero_le _
  | a :: as, s, s', h, ha, he => by
    obtain ⟨s₁, h1, h2⟩ := (exec_cons step).mp he
    obtain ⟨hi, hle⟩ := hstep s a s₁ h ha.1 h1
    have ih := count_le φ hstep hi (ha.2 s₁ h1) h2
    rw [count, h1, Option.elim_some]
    omega

/-! ### What some run does -/

variable (step) in
/-- Some run whose actions all meet `P` goes from `s` to `s'`. -/
def Reaches (P : α → Prop) (s s' : σ) : Prop := ∃ as, (∀ a ∈ as, P a) ∧ exec step s as = some s'

theorem Reaches.refl (P : α → Prop) (s : σ) : Reaches step P s s := ⟨[], by simp, rfl⟩

theorem Reaches.cons {P : α → Prop} {s s₁ s' : σ} {a : α} (ha : P a) (hs : step s a = some s₁)
    (h : Reaches step P s₁ s') : Reaches step P s s' := by
  obtain ⟨as, has, hs'⟩ := h
  exact ⟨a :: as, by simpa using ⟨ha, has⟩, (exec_cons step).mpr ⟨s₁, hs, hs'⟩⟩

theorem Reaches.trans {P : α → Prop} {s s₁ s' : σ} (h : Reaches step P s s₁) (h' : Reaches step P s₁ s') :
    Reaches step P s s' := by
  obtain ⟨as, has, hs₁⟩ := h
  obtain ⟨bs, hbs, hs'⟩ := h'
  refine ⟨as ++ bs, fun a ha => ?_, (exec_append step).mpr ⟨s₁, hs₁, hs'⟩⟩
  exact (List.mem_append.mp ha).elim (has a) (hbs a)

theorem Reaches.mono {P Q : α → Prop} (hPQ : ∀ a, P a → Q a) {s s' : σ} (h : Reaches step P s s') :
    Reaches step Q s s' := by
  obtain ⟨as, has, hs'⟩ := h
  exact ⟨as, fun a ha => hPQ a (has a ha), hs'⟩

theorem Reaches.inv {P : α → Prop}
    (hstep : ∀ s a s', Inv s → P a → step s a = some s' → Inv s') {s s' : σ} (h : Reaches step P s s')
    (hi : Inv s) : Inv s' := by
  obtain ⟨as, has, hs'⟩ := h
  exact exec_inv hstep hi (Along.of_mem fun a ha _ => has a ha) hs'

/-- **Goals within reach.** Where short of the goal some action is enabled that
brings the measure down, some run reaches the goal. -/
theorem reaches_of_measure {P : α → Prop} {goal : σ → Prop} (μ : σ → ℕ)
    (hstep : ∀ s, Inv s → ¬ goal s → ∃ a s', P a ∧ step s a = some s' ∧ Inv s' ∧ μ s' < μ s) {s : σ}
    (hi : Inv s) : ∃ s', Reaches step P s s' ∧ Inv s' ∧ goal s' := by
  generalize hn : μ s = n
  induction n using Nat.strongRecOn generalizing s with
  | _ n ih =>
    by_cases hg : goal s
    · exact ⟨s, .refl P s, hi, hg⟩
    · obtain ⟨a, s₁, ha, hs₁, hi₁, hlt⟩ := hstep s hi hg
      obtain ⟨s', hr, h'⟩ := ih _ (hn ▸ hlt) hi₁ rfl
      exact ⟨s', hr.cons ha hs₁, h'⟩

end Lts
