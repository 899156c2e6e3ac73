/-
# Expanding a list along a graph

The loop `while let Some(a) = queue.pop_front()` that adds to a list what its
members need, and what that needs in turn: `visit a` is what is added for `a` and
what it needs, or nothing where `a` is not to be added. What is `included` is not
added again. A vertex is looked at when it leaves the queue and not when it
enters, so it may be in the queue several times.

`run` runs the loop with a bound on the number of rounds. With finitely many
vertices to be added it ends within as many rounds as there are entries in the
queue and needs of vertices (`run_total`). It adds each vertex once, and what it
adds is the least set that is closed under being needed (`run_isLeast`).
-/
import Mathlib

namespace Expansion

variable {α β : Type*} [DecidableEq α] (visit : α → Option (β × List α))

/-- The loop, for at most `fuel` rounds. -/
def run : ℕ → List α → List α → List β → Option (List β)
  | _, _, [], out => some out
  | 0, _, _ :: _, _ => none
  | fuel + 1, included, a :: queue, out =>
    if a ∈ included then run fuel included queue out
    else
      match visit a with
      | none => run fuel included queue out
      | some (b, needs) => run fuel (a :: included) (queue ++ needs) (out ++ [b])

def needs (a : α) : List α := (visit a).elim [] Prod.snd

/-- What is to be added, and is in the queue or needed in `S`, is in `S`. -/
def Closed (included queue : List α) (S : Set α) : Prop :=
  ∀ a, (visit a).isSome = true → a ∉ included → (a ∈ queue ∨ ∃ b ∈ S, a ∈ needs visit b) → a ∈ S

/-! ### It ends -/

/-- The needs of the vertices that are not included yet. -/
def cost (included : List α) : List α → ℕ
  | [] => 0
  | a :: as => (if a ∈ included then 0 else (needs visit a).length) + cost included as

theorem cost_cons_le (included : List α) (a : α) : ∀ as : List α, cost visit (a :: included) as ≤ cost visit included as
  | [] => le_rfl
  | x :: as => by
    have ih := cost_cons_le included a as
    by_cases hx : x ∈ included
    · simp only [cost, List.mem_cons_of_mem a hx, hx, if_true]
      omega
    · simp only [cost, hx, if_false]
      split_ifs <;> omega

/-- A vertex that is included has its needs paid for. -/
theorem cost_cons_add_le {included : List α} {a : α} (ha : a ∉ included) : ∀ {as : List α}, a ∈ as →
    cost visit (a :: included) as + (needs visit a).length ≤ cost visit included as
  | x :: as, hm => by
    have hle := cost_cons_le visit included a as
    by_cases hx : x = a
    · subst hx
      simp only [cost, List.mem_cons_self, if_true, ha, if_false]
      omega
    · have ih := cost_cons_add_le ha ((List.mem_cons.mp hm).resolve_left fun h => hx h.symm)
      have hiff : x ∈ a :: included ↔ x ∈ included := by simp [hx]
      simp only [cost, hiff]
      omega

variable {visit}

/-- **The loop ends**, where only the vertices of `vertices` are to be added. -/
theorem run_total {vertices : List α} (hv : ∀ a, (visit a).isSome = true → a ∈ vertices) :
    ∀ {fuel : ℕ} {included queue : List α} {out : List β}, queue.length + cost visit included vertices ≤ fuel →
      ∃ out', run visit fuel included queue out = some out'
  | _, _, [], out, _ => ⟨out, by rw [run]⟩
  | 0, _, _ :: _, _, h => by simp at h
  | fuel + 1, included, a :: queue, out, h => by
    rw [List.length_cons] at h
    rw [run]
    split_ifs with ha
    · exact run_total hv (by omega)
    · cases hvis : visit a with
      | none => exact run_total hv (by omega)
      | some x =>
        have hcost := cost_cons_add_le visit ha (hv a (by simp [hvis]))
        have hneeds : needs visit a = x.2 := by simp [needs, hvis]
        rw [hneeds] at hcost
        refine run_total hv ?_
        rw [List.length_append]
        omega

/-! ### What it adds -/

/-- **What the loop adds**: for each vertex of the least closed set one entry. -/
theorem run_isLeast : ∀ {fuel : ℕ} {included queue : List α} {out out' : List β},
    run visit fuel included queue out = some out' →
      ∃ new : List α, out' = out ++ new.filterMap (fun a => (visit a).map Prod.fst) ∧ new.Nodup ∧
        (∀ a ∈ new, a ∉ included ∧ (visit a).isSome = true) ∧
        IsLeast {S | Closed visit included queue S} {a | a ∈ new}
  | _, included, [], out, out', h => by
    rw [run] at h
    refine ⟨[], by simpa using h.symm, List.nodup_nil, by simp, ?_, fun S _ a ha => by cases ha⟩
    rintro a - - (hq | ⟨b, hb, -⟩)
    · cases hq
    · cases hb
  | 0, _, _ :: _, _, _, h => by
    rw [run] at h
    cases h
  | fuel + 1, included, a :: queue, out, out', h => by
    rw [run] at h
    -- a vertex that is not added leaves the sets as they are
    have hskip : a ∈ included ∨ visit a = none → ∀ S, Closed visit included queue S ↔
        Closed visit included (a :: queue) S := by
      intro hno S
      refine ⟨fun hS x hx hi hq => hS x hx hi ?_,
        fun hS x hx hi hq => hS x hx hi (hq.imp_left (List.mem_cons_of_mem a))⟩
      refine hq.imp_left fun hm => (List.mem_cons.mp hm).resolve_left ?_
      rintro rfl
      rcases hno with hno | hno
      · exact hi hno
      · simp [hno] at hx
    by_cases ha : a ∈ included
    · rw [if_pos ha] at h
      obtain ⟨new, hout, hnd, hnew, hleast⟩ := run_isLeast h
      refine ⟨new, hout, hnd, hnew, ?_⟩
      simpa only [hskip (.inl ha)] using hleast
    rw [if_neg ha] at h
    cases hvis : visit a with
    | none =>
      rw [hvis] at h
      obtain ⟨new, hout, hnd, hnew, hleast⟩ := run_isLeast h
      refine ⟨new, hout, hnd, hnew, ?_⟩
      simpa only [hskip (.inr hvis)] using hleast
    | some x =>
      rw [hvis] at h
      have hneeds : needs visit a = x.2 := by simp [needs, hvis]
      obtain ⟨new, hout, hnd, hnew, hclosed, hmin⟩ := run_isLeast h
      refine ⟨a :: new, ?_, ?_, ?_, fun y hy hi hq => ?_, fun S hS y hy => ?_⟩
      · rw [hout, List.filterMap_cons_some (by rw [hvis]; rfl)]
        simp
      · exact List.nodup_cons.mpr ⟨fun hm => (hnew a hm).1 List.mem_cons_self, hnd⟩
      · intro y hy
        rcases List.mem_cons.mp hy with rfl | hy
        · exact ⟨ha, by simp [hvis]⟩
        · exact ⟨fun hm => (hnew y hy).1 (List.mem_cons_of_mem a hm), (hnew y hy).2⟩
      · by_cases hya : y = a
        · exact hya ▸ List.mem_cons_self
        · refine List.mem_cons_of_mem a (hclosed y hy (by simp [hya, hi]) ?_)
          rcases hq with hq | ⟨b, hb, hyb⟩
          · exact .inl (List.mem_append_left _ ((List.mem_cons.mp hq).resolve_left hya))
          · rcases List.mem_cons.mp hb with rfl | hb
            · exact .inl (List.mem_append_right _ (hneeds ▸ hyb))
            · exact .inr ⟨b, hb, hyb⟩
      · have haS : a ∈ S := hS a (by simp [hvis]) ha (.inl List.mem_cons_self)
        rcases List.mem_cons.mp hy with rfl | hy
        · exact haS
        · refine hmin (fun z hz hi hq => hS z hz (fun hm => hi (List.mem_cons_of_mem a hm)) ?_) hy
          rcases hq with hq | hq
          · rcases List.mem_append.mp hq with hq | hq
            · exact .inl (List.mem_cons_of_mem a hq)
            · exact .inr ⟨a, haS, hneeds ▸ hq⟩
          · exact .inr hq

end Expansion
