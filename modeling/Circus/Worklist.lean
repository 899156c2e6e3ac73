/-
# Marking searches

The loop `while let Some(a) = work.pop()` that walks a graph and marks what it
meets: for every neighbour of `a` that can still be marked, mark it and push
it. What can be marked is decided by the marks themselves (`Marking.mark` is
partial, and nothing can be marked twice), so the marks stand in for a set of
visited vertices.

`search` runs the loop with a bound on the number of rounds. It ends within
one round for every vertex that can be marked, plus one (`search_total`);
once it has ended, more rounds change nothing (`search_mono`); and it marks
the vertices that a path of markable vertices leads to, each of them once
(`search_marks`).
-/
import Mathlib

/-- Marks on the vertices of a graph. -/
structure Marking (σ α : Type*) where
  /-- Mark a vertex, where that is possible. -/
  mark : σ → α → Option σ
  next : σ → α → List α
  /-- The vertices marked so far, in order. -/
  log : σ → List α
  isSome_mark : ∀ {s s' a}, mark s a = some s' → ∀ b, (mark s' b).isSome ↔ (mark s b).isSome ∧ b ≠ a
  next_mark : ∀ {s s' a}, mark s a = some s' → next s' = next s
  log_mark : ∀ {s s' a}, mark s a = some s' → log s' = log s ++ [a]

namespace Marking

variable {σ α : Type*} (M : Marking σ α)

/-- Vertex `a` can be marked in `s`. -/
def Markable (s : σ) (a : α) : Prop := (M.mark s a).isSome

/-- Mark and push what can be marked, in order; what is pushed last is on top. -/
def pushAll : σ → List α → List α → σ × List α
  | s, [], work => (s, work)
  | s, a :: as, work =>
    match M.mark s a with
    | some s' => pushAll s' as (a :: work)
    | none => pushAll s as work

/-- The loop, for at most `fuel` rounds. -/
def search : ℕ → σ → List α → Option σ
  | _, s, [] => some s
  | 0, _, _ :: _ => none
  | fuel + 1, s, a :: work => search fuel (M.pushAll s (M.next s a) work).1 (M.pushAll s (M.next s a) work).2

variable {M}

/-- Once the loop has ended, more rounds change nothing. -/
theorem search_mono : ∀ {n m : ℕ} {s s' : σ} {work : List α}, n ≤ m → M.search n s work = some s' →
    M.search m s work = some s'
  | _, _, s, s', [], _, h => by
    rw [search] at h ⊢
    exact h
  | 0, _, _, _, _ :: _, _, h => by
    rw [search] at h
    cases h
  | n + 1, m, s, s', a :: work, hle, h => by
    obtain ⟨m, rfl⟩ : ∃ k, m = k + 1 := ⟨m - 1, by omega⟩
    rw [search] at h ⊢
    exact search_mono (by omega) h

/-! ### One round -/

/-- What a round keeps: the graph, and that each push is one mark. -/
structure Round (M : Marking σ α) (s : σ) (work : List α) (as : List α) (s' : σ) (work' : List α) : Prop where
  next : M.next s' = M.next s
  /-- the vertices marked in this round -/
  log : ∃ new, M.log s' = M.log s ++ new ∧ (∀ a, a ∈ work' ↔ a ∈ new ∨ a ∈ work) ∧ new.Nodup ∧
    work'.length = work.length + new.length ∧ ∀ a, a ∈ new ↔ a ∈ as ∧ M.Markable s a
  markable : ∀ b, M.Markable s' b ↔ M.Markable s b ∧ b ∉ as

theorem round_pushAll : ∀ (as : List α) (s : σ) (work : List α),
    M.Round s work as (M.pushAll s as work).1 (M.pushAll s as work).2
  | [], s, work => ⟨rfl, ⟨[], by simp [pushAll]⟩, by simp [pushAll]⟩
  | a :: as, s, work => by
    rw [pushAll]
    cases hm : M.mark s a with
    | none =>
      have ih := round_pushAll as s work
      have ha : ¬ M.Markable s a := by simp [Markable, hm]
      obtain ⟨new, h1, h2, h3, h4, h5⟩ := ih.log
      refine ⟨ih.next, ⟨new, h1, h2, h3, h4, fun b => ?_⟩, fun b => ?_⟩
      · rw [h5, List.mem_cons]
        exact ⟨fun h => ⟨Or.inr h.1, h.2⟩, fun h => ⟨h.1.resolve_left fun hb => ha (hb ▸ h.2), h.2⟩⟩
      · rw [ih.markable, List.mem_cons, not_or]
        exact ⟨fun h => ⟨h.1, fun hb => ha (hb ▸ h.1), h.2⟩, fun h => ⟨h.1, h.2.2⟩⟩
    | some s₁ =>
      have ih := round_pushAll as s₁ (a :: work)
      have hs := M.isSome_mark hm
      have ha : M.Markable s a := by simp [Markable, hm]
      obtain ⟨new, h1, h2, h3, h4, h5⟩ := ih.log
      have hnew : ∀ b, b ∈ new ↔ b ∈ as ∧ M.Markable s b ∧ b ≠ a := fun b => by
        rw [h5]
        exact and_congr_right fun _ => hs b
      refine ⟨ih.next.trans (M.next_mark hm), ⟨a :: new, ?_, fun b => ?_, ?_, ?_, fun b => ?_⟩, fun b => ?_⟩
      · rw [h1, M.log_mark hm, List.append_assoc, List.singleton_append]
      · rw [h2, List.mem_cons, List.mem_cons]
        tauto
      · exact List.nodup_cons.mpr ⟨fun h => ((hnew a).mp h).2.2 rfl, h3⟩
      · simp only [h4, List.length_cons]
        omega
      · rw [List.mem_cons, hnew, List.mem_cons]
        by_cases hb : b = a
        · simp [hb, ha]
        · simp [hb]
      · rw [ih.markable, List.mem_cons, not_or]
        exact ⟨fun h => ⟨((hs b).mp h.1).1, ((hs b).mp h.1).2, h.2⟩, fun h => ⟨(hs b).mpr ⟨h.1, h.2.1⟩, h.2.2⟩⟩

/-! ### The whole search -/

/-- Each push is paid for by a mark. -/
theorem measure_pushAll (μ : σ → ℕ) (hμ : ∀ {s s' a}, M.mark s a = some s' → μ s' < μ s) :
    ∀ (as : List α) (s : σ) (work : List α),
      μ (M.pushAll s as work).1 + (M.pushAll s as work).2.length ≤ μ s + work.length
  | [], _, _ => le_rfl
  | a :: as, s, work => by
    rw [pushAll]
    cases hm : M.mark s a with
    | none => exact measure_pushAll μ hμ as s work
    | some s' =>
      have h1 := measure_pushAll μ hμ as s' (a :: work)
      have h2 := hμ hm
      simp only [List.length_cons] at h1 ⊢
      omega

theorem pushAll_inv {P : σ → Prop} (hP : ∀ {s s' a}, P s → M.mark s a = some s' → P s') :
    ∀ (as : List α) {s : σ} {work : List α}, P s → P (M.pushAll s as work).1
  | [], _, _, h => h
  | a :: as, s, work, h => by
    rw [pushAll]
    cases hm : M.mark s a with
    | none => exact pushAll_inv hP as h
    | some => exact pushAll_inv hP as (hP h hm)

/-- **The search ends.** A measure of what is left to be marked, plus the work
there is to begin with, bounds the rounds. -/
theorem search_total (μ : σ → ℕ) (hμ : ∀ {s s' a}, M.mark s a = some s' → μ s' < μ s) :
    ∀ {fuel : ℕ} {s : σ} {work : List α}, μ s + work.length ≤ fuel → ∃ s', M.search fuel s work = some s'
  | _, s, [], _ => ⟨s, by rw [search]⟩
  | 0, _, _ :: _, h => by simp at h
  | fuel + 1, s, a :: work, h => by
    rw [search]
    have hround := measure_pushAll μ hμ (M.next s a) s work
    rw [List.length_cons] at h
    exact search_total μ hμ (by omega)

/-- What every mark keeps, the search keeps. -/
theorem search_inv {P : σ → Prop} (hP : ∀ {s s' a}, P s → M.mark s a = some s' → P s') :
    ∀ {fuel : ℕ} {s s' : σ} {work : List α}, P s → M.search fuel s work = some s' → P s'
  | _, s, s', [], h, hs => by
    rw [search] at hs
    cases hs
    exact h
  | 0, _, _, _ :: _, _, hs => by
    rw [search] at hs
    cases hs
  | fuel + 1, s, s', a :: work, h, hs => by
    rw [search] at hs
    exact search_inv hP (pushAll_inv hP _ h) hs

/-- An edge of the graph of `s` into a vertex that can be marked there. -/
def Edge (M : Marking σ α) (s : σ) (a b : α) : Prop := b ∈ M.next s a ∧ M.Markable s b

/-- What holds whenever a round begins of a search from `root` that began in
`s₀` and has marked `new`: what is marked is within reach, and what it leads
to is marked as well, or it is still to be visited. -/
structure Searching (M : Marking σ α) (s₀ : σ) (root : α) (s : σ) (work new : List α) : Prop where
  next : M.next s = M.next s₀
  log : M.log s = M.log s₀ ++ new
  nodup : new.Nodup
  markable : ∀ b, M.Markable s b ↔ M.Markable s₀ b ∧ b ∉ new
  reached : ∀ a ∈ new, Relation.TransGen (M.Edge s₀) root a
  todo : ∀ a ∈ work, a = root ∨ a ∈ new
  closed : ∀ a, a = root ∨ a ∈ new → a ∈ work ∨ ∀ b, M.Edge s₀ a b → b ∈ new

theorem Searching.start (M : Marking σ α) (s : σ) (root : α) : M.Searching s root s [root] [] where
  next := rfl
  log := (List.append_nil _).symm
  nodup := List.nodup_nil
  markable := by simp
  reached := by simp
  todo := by simp
  closed := by simp

theorem Searching.round {s₀ s : σ} {root a : α} {work marked : List α}
    (h : M.Searching s₀ root s (a :: work) marked) : ∃ marked',
    M.Searching s₀ root (M.pushAll s (M.next s a) work).1 (M.pushAll s (M.next s a) work).2 marked' := by
  have hr := round_pushAll (M := M) (M.next s a) s work
  obtain ⟨new, hlog, hwork, hnodup, -, hnew⟩ := hr.log
  have hfresh : ∀ b ∈ new, b ∉ marked := fun b hb => ((h.markable b).mp ((hnew b).mp hb).2).2
  -- a new mark is an edge away from `a`, and so within the reach of the root
  have hedge : ∀ b ∈ new, M.Edge s₀ a b := fun b hb =>
    ⟨h.next ▸ ((hnew b).mp hb).1, ((h.markable b).mp ((hnew b).mp hb).2).1⟩
  refine ⟨marked ++ new, hr.next.trans h.next, ?_, ?_, fun b => ?_, fun b hb => ?_, fun b hb => ?_,
    fun b hb => ?_⟩
  · rw [hlog, h.log, List.append_assoc]
  · exact h.nodup.append hnodup fun b hb hb' => hfresh b hb' hb
  · rw [hr.markable, h.markable, List.mem_append, not_or]
    constructor
    · rintro ⟨⟨h1, h2⟩, h3⟩
      exact ⟨h1, h2, fun hb => h3 ((hnew b).mp hb).1⟩
    · rintro ⟨h1, h2, h3⟩
      exact ⟨⟨h1, h2⟩, fun hb => h3 ((hnew b).mpr ⟨hb, (h.markable b).mpr ⟨h1, h2⟩⟩)⟩
  · rcases List.mem_append.mp hb with hb | hb
    · exact h.reached b hb
    · rcases h.todo a List.mem_cons_self with rfl | ha
      · exact .single (hedge b hb)
      · exact (h.reached a ha).tail (hedge b hb)
  · rcases (hwork b).mp hb with hb | hb
    · exact .inr (List.mem_append_right _ hb)
    · exact (h.todo b (List.mem_cons_of_mem _ hb)).imp_right (List.mem_append_left _)
  · -- only `a` leaves the work, with all that it leads to marked by now
    have hall : ∀ c, M.Edge s₀ a c → c ∈ marked ++ new := fun c hc => by
      by_cases hm : c ∈ marked
      · exact List.mem_append_left _ hm
      · exact List.mem_append_right _ ((hnew c).mpr ⟨h.next ▸ hc.1, (h.markable c).mpr ⟨hc.2, hm⟩⟩)
    by_cases hnb : b ∈ new
    · exact .inl ((hwork b).mpr (Or.inl hnb))
    · have hb' : b = root ∨ b ∈ marked := hb.imp_right fun hb => (List.mem_append.mp hb).resolve_right hnb
      rcases h.closed b hb' with hb | hb
      · rcases List.mem_cons.mp hb with rfl | hb
        · exact .inr hall
        · exact .inl ((hwork b).mpr (Or.inr hb))
      · exact .inr fun c hc => List.mem_append_left _ (hb c hc)

theorem Searching.search : ∀ {fuel : ℕ} {s₀ s s' : σ} {root : α} {work marked : List α},
    M.Searching s₀ root s work marked → M.search fuel s work = some s' →
      ∃ marked', M.Searching s₀ root s' [] marked'
  | _, _, s, s', _, [], marked, h, hs => by
    rw [Marking.search] at hs
    cases hs
    exact ⟨marked, h⟩
  | 0, _, _, _, _, _ :: _, _, _, hs => by
    rw [Marking.search] at hs
    cases hs
  | fuel + 1, _, _, _, _, _ :: _, _, h, hs => by
    rw [Marking.search] at hs
    obtain ⟨marked', h'⟩ := h.round
    exact h'.search hs

/-- **What a search marks.** It marks each vertex that markable vertices lead
to from `root`, once, and nothing else. -/
theorem search_marks {fuel : ℕ} {s s' : σ} {root : α} (h : M.search fuel s [root] = some s') :
    ∃ marked, M.log s' = M.log s ++ marked ∧ marked.Nodup ∧
      (∀ a, a ∈ marked ↔ Relation.TransGen (M.Edge s) root a) ∧
      ∀ a, M.Markable s' a ↔ M.Markable s a ∧ a ∉ marked := by
  obtain ⟨marked, hm⟩ := (Searching.start M s root).search h
  have hclosed : ∀ a b, a = root ∨ a ∈ marked → M.Edge s a b → b ∈ marked := fun a b ha hb =>
    (hm.closed a ha).elim (fun h => by cases h) fun h => h b hb
  refine ⟨marked, hm.log, hm.nodup, fun a => ⟨hm.reached a, fun ha => ?_⟩, hm.markable⟩
  induction ha with
  | single hb => exact hclosed root _ (Or.inl rfl) hb
  | tail _ hb ih => exact hclosed _ _ (Or.inr ih) hb

end Marking
