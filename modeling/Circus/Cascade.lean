/-
# Cascading cancellation

`cancel_cascade` of `crates/common/src/repo/builds.rs` cancels a build, then
walks the dependency edges backwards from it and cancels the dependents it
meets. The stack of builds whose dependents are still to be looked at gets
only what `cancel` has returned, so the walk is a marking search whose marks
are the cancellations.

`cancel_cascade_exact`: it ends on every graph, cycles included, returns each
build it has cancelled once, cancels only builds within reach of the target,
and leaves no pending or running dependent of it exactly if each of those is
reached through builds that are pending or running themselves. The walk does
not go on behind a finished build, and `finished_dependent_shields` leaves a
pending build behind one.
-/
import Circus.Queries
import Circus.Worklist

namespace Circus

/-- `cancel` takes the build. -/
def Build.cancellable (b : Build) : Bool := decide (b.status = .pending ∨ b.status = .running)

namespace Builds

/-- `cancel` with the row it returns, if there is one to cancel. -/
def cancelReturning (now : Time) (id : Uuid) (db : Db) : Option (Build × Db) :=
  ((db.builds.get id).filter Build.cancellable).map fun b => (b.cancel now, cancel now id db)

def cancelCascadeDependents (dependencyBuildId : Uuid) (db : Db) : List Uuid :=
  (db.buildDependencies.filter fun d => decide (d.2 = dependencyBuildId)).map (·.1)

end Builds

/-- The database and the rows `cancel` has returned so far. -/
structure Cascade where
  db : Db
  cancelled : List Build := []

/-- The build is pending or running. -/
def Db.Active (db : Db) (k : Uuid) : Prop := db.status k = some .pending ∨ db.status k = some .running

instance (db : Db) (k : Uuid) : Decidable (db.Active k) := inferInstanceAs (Decidable (_ ∨ _))

/-- Build `b` depends on build `a`. -/
def Db.Dependent (db : Db) (a b : Uuid) : Prop := (b, a) ∈ db.buildDependencies

theorem Db.active_iff {db : Db} {k : Uuid} :
    db.Active k ↔ ∃ b, db.builds.get k = some b ∧ b.cancellable = true := by
  unfold Db.Active Build.cancellable
  rw [Db.status_eq_some, Db.status_eq_some, ← exists_or]
  exact exists_congr fun b => by simp [and_or_left]

namespace Builds

variable {id : Uuid} {db : Db}

theorem cancelReturning_eq_some {now : Time} {r : Build × Db} :
    cancelReturning now id db = some r ↔
      ∃ b, db.builds.get id = some b ∧ b.cancellable = true ∧ r = (b.cancel now, cancel now id db) := by
  unfold cancelReturning
  simp only [Option.map_eq_some_iff, Option.filter_eq_some_iff, and_assoc]
  exact exists_congr fun b => and_congr_right fun _ => and_congr_right fun _ => eq_comm

theorem isSome_cancelReturning {now : Time} :
    (cancelReturning now id db).isSome ↔ db.Active id := by
  rw [Db.active_iff, Option.isSome_iff_exists]
  simp [cancelReturning_eq_some]

theorem mem_cancelCascadeDependents {a b : Uuid} :
    b ∈ cancelCascadeDependents a db ↔ db.Dependent a b := by
  simp [cancelCascadeDependents, Db.Dependent]

theorem get_cancel (now : Time) (id : Uuid) (db : Db) (k : Uuid) : (cancel now id db).builds.get k =
    if k = id then (db.builds.get k).map (Build.cancel now) else db.builds.get k :=
  Db.get_updateBuild db id _ _ k

/-- A cancelled build is not active any more, and no other is touched. -/
theorem active_cancel {now : Time} (k : Uuid) :
    (cancel now id db).Active k ↔ db.Active k ∧ k ≠ id := by
  by_cases hk : k = id
  · subst hk
    simp only [ne_eq, not_true, and_false, iff_false, Db.active_iff, get_cancel, if_true]
    rintro ⟨b, hb, hc⟩
    obtain ⟨b₀, -, rfl⟩ := Option.map_eq_some_iff.mp hb
    unfold Build.cancellable Build.cancel at hc
    split_ifs at hc with h
    · simp at hc
    · simp [h] at hc
  · rw [Db.active_iff, Db.active_iff, get_cancel, if_neg hk]
    exact ⟨fun h => ⟨h, hk⟩, fun h => h.1⟩

end Builds

namespace Cascade

/-- Cancelling as marking: a build is marked by a `cancel` that returns it. -/
def marking (now : Time) : Marking Cascade Uuid where
  mark s id := (Builds.cancelReturning now id s.db).map fun r => { db := r.2, cancelled := s.cancelled ++ [r.1] }
  next s id := Builds.cancelCascadeDependents id s.db
  log s := s.cancelled.map (·.id)
  isSome_mark h b := by
    obtain ⟨r, hr, rfl⟩ := Option.map_eq_some_iff.mp h
    obtain ⟨-, -, -, rfl⟩ := Builds.cancelReturning_eq_some.mp hr
    simp only [Option.isSome_map, Builds.isSome_cancelReturning]
    exact Builds.active_cancel b
  next_mark h := by
    obtain ⟨r, hr, rfl⟩ := Option.map_eq_some_iff.mp h
    obtain ⟨-, -, -, rfl⟩ := Builds.cancelReturning_eq_some.mp hr
    rfl
  log_mark h := by
    obtain ⟨r, hr, rfl⟩ := Option.map_eq_some_iff.mp h
    obtain ⟨b, hb, -, rfl⟩ := Builds.cancelReturning_eq_some.mp hr
    have hid : (b.cancel now).id = b.id := congrArg Job.id (Build.toJob_cancel now b)
    simp [hid, Db.id_of_get hb]

end Cascade

namespace Builds

/-- `cancel_cascade`, for at most `fuel` builds taken from the stack. -/
def cancelCascade (fuel : ℕ) (now : Time) (id : Uuid) (db : Db) : Option Cascade :=
  let s : Cascade := ((Cascade.marking now).mark { db := db } id).getD { db := db }
  (Cascade.marking now).search fuel s [id]

end Builds

namespace Cascade

variable {now : Time}

variable {s s' : Cascade} {id : Uuid}

theorem mark_eq_some : (marking now).mark s id = some s' ↔
    ∃ b, s.db.builds.get id = some b ∧ b.cancellable = true ∧
      s' = { db := Builds.cancel now id s.db, cancelled := s.cancelled ++ [b.cancel now] } := by
  constructor
  · intro h
    obtain ⟨r, hr, rfl⟩ := Option.map_eq_some_iff.mp h
    obtain ⟨b, hb, hc, rfl⟩ := Builds.cancelReturning_eq_some.mp hr
    exact ⟨b, hb, hc, rfl⟩
  · rintro ⟨b, hb, hc, rfl⟩
    exact Option.map_eq_some_iff.mpr ⟨_, Builds.cancelReturning_eq_some.mpr ⟨b, hb, hc, rfl⟩, rfl⟩

theorem markable_iff : (marking now).Markable s id ↔ s.db.Active id := by
  unfold Marking.Markable marking
  rw [Option.isSome_map]
  exact Builds.isSome_cancelReturning

/-- Every cancellation leaves one build fewer to cancel. -/
theorem measure_mark (h : (marking now).mark s id = some s') :
    (s'.db.builds.select Build.cancellable).length < (s.db.builds.select Build.cancellable).length := by
  obtain ⟨b, hb, hc, rfl⟩ := mark_eq_some.mp h
  have hcancel : ∀ b : Build, (b.cancel now).cancellable = false := fun b => by
    unfold Build.cancel Build.cancellable
    split_ifs with h <;> simp [h]
  have hkey : ∀ b : Build, (b.cancel now).id = b.id := fun b => congrArg Job.id (Build.toJob_cancel now b)
  refine @Table.length_select_update_lt _ _ _ s.db.builds _ _ _ hkey (fun r hr => ?_) b (Table.mem_of_get hb) hc ?_
  · split_ifs at hr
    · rw [hcancel] at hr
      cases hr
    · exact hr
  · rw [if_pos (decide_eq_true (Db.id_of_get hb)), hcancel]

/-- What a cascade has done to `db` by now: the builds it returns are
cancelled, and nothing else is changed. -/
structure Of (now : Time) (db : Db) (s : Cascade) : Prop where
  frame : db.Frame s.db
  row : ∀ k, s.db.builds.get k =
    if k ∈ s.cancelled.map (·.id) then (db.builds.get k).map (Build.cancel now) else db.builds.get k
  returned : ∀ b ∈ s.cancelled, s.db.builds.get b.id = some b ∧ b.status = .cancelled ∧ db.Active b.id

theorem Of.mark {db : Db} (h : Of now db s)
    (hm : (marking now).mark s id = some s') : Of now db s' := by
  obtain ⟨b, hb, hc, rfl⟩ := mark_eq_some.mp hm
  have hid : (b.cancel now).id = id := (congrArg Job.id (Build.toJob_cancel now b)).trans (Db.id_of_get hb)
  have hst : (b.cancel now).status = .cancelled := by
    unfold Build.cancel
    rw [if_pos (of_decide_eq_true hc)]
  -- a build that was returned before is cancelled, so it is not this one
  have hne : ∀ b' ∈ s.cancelled, b'.id ≠ id := fun b' hb' he => by
    obtain ⟨h1, h2, -⟩ := h.returned b' hb'
    rw [he, hb, Option.some.injEq] at h1
    rw [← h1] at h2
    simp [Build.cancellable, h2] at hc
  have hnew : id ∉ s.cancelled.map (·.id) := fun hi => by
    obtain ⟨b', hb', he⟩ := List.mem_map.mp hi
    exact hne b' hb' he
  have hb₀ : db.builds.get id = some b := by
    rw [← hb, h.row id, if_neg hnew]
  refine ⟨h.frame.trans (Db.frame_updateBuild s.db id _ (Build.toJob_cancel now)), fun k => ?_, fun b' hb' => ?_⟩
  · rw [Builds.get_cancel, h.row k]
    by_cases hk : k = id
    · subst hk
      simp [hnew, hid]
    · simp [hk, hid]
  · rw [Builds.get_cancel]
    rcases List.mem_append.mp hb' with hb' | hb'
    · rw [if_neg (hne b' hb')]
      exact h.returned b' hb'
    · obtain rfl := List.mem_singleton.mp hb'
      rw [hid, if_pos rfl, hb]
      exact ⟨rfl, hst, Db.active_iff.mpr ⟨b, hb₀, hc⟩⟩

end Cascade

/-- A path may be cut at the last time it is where it began. -/
theorem transGen_avoiding {α : Type*} {r : α → α → Prop} {a b : α} (h : Relation.TransGen r a b) (hb : b ≠ a) :
    Relation.TransGen (fun x y => r x y ∧ y ≠ a) a b := by
  induction h with
  | single hr => exact .single ⟨hr, hb⟩
  | @tail c d _ hr ih =>
    by_cases hc : c = a
    · subst hc
      exact .single ⟨hr, hb⟩
    · exact (ih hc).tail ⟨hr, hb⟩

namespace Builds

/-- Build `b` depends on `a` and is pending or running. -/
def ActiveDependent (db : Db) (a b : Uuid) : Prop := db.Dependent a b ∧ db.Active b

/-- The builds a cascade cancels: the target and what active builds lead to. -/
theorem mem_cascade {now : Time} {t : Uuid} {db : Db} {fuel : ℕ} {s' : Cascade} (ht : db.Active t)
    (h : cancelCascade fuel now t db = some s') : (s'.cancelled.map (·.id)).Nodup ∧ Cascade.Of now db s' ∧
      ∀ k, k ∈ s'.cancelled.map (·.id) ↔ Relation.ReflTransGen (ActiveDependent db) t k := by
  obtain ⟨b, hb, hc⟩ := Db.active_iff.mp ht
  have hmark : (Cascade.marking now).mark { db := db } t =
      some { db := cancel now t db, cancelled := [b.cancel now] } := Cascade.mark_eq_some.mpr ⟨b, hb, hc, rfl⟩
  have hof : Cascade.Of now db { db := db } := ⟨Db.Frame.refl db, by simp, by simp⟩
  unfold cancelCascade at h
  rw [hmark, Option.getD_some] at h
  have hid : (b.cancel now).id = t := (congrArg Job.id (Build.toJob_cancel now b)).trans (Db.id_of_get hb)
  obtain ⟨marked, hlog, hnodup, hmem, -⟩ := Marking.search_marks h
  have hlog : s'.cancelled.map (·.id) = t :: marked := by
    refine hlog.trans ?_
    simp [Cascade.marking, hid]
  -- an edge of the search is one to an active dependent other than the target
  have hedge : (Cascade.marking now).Edge { db := cancel now t db, cancelled := [b.cancel now] } =
      fun x y => ActiveDependent db x y ∧ y ≠ t := by
    funext x y
    refine propext ?_
    unfold Marking.Edge
    rw [Cascade.markable_iff, active_cancel, ← and_assoc]
    exact and_congr_left fun _ => and_congr_left fun _ => mem_cancelCascadeDependents
  rw [hedge] at hmem
  have hnot : t ∉ marked := fun hi => by
    obtain ⟨c, -, hc⟩ := Relation.TransGen.tail'_iff.mp ((hmem t).mp hi)
    exact hc.2 rfl
  refine ⟨?_, ?_, fun k => ?_⟩
  · rw [hlog]
    exact List.nodup_cons.mpr ⟨hnot, hnodup⟩
  · exact Marking.search_inv (fun hP hm => hP.mark hm) (hof.mark hmark) h
  · rw [hlog, List.mem_cons, hmem, Relation.reflTransGen_iff_eq_or_transGen]
    constructor
    · rintro (rfl | hk)
      · exact .inl rfl
      · exact .inr (hk.lift id fun _ _ hxy => hxy.1)
    · rintro (rfl | hk)
      · exact .inl rfl
      · by_cases hkt : k = t
        · exact .inl hkt
        · exact .inr (transGen_avoiding hk hkt)

/-- It ends. -/
theorem cancelCascade_total (now : Time) (t : Uuid) (db : Db) :
    ∃ n s', ∀ fuel, n ≤ fuel → cancelCascade fuel now t db = some s' := by
  obtain ⟨s', hs'⟩ := Marking.search_total _ Cascade.measure_mark
    (le_refl (((((Cascade.marking now).mark { db := db } t).getD { db := db }).db.builds.select
      Build.cancellable).length + [t].length))
  exact ⟨_, s', fun fuel hle => Marking.search_mono hle hs'⟩

/-- **What a cascade does.** It ends, returns each build it has cancelled once
and as it is now, cancels only the target and builds that depend on it, and
leaves none of these pending or running exactly if each that was is reached
through builds that were. -/
theorem cancel_cascade_exact (now : Time) {t : Uuid} {db : Db} (ht : db.Active t) :
    ∃ n s', (∀ fuel, n ≤ fuel → cancelCascade fuel now t db = some s') ∧
      (s'.cancelled.map (·.id)).Nodup ∧
      (∀ k, k ∈ s'.cancelled.map (·.id) ↔ db.Active k ∧ s'.db.status k = some .cancelled) ∧
      (∀ b ∈ s'.cancelled, s'.db.builds.get b.id = some b) ∧
      (∀ k, s'.db.builds.get k ≠ db.builds.get k → Relation.ReflTransGen db.Dependent t k) ∧
      ((∀ u, Relation.TransGen db.Dependent t u → ¬ s'.db.Active u) ↔
        ∀ u, Relation.TransGen db.Dependent t u → db.Active u →
          Relation.ReflTransGen (ActiveDependent db) t u) := by
  obtain ⟨n, s', hs'⟩ := cancelCascade_total now t db
  obtain ⟨hnodup, hof, hmem⟩ := mem_cascade ht (hs' n le_rfl)
  have hstatus : ∀ k, k ∈ s'.cancelled.map (·.id) → db.Active k ∧ s'.db.status k = some .cancelled := by
    intro k hk
    obtain ⟨b, hb, rfl⟩ := List.mem_map.mp hk
    obtain ⟨h1, h2, h3⟩ := hof.returned b hb
    exact ⟨h3, Db.status_eq_some.mpr ⟨b, h1, h2⟩⟩
  have hkept : ∀ k, k ∉ s'.cancelled.map (·.id) → s'.db.builds.get k = db.builds.get k := fun k hk => by
    rw [hof.row k, if_neg hk]
  have hactive : ∀ k, s'.db.Active k ↔ db.Active k ∧ k ∉ s'.cancelled.map (·.id) := by
    intro k
    by_cases hk : k ∈ s'.cancelled.map (·.id)
    · have := (hstatus k hk).2
      simp [Db.Active, this, hk]
    · simp [Db.active_iff, hkept k hk, hk]
  refine ⟨n, s', hs', hnodup, fun k => ⟨hstatus k, fun hk => ?_⟩,
    fun b hb => (hof.returned b hb).1, fun k hk => ?_, ?_⟩
  · -- a build that was active and is not any more has been cancelled here
    by_contra hn
    have := (hactive k).mpr ⟨hk.1, hn⟩
    simp [Db.Active, hk.2] at this
  · have hk : k ∈ s'.cancelled.map (·.id) := by
      by_contra hn
      exact hk (hkept k hn)
    exact ((hmem k).mp hk).lift id fun _ _ h => h.1
  · simp only [hactive, hmem, not_and, not_not]

/-- Three builds, each depending on the one before it. -/
def threeBuilds (second : BuildStatus) : Db :=
  .ofRows [{ id := 1 }] [{ id := 1, jobsetId := 1 }]
    [{ id := 1, evaluationId := 1, drvPath := "a.drv" },
      { id := 2, evaluationId := 1, drvPath := "b.drv", status := second },
      { id := 3, evaluationId := 1, drvPath := "c.drv" }]
    [(2, 1), (3, 2)] [] (by cases second <;> decide)

/-- Where all are pending, all are cancelled. -/
theorem cancel_cascade_exact_pending : (threeBuilds .pending).Active 1 ∧
    ∃ n s', (∀ fuel, n ≤ fuel → cancelCascade fuel 0 1 (threeBuilds .pending) = some s') ∧
      ∀ u, Relation.TransGen (threeBuilds .pending).Dependent 1 u → ¬ s'.db.Active u := by
  refine ⟨by decide, ?_⟩
  obtain ⟨n, s', hs', -, -, -, -, hiff⟩ := cancel_cascade_exact 0 (show (threeBuilds .pending).Active 1 by decide)
  have hall : ∀ a b, (threeBuilds .pending).Dependent a b → (threeBuilds .pending).Active b := by
    have : ∀ d ∈ (threeBuilds .pending).buildDependencies, (threeBuilds .pending).Active d.1 := by decide
    exact fun a b h => this (b, a) h
  refine ⟨n, s', hs', hiff.mpr fun u hu _ => ?_⟩
  exact (hu.lift id fun a b h => ⟨h, hall a b h⟩).to_reflTransGen

/-- A failed build shields what depends on it: the third build is still
pending when the first has been cancelled with all its dependents. -/
theorem finished_dependent_shields : (threeBuilds .failed).Active 1 ∧
    Relation.TransGen (threeBuilds .failed).Dependent 1 3 ∧
    ∃ s' ∈ cancelCascade 2 0 1 (threeBuilds .failed), s'.db.status 3 = some .pending := by
  refine ⟨by decide, ?_, by decide⟩
  have h1 : (threeBuilds .failed).Dependent 1 2 := List.mem_cons_self
  have h2 : (threeBuilds .failed).Dependent 2 3 := List.mem_cons_of_mem _ List.mem_cons_self
  exact .tail (.single h1) h2

end Builds

end Circus
