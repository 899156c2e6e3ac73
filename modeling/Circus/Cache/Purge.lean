/-
# Purging the cache of a project

Histories of upserts by projects and of `delete_stale`. A row is tied to
projects in two ways, by its own `project_id` and by the association table,
and the two statements of a purge go by different ones. They agree on a row
when it has the project exactly if that is the only project associated with
it (`SoleOwner`); then a purge leaves nothing in the scope of the project,
nothing without a project, and the rows of the others as they are.
-/
import Circus.Cache.NarInfo
import Circus.Lts

namespace Circus.Cache

inductive PurgeAction
  /-- An upsert for a project. -/
  | upsert (projectId : Uuid) (now : Time) (info : UpsertNarInfo)
  /-- `delete_stale`. -/
  | deleteStale (projectId : Option Uuid) (cutoff : Option Time)
  deriving DecidableEq

def purgeStep (db : Db) : PurgeAction → Option Db
  | .upsert projectId now info => some (db.upsert now { info with projectId := some projectId })
  | .deleteStale projectId cutoff => some (db.deleteStale projectId cutoff)

/-- What a purge for a project finds in a stale row: the row has the project
exactly if no other project is associated with it. -/
def SoleOwner (db : Db) : PurgeAction → Prop
  | .deleteStale (some p) cutoff => ∀ n ∈ db.narinfos.rows, n.isStale cutoff = true →
      (n.projectId = some p ↔ ∀ o ∈ db.owners.rows, o.storePath = n.storePath → o.projectId = p)
  | _ => True

instance (db : Db) (a : PurgeAction) : Decidable (SoleOwner db a) := by
  unfold SoleOwner
  split <;> infer_instance

namespace Db

variable {db : Db} {p : Uuid}

theorem isOwner_iff {path : String} :
    db.isOwner p path = true ↔ ∃ o ∈ db.owners.rows, o.storePath = path ∧ o.projectId = p := by
  unfold isOwner
  constructor
  · intro h
    obtain ⟨o, ho⟩ := Option.isSome_iff_exists.mp h
    have hk := Table.key_of_get ho
    exact ⟨o, Table.mem_of_get ho, congrArg Prod.fst hk, congrArg Prod.snd hk⟩
  · rintro ⟨o, ho, rfl, rfl⟩
    rw [Table.get_of_mem ho]
    rfl

theorem isOrphan_iff {path : String} : db.isOrphan path = true ↔ ∀ o ∈ db.owners.rows, o.storePath ≠ path := by
  simp [isOrphan]

variable {n : NarInfo}

theorem mem_delete {p : NarInfo → Bool} :
    n ∈ (db.delete p).narinfos.rows ↔ n ∈ db.narinfos.rows ∧ p n = false := by
  simp [delete, Table.delete]

variable {o : ProjectOwner}

theorem mem_owners_delete {p : NarInfo → Bool} :
    o ∈ (db.delete p).owners.rows ↔ o ∈ db.owners.rows ∧ ∀ n ∈ db.narinfos.rows, n.storePath = o.storePath →
      p n = false := by
  simp only [delete, Table.delete, List.mem_filter, Bool.not_eq_true', Option.any_eq_false]
  refine and_congr_right fun _ => ⟨fun h n hn he => ?_, fun h n hg => ?_⟩
  · simpa using h n (he ▸ Table.get_of_mem hn)
  · simpa using h n (Table.mem_of_get hg) (storePath_of_get hg)

variable {cutoff : Option Time}

theorem mem_owners_deleteStale :
    o ∈ (db.deleteStaleProjectOwners p cutoff).owners.rows ↔ o ∈ db.owners.rows ∧
      ∀ n ∈ db.narinfos.rows, n.storePath = o.storePath → n.isStale cutoff = true → o.projectId ≠ p := by
  simp only [deleteStaleProjectOwners, Table.delete, List.mem_filter, Bool.not_eq_true', Bool.and_eq_false_iff,
    decide_eq_false_iff_not, Option.any_eq_false]
  refine and_congr_right fun _ => ⟨?_, fun h => ?_⟩
  · rintro (h | h) n hn he hs
    · exact h
    · rw [h n (he ▸ Table.get_of_mem hn)] at hs
      cases hs
  · by_cases hp : o.projectId = p
    · refine .inr fun n hg => Bool.eq_false_iff.mpr fun hs => ?_
      exact h n (Table.mem_of_get hg) (storePath_of_get hg) hs hp
    · exact .inl hp

/-- What a purge leaves of the rows. -/
theorem mem_deleteStale : n ∈ (db.deleteStale (some p) cutoff).narinfos.rows ↔ n ∈ db.narinfos.rows ∧
      ¬ (n.projectId = some p ∧ n.isStale cutoff = true ∧
        ∀ o ∈ db.owners.rows, o.storePath = n.storePath → o.projectId = p) := by
  unfold deleteStale deleteStaleForProject
  rw [mem_delete]
  refine and_congr_right fun hn => ?_
  rw [← Bool.not_eq_true, Bool.and_eq_true, Bool.and_eq_true, decide_eq_true_eq, isOrphan_iff, and_assoc]
  refine not_congr (and_congr_right fun _ => and_congr_right fun hs => ?_)
  constructor
  · intro h o ho he
    by_contra hp
    exact h o (mem_owners_deleteStale.mpr ⟨ho, fun _ _ _ _ => hp⟩) he
  · intro h o ho he
    obtain ⟨ho, hne⟩ := mem_owners_deleteStale.mp ho
    exact hne n hn he.symm hs (h o ho he)

/-- A purge keeps the association of a row it keeps, unless it is the
project's own with a stale row. -/
theorem mem_owners_deleteStale_of_mem
    (hn : n ∈ (db.deleteStale (some p) cutoff).narinfos.rows) (ho : o ∈ db.owners.rows)
    (he : o.storePath = n.storePath) (hk : n.isStale cutoff = true → o.projectId ≠ p) :
    o ∈ (db.deleteStale (some p) cutoff).owners.rows := by
  have huniq : ∀ n' ∈ db.narinfos.rows, n'.storePath = o.storePath → n' = n := fun n' hn' he' =>
    List.inj_on_of_nodup_map db.narinfos.nodup hn' (mem_deleteStale.mp hn).1 (he'.trans he)
  refine mem_owners_delete.mpr ⟨mem_owners_deleteStale.mpr ⟨ho, fun n' hn' he' hs => ?_⟩, fun n' hn' he' => ?_⟩
  · rw [huniq n' hn' he'] at hs
    exact hk hs
  · rw [huniq n' hn' he']
    exact (mem_delete.mp hn).2

/-- Every row has a project associated with it. -/
def HasOwners (db : Db) : Prop := ∀ n ∈ db.narinfos.rows, ∃ o ∈ db.owners.rows, o.storePath = n.storePath

theorem HasOwners.upsert (h : db.HasOwners) (projectId : Uuid) (now : Time) (info : UpsertNarInfo) :
    (db.upsert now { info with projectId := some projectId }).HasOwners := by
  intro n hn
  rcases Table.mem_upsert.mp hn with rfl | ⟨hn, hk⟩
  · exact ⟨_, Table.mem_upsert.mpr (.inl rfl), rfl⟩
  · obtain ⟨o, ho, he⟩ := h n hn
    refine ⟨o, Table.mem_upsert.mpr (.inr ⟨ho, fun hc => hk ?_⟩), he⟩
    exact he.symm.trans (congrArg Prod.fst hc)

theorem HasOwners.delete (h : db.HasOwners) (p : NarInfo → Bool) : (db.delete p).HasOwners := by
  intro n hn
  obtain ⟨hn, hp⟩ := mem_delete.mp hn
  obtain ⟨o, ho, he⟩ := h n hn
  refine ⟨o, mem_owners_delete.mpr ⟨ho, fun n' hn' he' => ?_⟩, he⟩
  rw [List.inj_on_of_nodup_map db.narinfos.nodup hn' hn (he'.trans he)]
  exact hp

theorem HasOwners.purge (h : db.HasOwners)
    (hg : SoleOwner db (.deleteStale (some p) cutoff)) : (db.deleteStale (some p) cutoff).HasOwners := by
  intro n hn
  obtain ⟨hn₀, hkeep⟩ := mem_deleteStale.mp hn
  by_cases hs : n.isStale cutoff = true
  · -- a stale row that stays has a project besides `p`
    have hother : ¬ ∀ o ∈ db.owners.rows, o.storePath = n.storePath → o.projectId = p := fun hall =>
      hkeep ⟨(hg n hn₀ hs).mpr hall, hs, hall⟩
    push Not at hother
    obtain ⟨o, ho, he, hp⟩ := hother
    exact ⟨o, mem_owners_deleteStale_of_mem hn ho he fun _ => hp, he⟩
  · obtain ⟨o, ho, he⟩ := h n hn₀
    exact ⟨o, mem_owners_deleteStale_of_mem hn ho he fun hs' => absurd hs' hs, he⟩

end Db

theorem hasOwners_of_step {db db' : Db} {a : PurgeAction} (h : db.HasOwners) (hg : SoleOwner db a)
    (hs : purgeStep db a = some db') : db'.HasOwners := by
  cases a with
  | upsert projectId now info =>
    cases hs
    exact h.upsert projectId now info
  | deleteStale projectId =>
    cases hs
    cases projectId with
    | none => exact h.delete _
    | some => exact h.purge hg

/-- After a purge of stale rows nothing is in the scope of the project. -/
theorem Db.isVisible_deleteStale {db : Db} {p : Uuid} {cutoff : Option Time}
    (hg : SoleOwner db (.deleteStale (some p) cutoff)) (hstale : ∀ n ∈ db.narinfos.rows, n.isStale cutoff = true)
    {n : NarInfo} (hn : n ∈ (db.deleteStale (some p) cutoff).narinfos.rows) :
    (db.deleteStale (some p) cutoff).isVisible (some p) n = false := by
  obtain ⟨hn₀, hkeep⟩ := mem_deleteStale.mp hn
  have hs := hstale n hn₀
  refine Bool.eq_false_iff.mpr fun hv => ?_
  simp only [isVisible, Option.all_some, Bool.or_eq_true, decide_eq_true_eq] at hv
  rcases hv with hp | ho
  · exact hkeep ⟨hp, hs, (hg n hn₀ hs).mp hp⟩
  · obtain ⟨o, ho, he, hp⟩ := isOwner_iff.mp ho
    exact (mem_owners_deleteStale.mp (mem_owners_delete.mp ho).1).2 n hn₀ he.symm hs hp

/-- A purge leaves the rows of other projects as they are. -/
theorem Db.isVisible_of_other {db : Db} {p q : Uuid} (hq : q ≠ p) {cutoff : Option Time} {n : NarInfo}
    (hn : n ∈ db.narinfos.rows) (hown : db.isOwner q n.storePath = true) :
    n ∈ (db.deleteStale (some p) cutoff).narinfos.rows ∧
      (db.deleteStale (some p) cutoff).isVisible (some q) n = true := by
  obtain ⟨o, ho, he, rfl⟩ := isOwner_iff.mp hown
  have hn' : n ∈ (db.deleteStale (some p) cutoff).narinfos.rows :=
    mem_deleteStale.mpr ⟨hn, fun h => hq (h.2.2 o ho he)⟩
  refine ⟨hn', ?_⟩
  have : (db.deleteStale (some p) cutoff).isOwner o.projectId n.storePath = true :=
    isOwner_iff.mpr ⟨o, mem_owners_deleteStale_of_mem hn' ho he fun _ => hq, he, rfl⟩
  simp [isVisible, this]

/-- **Purge of a project.** In a history in which every purge finds the
project of a stale row to be the row's own exactly if it is its only one, a
purge of stale rows leaves nothing in the scope of the project, the rows of
other projects as they are, and no row without a project. -/
theorem purge_complete {as : List PurgeAction} {db : Db} {p : Uuid} {cutoff : Option Time}
    (hrun : Lts.exec purgeStep Db.empty as = some db) (hal : Lts.Along purgeStep SoleOwner Db.empty as)
    (hg : SoleOwner db (.deleteStale (some p) cutoff))
    (hstale : ∀ n ∈ db.narinfos.rows, n.isStale cutoff = true) :
    (∀ hashPart, (db.deleteStale (some p) cutoff).getByHashPart hashPart (some p) = none) ∧
    (∀ url, (db.deleteStale (some p) cutoff).getByUrl url (some p) = none) ∧
    (∀ n ∈ db.narinfos.rows, ∀ q, q ≠ p → db.isOwner q n.storePath = true →
      n ∈ (db.deleteStale (some p) cutoff).narinfos.rows ∧
        (db.deleteStale (some p) cutoff).isVisible (some q) n = true) ∧
    ∀ n ∈ (db.deleteStale (some p) cutoff).narinfos.rows,
      ∃ q, (db.deleteStale (some p) cutoff).isOwner q n.storePath = true := by
  have hinit : Db.empty.HasOwners := fun n hn => absurd hn List.not_mem_nil
  have hstep : ∀ db a db', Db.HasOwners db → SoleOwner db a → purgeStep db a = some db' → Db.HasOwners db' :=
    fun _ _ _ => hasOwners_of_step
  have hown : db.HasOwners := Lts.exec_inv hstep hinit hal hrun
  refine ⟨fun hashPart => ?_, fun url => ?_, fun n hn q hq ho => Db.isVisible_of_other hq hn ho, fun n hn => ?_⟩
  · refine Option.eq_none_iff_forall_ne_some.mpr fun n hget => ?_
    obtain ⟨hn, -, hv⟩ := Db.mem_of_getByHashPart hget
    rw [Db.isVisible_deleteStale hg hstale hn] at hv
    cases hv
  · refine Option.eq_none_iff_forall_ne_some.mpr fun n hget => ?_
    obtain ⟨hn, -, hv⟩ := Db.mem_of_getByUrl hget
    rw [Db.isVisible_deleteStale hg hstale hn] at hv
    cases hv
  · obtain ⟨o, ho, he⟩ := hown.purge hg n hn
    exact ⟨o.projectId, Db.isOwner_iff.mpr ⟨o, ho, he, rfl⟩⟩

/-- An upload of a path, for the histories below. -/
def uploadOf (name : String) : UpsertNarInfo where
  storePath := "/nix/store/h-" ++ name
  narHash := "sha256:0"
  narSize := 1
  url := "nar/" ++ name ++ ".nar"

/-- Two projects with a path each. -/
theorem purge_complete_disjoint :
    let db := (Db.empty.upsert 0 { uploadOf "a" with projectId := some 1 }).upsert 1
      { uploadOf "b" with projectId := some 2 }
    db.isOwner 2 "/nix/store/h-b" = true ∧ ∀ url, (db.deleteStale (some 1) none).getByUrl url (some 1) = none :=
  ⟨by decide, (@purge_complete [.upsert 1 0 (uploadOf "a"), .upsert 2 1 (uploadOf "b")] _ 1 none rfl (by decide)
    (by decide) (by decide)).2.1⟩

/-- Two projects upload one path. The first purges: it still sees the row, by
the row's `project_id`. Then the second does: no project is associated with
the row, and it stays, since its `project_id` is the first's. -/
theorem purge_of_shared_path :
    let purgeBy : List Uuid → Option Db := fun ps => Lts.exec purgeStep Db.empty
      ([.upsert 1 0 (uploadOf "a"), .upsert 2 1 (uploadOf "a")] ++ ps.map fun p => .deleteStale (some p) none)
    (∃ db ∈ purgeBy [1], db.isOwner 1 "/nix/store/h-a" = false ∧ (db.getByUrl "nar/a.nar" (some 1)).isSome = true ∧
      (db.getByHashPart "h" (some 1)).isSome = true) ∧
    ∃ db ∈ purgeBy [1, 2], ∃ n ∈ db.narinfos.rows, db.isOrphan n.storePath = true := by
  decide

end Circus.Cache
