/-
# The narinfo tables

`crates/common/src/repo/narinfo_cache.rs` with `queries/narinfo_cache.sql`:
one row of `narinfo_cache` for a store path, and in `narinfo_cache_projects`
the projects that have uploaded it. The second refers to the first, with its
rows going when theirs does (`Db.owned`).

A project is recorded twice: the row keeps the first project that came with an
upsert, the association has all of them. Lookups in the scope of a project
accept either.
-/
import Circus.Evaluator.Webhooks

namespace Circus.Cache

open Evaluator.Webhooks (stripPrefix)

structure UpsertNarInfo where
  storePath : String
  narHash : String
  narSize : ℤ
  fileHash : Option String := none
  fileSize : Option ℤ := none
  compression : String := "none"
  url : String
  deriver : Option String := none
  references : List String := []
  sig : Option String := none
  ca : Option String := none
  buildId : Option Uuid := none
  projectId : Option Uuid := none
  deriving DecidableEq

/-- A row of `narinfo_cache`. -/
structure NarInfo extends UpsertNarInfo where
  createdAt : Time
  updatedAt : Time
  lastFetchedAt : Option Time := none
  deriving DecidableEq

namespace NarInfo

/-- A verified upload has a file hash, a row for a path of the local store has none. -/
def isUploaded (n : NarInfo) : Bool := n.fileHash.isSome

/-- `COALESCE(last_fetched_at, created_at)`. -/
def lastUsedAt (n : NarInfo) : Time := n.lastFetchedAt.getD n.createdAt

/-- `GREATEST(COALESCE(file_size, nar_size), 0)`. -/
def bytes (n : NarInfo) : ℤ := max (n.fileSize.getD n.narSize) 0

/-- Not used since the cutoff. -/
def isStale (cutoff : Option Time) (n : NarInfo) : Bool := cutoff.all fun c => decide (n.lastUsedAt < c)

end NarInfo

def join (sep : Char) (parts : List String) : String :=
  String.ofList (List.intercalate [sep] (parts.map String.toList))

/-- What `sign_narinfo` signs (`crates/common/src/narinfo_signing.rs`). -/
def fingerprint (storePath narHash : String) (narSize : ℤ) (references : List String) : String :=
  "1;" ++ storePath ++ ";" ++ narHash ++ ";" ++ toString narSize ++ ";" ++
    join ',' (references.insertionSort (· ≤ ·))

/-- A row of `narinfo_cache_projects`. -/
structure ProjectOwner where
  storePath : String
  projectId : Uuid
  buildId : Option Uuid
  updatedAt : Time
  deriving DecidableEq

abbrev NarInfos := Table (fun n : NarInfo => n.storePath)

abbrev ProjectOwners := Table (fun o : ProjectOwner => (o.storePath, o.projectId))

structure Db where
  narinfos : NarInfos
  owners : ProjectOwners
  /-- The foreign key. -/
  owned : ∀ o ∈ owners.rows, (narinfos.get o.storePath).isSome = true

namespace Db

def empty : Db where
  narinfos := ⟨[], List.nodup_nil⟩
  owners := ⟨[], List.nodup_nil⟩
  owned _ h := absurd h List.not_mem_nil

variable {db : Db} {n : NarInfo}

theorem storePath_of_get {path : String} (h : db.narinfos.get path = some n) : n.storePath = path :=
  @Table.key_of_get _ _ (fun n : NarInfo => n.storePath) _ _ _ _ h

/-! ### Upserts -/

/-- The row an upsert leaves, given the one there was. -/
def upsertRow (now : Time) (old : Option NarInfo) (info : UpsertNarInfo) : NarInfo where
  toUpsertNarInfo :=
    { info with
      buildId := (old.bind fun n => n.buildId).or info.buildId
      projectId := (old.bind fun n => n.projectId).or info.projectId }
  createdAt := (old.map fun n => n.createdAt).getD now
  updatedAt := now
  lastFetchedAt := old.bind fun n => n.lastFetchedAt

def upsertProjectOwner (owners : ProjectOwners) (now : Time) (storePath : String) (projectId : Uuid)
    (buildId : Option Uuid) : ProjectOwners :=
  let old := owners.get (storePath, projectId)
  owners.upsert ⟨storePath, projectId, buildId.or (old.bind fun o => o.buildId), now⟩

def upsertOwners (owners : ProjectOwners) (now : Time) (info : UpsertNarInfo) : ProjectOwners :=
  match info.projectId with
  | some projectId => upsertProjectOwner owners now info.storePath projectId info.buildId
  | none => owners

theorem mem_upsertOwners {owners : ProjectOwners} {now : Time} {info : UpsertNarInfo} {o : ProjectOwner}
    (h : o ∈ (upsertOwners owners now info).rows) :
    o ∈ owners.rows ∨ o.storePath = info.storePath ∧ info.projectId = some o.projectId := by
  unfold upsertOwners at h
  split at h
  next p hp =>
    rcases Table.mem_upsert.mp h with rfl | ⟨h, -⟩
    · exact .inr ⟨rfl, hp⟩
    · exact .inl h
  next => exact .inl h

theorem owned_upsert (db : Db) (now : Time) (info : UpsertNarInfo) (old : Option NarInfo) :
    ∀ o ∈ (upsertOwners db.owners now info).rows,
      ((db.narinfos.upsert (upsertRow now old info)).get o.storePath).isSome = true := by
  intro o ho
  rw [Table.get_upsert]
  split_ifs with hk
  · rfl
  · rcases mem_upsertOwners ho with ho | ⟨ho, -⟩
    · exact db.owned o ho
    · exact absurd ho hk

def upsert (db : Db) (now : Time) (info : UpsertNarInfo) : Db where
  narinfos := db.narinfos.upsert (upsertRow now (db.narinfos.get info.storePath) info)
  owners := upsertOwners db.owners now info
  owned := owned_upsert db now info (db.narinfos.get info.storePath)

/-! ### Lookups -/

/-- The project is associated with the path. -/
def isOwner (db : Db) (projectId : Uuid) (storePath : String) : Bool :=
  (db.owners.get (storePath, projectId)).isSome

/-- The row is in the scope; without a project, every row is. -/
def isVisible (db : Db) (projectId : Option Uuid) (n : NarInfo) : Bool :=
  projectId.all fun p => decide (n.projectId = some p) || db.isOwner p n.storePath

/-- `… ORDER BY updated_at DESC LIMIT 1`. -/
def newest (rows : List NarInfo) : Option NarInfo := rows.argmax fun n => n.updatedAt

/-- `store_path LIKE '/nix/store/<hash>-%'`. -/
def hasHashPart (hashPart : String) (n : NarInfo) : Bool :=
  (stripPrefix ("/nix/store/" ++ hashPart ++ "-") n.storePath).isSome

def getByHashPart (db : Db) (hashPart : String) (projectId : Option Uuid) : Option NarInfo :=
  newest (db.narinfos.select fun n => hasHashPart hashPart n && db.isVisible projectId n)

def getByUrl (db : Db) (url : String) (projectId : Option Uuid) : Option NarInfo :=
  newest (db.narinfos.select fun n => decide (n.url = url) && db.isVisible projectId n)

theorem mem_of_newest {rows : List NarInfo} (h : newest rows = some n) : n ∈ rows :=
  List.argmax_mem h

theorem newest_eq_none {rows : List NarInfo} : newest rows = none ↔ rows = [] := List.argmax_eq_none

variable {projectId : Option Uuid}

theorem mem_of_getByHashPart {hashPart : String} (h : db.getByHashPart hashPart projectId = some n) :
    n ∈ db.narinfos.rows ∧ hasHashPart hashPart n = true ∧ db.isVisible projectId n = true := by
  obtain ⟨h1, h2⟩ := List.mem_filter.mp (mem_of_newest h)
  exact ⟨h1, (Bool.and_eq_true _ _ ▸ h2).1, (Bool.and_eq_true _ _ ▸ h2).2⟩

theorem mem_of_getByUrl {url : String} (h : db.getByUrl url projectId = some n) :
    n ∈ db.narinfos.rows ∧ n.url = url ∧ db.isVisible projectId n = true := by
  obtain ⟨h1, h2⟩ := List.mem_filter.mp (mem_of_newest h)
  rw [Bool.and_eq_true, decide_eq_true_eq] at h2
  exact ⟨h1, h2⟩

/-- A visible row with the URL is answered, or a row at least as new. -/
theorem exists_getByUrl {url : String} (h : n ∈ db.narinfos.rows)
    (hu : n.url = url) (hv : db.isVisible projectId n = true) : ∃ n', db.getByUrl url projectId = some n' := by
  refine Option.ne_none_iff_exists'.mp fun hn => ?_
  have hm : n ∈ db.narinfos.select fun n => decide (n.url = url) && db.isVisible projectId n :=
    List.mem_filter.mpr ⟨h, by simp [hu, hv]⟩
  rw [newest_eq_none.mp hn] at hm
  cases hm

/-! ### Deletes -/

theorem owned_delete (db : Db) (p : NarInfo → Bool) :
    ∀ o ∈ (db.owners.delete fun o => (db.narinfos.get o.storePath).any p).rows,
      ((db.narinfos.delete p).get o.storePath).isSome = true := by
  intro o ho
  obtain ⟨ho, hn⟩ := List.mem_filter.mp ho
  obtain ⟨n, hg⟩ := Option.isSome_iff_exists.mp (db.owned o ho)
  have hp : p n = false := by simpa [hg] using hn
  rw [Table.get_delete, hg]
  simp [hp]

/-- `DELETE FROM narinfo_cache WHERE p`; the associations go with the rows. -/
def delete (db : Db) (p : NarInfo → Bool) : Db where
  narinfos := db.narinfos.delete p
  owners := db.owners.delete fun o => (db.narinfos.get o.storePath).any p
  owned := owned_delete db p

def deleteStaleProjectOwners (db : Db) (projectId : Uuid) (cutoff : Option Time) : Db where
  narinfos := db.narinfos
  owners := db.owners.delete fun o =>
    decide (o.projectId = projectId) && (db.narinfos.get o.storePath).any (NarInfo.isStale cutoff)
  owned o ho := db.owned o (List.mem_of_mem_filter ho)

/-- No project is associated with the path. -/
def isOrphan (db : Db) (storePath : String) : Bool := db.owners.rows.all fun o => decide (o.storePath ≠ storePath)

def deleteStaleForProject (db : Db) (projectId : Uuid) (cutoff : Option Time) : Db :=
  db.delete fun n => decide (n.projectId = some projectId) && n.isStale cutoff && db.isOrphan n.storePath

def deleteStale (db : Db) (projectId : Option Uuid) (cutoff : Option Time) : Db :=
  match projectId with
  | some p => (db.deleteStaleProjectOwners p cutoff).deleteStaleForProject p cutoff
  | none => db.delete (NarInfo.isStale cutoff)

/-! ### Cleanup -/

structure CacheGcCandidate where
  storePath : String
  url : String
  bytes : ℤ
  deriving DecidableEq

/-- The order of the candidates. -/
def usedBefore (a b : NarInfo) : Prop :=
  a.lastUsedAt < b.lastUsedAt ∨ a.lastUsedAt = b.lastUsedAt ∧ a.storePath.toList ≤ b.storePath.toList

instance : DecidableRel usedBefore := fun a b => by
  unfold usedBefore
  infer_instance

/-- The rows that size pressure selects, the least recently used first: as long
as what is reclaimed before a row leaves more than wanted. -/
def quotaFrom (excess : ℤ) : ℤ → List NarInfo → List NarInfo
  | _, [] => []
  | reclaimed, n :: rest =>
    if reclaimed < excess then n :: quotaFrom excess (reclaimed + n.bytes) rest
    else quotaFrom excess (reclaimed + n.bytes) rest

def listGcCandidates (db : Db) (cutoff : Option Time) (maxSizeBytes targetSizeBytes : Option ℤ) :
    List CacheGcCandidate :=
  let uploaded := db.narinfos.select NarInfo.isUploaded
  let isAged : NarInfo → Bool := fun n => cutoff.any fun c => decide (n.lastUsedAt < c)
  let remaining := (uploaded.filter fun n => !isAged n).insertionSort usedBefore
  let total := (remaining.map NarInfo.bytes).sum
  let quota := match maxSizeBytes with
    | some limit => if limit < total then quotaFrom (total - targetSizeBytes.getD limit) 0 remaining else []
    | none => []
  ((uploaded.filter isAged ++ quota).insertionSort usedBefore).map fun n => ⟨n.storePath, n.url, n.bytes⟩

theorem mem_quotaFrom {excess : ℤ} : ∀ {reclaimed : ℤ} {rows : List NarInfo},
    n ∈ quotaFrom excess reclaimed rows → n ∈ rows
  | _, m :: rest, h => by
    unfold quotaFrom at h
    split_ifs at h
    · rcases List.mem_cons.mp h with rfl | h
      · exact List.mem_cons_self
      · exact List.mem_cons_of_mem _ (mem_quotaFrom h)
    · exact List.mem_cons_of_mem _ (mem_quotaFrom h)

/-- Candidates are uploaded rows. -/
theorem mem_listGcCandidates {cutoff : Option Time} {maxSizeBytes targetSizeBytes : Option ℤ}
    {c : CacheGcCandidate} (h : c ∈ db.listGcCandidates cutoff maxSizeBytes targetSizeBytes) :
    ∃ n ∈ db.narinfos.rows, n.isUploaded = true ∧ n.storePath = c.storePath ∧ n.url = c.url := by
  obtain ⟨n, hn, rfl⟩ := List.mem_map.mp h
  have hsel : n ∈ db.narinfos.select NarInfo.isUploaded := by
    rcases List.mem_append.mp ((List.mem_insertionSort _).mp hn) with hn | hn
    · exact List.mem_of_mem_filter hn
    · dsimp only at hn
      split at hn
      · split_ifs at hn
        · exact List.mem_of_mem_filter ((List.mem_insertionSort _).mp (mem_quotaFrom hn))
        · cases hn
      · cases hn
  obtain ⟨hr, hu⟩ := List.mem_filter.mp hsel
  exact ⟨n, hr, hu, rfl, rfl⟩

def deleteGcCandidates (db : Db) (storePaths : List String) : Db :=
  db.delete fun n => n.isUploaded && decide (n.storePath ∈ storePaths)

def touched (now : Time) (n : NarInfo) : NarInfo := { n with lastFetchedAt := some now }

theorem storePath_touched (now : Time) (n : NarInfo) : (touched now n).storePath = n.storePath := rfl

theorem owned_touch (db : Db) (now : Time) (storePath : String) :
    ∀ o ∈ db.owners.rows, ((db.narinfos.update (fun n => decide (n.storePath = storePath)) (touched now)
      (storePath_touched now)).get o.storePath).isSome = true := by
  intro o ho
  rw [Table.get_update, Option.isSome_map]
  exact db.owned o ho

def touchLastFetched (db : Db) (now : Time) (storePath : String) : Db where
  narinfos := db.narinfos.update (fun n => decide (n.storePath = storePath)) (touched now)
    (storePath_touched now)
  owners := db.owners
  owned := owned_touch db now storePath

/-- A fetch leaves what was uploaded as it is. -/
theorem mem_touchLastFetched {now : Time} {storePath : String}
    (h : n ∈ (db.touchLastFetched now storePath).narinfos.rows) :
    ∃ n₀ ∈ db.narinfos.rows, n₀.toUpsertNarInfo = n.toUpsertNarInfo := by
  obtain ⟨n₀, hn₀, rfl⟩ := List.mem_map.mp h
  refine ⟨n₀, hn₀, ?_⟩
  split_ifs <;> rfl

end Db

end Circus.Cache
