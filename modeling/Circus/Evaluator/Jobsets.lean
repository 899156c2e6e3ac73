/-
# Jobset definitions

The rest of a `jobsets` row and its `jobset_inputs`, with the writes of
`crates/common/src/repo/jobsets.rs` and `jobset_inputs.rs` and the checks of
`validate.rs` in front of them. A `Catalog` is the database with these tables:
no two jobsets of a project have one name.

Two things are parameters: what `flake::Ref::parse` accepts, and the rows the
database turns down for the width of a column or a zero byte.
-/
import Circus.Evaluator.System
import Circus.Cache.Routes

namespace Circus

/-! ### Definitions -/

def JobsetState.fromConfigStr (s : String) : JobsetState :=
  if s = "disabled" then .disabled
  else if s = "one_shot" then .oneShot
  else if s = "one_at_a_time" then .oneAtATime
  else .enabled

def JobsetState.isEvaluable (s : JobsetState) : Bool :=
  decide (s = .enabled ∨ s = .oneShot ∨ s = .oneAtATime)

def JobsetTriggerMode.fromConfigStr (s : String) : JobsetTriggerMode :=
  if s = "interval" then .interval else .sourceChange

namespace Evaluator

structure CreateJobset where
  projectId : Uuid
  name : String
  nixExpression : String
  enabled : Option Bool := none
  flakeMode : Option Bool := none
  checkInterval : Option ℤ := none
  triggerMode : Option JobsetTriggerMode := none
  branch : Option String := none
  branchPattern : Option String := none
  tagPattern : Option String := none
  schedulingShares : Option ℤ := none
  state : Option JobsetState := none
  keepNr : Option ℤ := none
  systems : Option (List String) := none
  onlyBuildLatest : Option Bool := none
  pathFilters : Option (List String) := none
  deriving DecidableEq

/-- The columns of `jobsets` that `JobsetRow` does not have. -/
structure JobsetDetails where
  name : String := ""
  nixExpression : String := ""
  flakeMode : Bool := true
  checkInterval : ℤ := 60
  keepNr : ℤ := 3
  systems : Option (List String) := none
  pathFilters : List String := []
  deriving DecidableEq

namespace CreateJobset

/-- The row `upsert` writes, with its defaults. An explicit state decides over
`enabled`. -/
def row (input : CreateJobset) (id : Uuid) : JobsetRow :=
  let state := input.state.getD .enabled
  { id := id
    schedulingShares := input.schedulingShares.getD 100
    state := state
    projectId := input.projectId
    enabled := if input.state.isSome then state.isEvaluable
      else input.enabled.getD (state.isEvaluable)
    triggerMode := input.triggerMode.getD .sourceChange
    branch := input.branch
    branchPattern := input.branchPattern
    tagPattern := input.tagPattern
    onlyBuildLatest := input.onlyBuildLatest.getD false }

def details (input : CreateJobset) : JobsetDetails where
  name := input.name
  nixExpression := input.nixExpression
  flakeMode := input.flakeMode.getD true
  checkInterval := input.checkInterval.getD 60
  keepNr := input.keepNr.getD 3
  systems := input.systems
  pathFilters := input.pathFilters.getD []

end CreateJobset

inductive InputType
  | git
  | string
  | boolean
  | build
  deriving DecidableEq, Repr

structure DeclarativeJobsetInput where
  name : String
  inputType : InputType
  value : String
  revision : Option String := none
  deriving DecidableEq, Repr

structure JobsetInput extends DeclarativeJobsetInput where
  jobsetId : Uuid
  deriving DecidableEq, Repr

def JobsetInput.key (i : JobsetInput) : Uuid × String := (i.jobsetId, i.name)

/-! ### Checks -/

namespace Validate

/-- An error unless the check holds. -/
def ensure (ok : Bool) (message : String) : Except String Unit := if ok then .ok () else .error message

def validateName (name field : String) : Except String Unit := do
  ensure (decide (name ≠ "" ∧ name.utf8ByteSize ≤ 255)) (field ++ " must be between 1 and 255 characters")
  -- `^[a-zA-Z0-9][a-zA-Z0-9_-]*$`
  ensure ((name.toList.head?.any Char.isAlphanum) &&
      name.toList.all fun c => c.isAlphanum || decide (c = '_' ∨ c = '-'))
    (field ++ " must start with alphanumeric and contain only [a-zA-Z0-9_-]")

def validateNixExpression (expr : String) : Except String Unit := do
  ensure (decide (expr ≠ "")) "nix_expression cannot be empty"
  ensure (decide (expr.utf8ByteSize ≤ 1024)) "nix_expression must be at most 1024 characters"
  ensure (decide ('\x00' ∉ expr.toList)) "nix_expression must not contain null bytes"
  ensure (decide (¬ "..".toList <:+: expr.toList)) "nix_expression must not contain path traversal sequences (..)"
  ensure (decide (expr.toList.head? ≠ some '/')) "nix_expression must not be an absolute path"

def validateCheckInterval (interval : ℤ) : Except String Unit :=
  ensure (decide (10 ≤ interval ∧ interval ≤ 86400)) "check_interval must be between 10 and 86400"

def validateSystems (systems : List String) : Except String Unit :=
  ensure (systems.all fun s => !s.toList.all Cache.isWhitespace) "systems entries cannot be empty"

def validateLatestOnlyPolicy (triggerMode : JobsetTriggerMode) (onlyBuildLatest : Bool) : Except String Unit :=
  ensure (!(onlyBuildLatest && decide (triggerMode = .interval)))
    "only_build_latest requires trigger_mode 'source_change'"

def validatePathFilter (filter : String) : Except String Unit := do
  ensure (decide (filter ≠ "" ∧ filter.utf8ByteSize ≤ 512)) "path_filters entries must contain 1 to 512 characters"
  ensure (decide (filter.toList.head? ≠ some '/' ∧ '\x00' ∉ filter.toList ∧ '\\' ∉ filter.toList ∧
      "..".toList ∉ filter.toList.splitOn '/'))
    "path_filters entries must be relative Git pathspecs without '..' or backslashes"

def validatePathFilters (filters : List String) : Except String Unit := do
  ensure (decide (filters.length ≤ 128)) "path_filters must contain at most 128 entries"
  filters.forM validatePathFilter

def validatePathFilterPolicy (sourceChange : Bool) (filters : List String) : Except String Unit :=
  ensure (sourceChange || filters.isEmpty) "path_filters requires trigger_mode 'source_change'"

def validateCommitHash (hash : String) : Except String Unit :=
  -- `^[0-9a-fA-F]{1,64}$`
  ensure (decide (1 ≤ hash.toList.length ∧ hash.toList.length ≤ 64) &&
      hash.toList.all fun c => c.isDigit || decide ('a' ≤ c ∧ c ≤ 'f' ∨ 'A' ≤ c ∧ c ≤ 'F'))
    "commit_hash must be 1-64 hex characters"

end Validate

open Validate

def CreateJobset.validate (input : CreateJobset) : Except String Unit := do
  validateName input.name "name"
  validateNixExpression input.nixExpression
  input.checkInterval.elim (.ok ()) validateCheckInterval
  input.systems.elim (.ok ()) fun systems => do
    ensure (!systems.isEmpty) "systems cannot be empty"
    validateSystems systems
  validateLatestOnlyPolicy (input.triggerMode.getD .sourceChange) (input.onlyBuildLatest.getD false)
  validatePathFilters (input.pathFilters.getD [])
  validatePathFilterPolicy (decide (input.triggerMode.getD .sourceChange = .sourceChange)) (input.pathFilters.getD [])

/-- What the writes depend on besides the tables. -/
structure Limits where
  /-- `flake::Ref::parse`. -/
  parseRef : String → Except String Unit
  /-- The row does not fit its columns. -/
  refused : CreateJobset → Bool

def DeclarativeJobsetInput.validate (l : Limits) (i : DeclarativeJobsetInput) : Except String Unit := do
  validateName i.name "input name"
  ensure (decide (i.value ≠ "")) "input value cannot be empty"
  ensure (decide (i.value.utf8ByteSize ≤ 2048)) "input value must be at most 2048 characters"
  ensure (decide ('\x00' ∉ i.value.toList)) "input value must not contain null bytes"
  i.revision.elim (.ok ()) validateCommitHash
  match i.inputType with
  | .git => l.parseRef i.value
  | .string | .boolean | .build => .ok ()

/-! ### The tables -/

namespace Db

/-- `UPDATE jobsets SET enabled = false WHERE id = :id AND state = 'one_shot'`. -/
def markOneShotComplete (db : Db) (id : Uuid) : Db :=
  { db with
    jobsets := db.jobsets.update (fun j => decide (j.id = id ∧ j.state = .oneShot))
      (fun j => { j with enabled := false }) fun _ => rfl
    evaluation_fk := fun e he => by
      rw [Table.get_update, Option.isSome_map]
      exact db.evaluation_fk e he }

theorem mem_markOneShotComplete {db : Db} {id : Uuid} {j : JobsetRow} :
    j ∈ (db.markOneShotComplete id).jobsets.rows ↔ ∃ j₀ ∈ db.jobsets.rows,
      (if decide (j₀.id = id ∧ j₀.state = .oneShot) then { j₀ with enabled := false } else j₀) = j := by
  simp only [markOneShotComplete, Table.update, List.mem_map]

end Db

structure Catalog where
  db : Db
  /-- The other columns of the jobsets. -/
  details : Uuid → JobsetDetails
  inputs : Table JobsetInput.key
  /-- `managed_declaratively` of the projects. -/
  managedDeclaratively : Uuid → Option Bool
  name_unique : ∀ j ∈ db.jobsets.rows, ∀ j' ∈ db.jobsets.rows, j.projectId = j'.projectId →
    (details j.id).name = (details j'.id).name → j.id = j'.id

namespace Catalog

/-- The jobset with this name. -/
def find (c : Catalog) (projectId : Uuid) (name : String) : Option JobsetRow :=
  c.db.jobsets.rows.find? fun j => decide (j.projectId = projectId ∧ (c.details j.id).name = name)

def newJobsetId (c : Catalog) : Uuid := (c.db.jobsets.rows.map fun j => j.id).sum + 1

/-- The row that `input` is written to. -/
def target (c : Catalog) (input : CreateJobset) : Uuid :=
  (c.find input.projectId input.name).elim c.newJobsetId fun j => j.id

/-- No other jobset of the project has the name. -/
theorem eq_target {c : Catalog} {input : CreateJobset} {j : JobsetRow} (hj : j ∈ c.db.jobsets.rows)
    (hp : j.projectId = input.projectId) (hn : (c.details j.id).name = input.name) :
    c.find input.projectId input.name = some j ∧ c.target input = j.id := by
  unfold target find
  cases hf : c.db.jobsets.rows.find? fun j =>
      decide (j.projectId = input.projectId ∧ (c.details j.id).name = input.name) with
  | none =>
    have := List.find?_eq_none.mp hf j hj
    simp [hp, hn] at this
  | some j' =>
    have h' : j'.projectId = input.projectId ∧ (c.details j'.id).name = input.name := by
      simpa using List.find?_some hf
    have hid := c.name_unique j hj j' (List.mem_of_find?_eq_some hf) (hp.trans h'.1.symm) (hn.trans h'.2.symm)
    have := List.inj_on_of_nodup_map c.db.jobsets.nodup hj (List.mem_of_find?_eq_some hf) hid
    rw [this]
    exact ⟨rfl, rfl⟩

/-- `INSERT … ON CONFLICT (project_id, name) DO UPDATE`. -/
def write (c : Catalog) (input : CreateJobset) : Catalog :=
  { c with
    db := c.db.configure (input.row (c.target input))
    details := Function.update c.details (c.target input) input.details
    name_unique := fun j hj j' hj' hp hn => by
      have hother : ∀ j ∈ c.db.jobsets.rows, j.id ≠ c.target input → j.projectId = input.projectId →
          (c.details j.id).name ≠ input.name := fun j hj hne hp hn => hne (eq_target hj hp hn).2.symm
      have hself : (Function.update c.details (c.target input) input.details (c.target input)).name = input.name := by
        rw [Function.update_self]
        rfl
      rcases Table.mem_upsert.mp hj with rfl | ⟨hj, hne⟩ <;> rcases Table.mem_upsert.mp hj' with rfl | ⟨hj', hne'⟩
      · rfl
      · have hne' : j'.id ≠ c.target input := hne'
        rw [Function.update_of_ne hne'] at hn
        exact absurd (hn.symm.trans hself) (hother j' hj' hne' hp.symm)
      · have hne : j.id ≠ c.target input := hne
        rw [Function.update_of_ne hne] at hn
        exact absurd (hn.trans hself) (hother j hj hne hp)
      · have hne : j.id ≠ c.target input := hne
        have hne' : j'.id ≠ c.target input := hne'
        rw [Function.update_of_ne hne, Function.update_of_ne hne'] at hn
        exact c.name_unique j hj j' hj' hp hn }

/-- `repo::jobsets::upsert`. -/
def upsertJobset (l : Limits) (input : CreateJobset) (c : Catalog) : Option (Uuid × Catalog) :=
  if input.validate.isOk && !l.refused input then some (c.target input, c.write input) else none

def markOneShotComplete (c : Catalog) (id : Uuid) : Catalog :=
  { c with
    db := c.db.markOneShotComplete id
    name_unique := fun j hj j' hj' hp hn => by
      obtain ⟨j₀, hj₀, rfl⟩ := Db.mem_markOneShotComplete.mp hj
      obtain ⟨j₀', hj₀', rfl⟩ := Db.mem_markOneShotComplete.mp hj'
      have := c.name_unique j₀ hj₀ j₀' hj₀'
      split_ifs at hp hn ⊢ <;> exact this hp hn }

/-- `q::sync_for_jobset_delete`. -/
def deleteInputs (c : Catalog) (jobsetId : Uuid) (names : List String) : Catalog :=
  { c with inputs := c.inputs.delete fun i => decide (i.jobsetId = jobsetId ∧ i.name ∉ names) }

/-- `q::upsert` of an input. -/
def writeInput (c : Catalog) (jobsetId : Uuid) (i : DeclarativeJobsetInput) : Catalog :=
  { c with inputs := c.inputs.upsert ⟨i, jobsetId⟩ }

end Catalog

end Evaluator

end Circus
