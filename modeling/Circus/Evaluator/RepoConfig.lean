/-
# The configuration in a repository

`evaluate_pending_eval` with `sync_repo_declarative_config`
(`crates/evaluator/src/eval_loop.rs`): the jobsets that a checked-out
repository declares in `.circus.toml` are written to the tables, whatever
commit is checked out and whoever has proposed it. Only
`managed_declaratively` of the project is asked.

`reconfigures_nothing_iff` says exactly when a call leaves every definition as
it was, and `reconfigured_by_change` is a change request that does not. A call
is given by the states after each of its writes, so a definition that is
changed and changed back counts as changed.
-/
import Circus.Evaluator.Jobsets

namespace Circus

def JobsetRow.definition (j : JobsetRow) : JobsetRow := if j.state = .oneShot then { j with enabled := true } else j

namespace Evaluator

/-! ### Reading the configuration -/

/-- `DeclarativeJobset`, with the defaults of its fields. -/
structure DeclarativeJobset where
  name : String
  nixExpression : String
  enabled : Bool := true
  flakeMode : Bool := true
  checkInterval : ℤ := 60
  triggerMode : Option String := none
  state : Option String := none
  branch : Option String := none
  branchPattern : Option String := none
  tagPattern : Option String := none
  schedulingShares : ℤ := 100
  keepNr : Option ℤ := none
  systems : Option (List String) := none
  onlyBuildLatest : Bool := false
  pathFilters : List String := []
  inputs : List DeclarativeJobsetInput := []
  deriving DecidableEq

/-- The call of `upsert`. -/
def DeclarativeJobset.create (projectId : Uuid) (js : DeclarativeJobset) : CreateJobset where
  projectId := projectId
  name := js.name
  nixExpression := js.nixExpression
  enabled := some js.enabled
  flakeMode := some js.flakeMode
  checkInterval := some js.checkInterval
  triggerMode := js.triggerMode.map JobsetTriggerMode.fromConfigStr
  branch := js.branch
  branchPattern := js.branchPattern
  tagPattern := js.tagPattern
  schedulingShares := some js.schedulingShares
  state := js.state.map JobsetState.fromConfigStr
  keepNr := js.keepNr
  systems := js.systems
  onlyBuildLatest := some js.onlyBuildLatest
  pathFilters := some js.pathFilters

/-- What a checkout has at a path: nothing, or something that reads as text or
does not. -/
abbrev Tree := String → Option (Option String)

def repoConfigPath (tree : Tree) : Option String :=
  if (tree ".circus.toml").isSome then some ".circus.toml"
  else if (tree ".circus/config.toml").isSome then some ".circus/config.toml"
  else none

/-- `read_repo_config`; `parse` is `toml::from_str`. -/
def readRepoConfig (parse : String → Option (List DeclarativeJobset)) (tree : Tree) :
    Option (List DeclarativeJobset) :=
  (repoConfigPath tree).bind fun path => (tree path).join.bind parse

/-! ### Writing it -/

namespace Catalog

/-- The upserts of `sync_for_jobset`; the first error ends them. -/
def syncInputs (l : Limits) (jobsetId : Uuid) : List DeclarativeJobsetInput → Catalog → List Catalog
  | [], _ => []
  | i :: is, c =>
    if (i.validate l).isOk then c.writeInput jobsetId i :: syncInputs l jobsetId is (c.writeInput jobsetId i) else []

/-- The body of the loop of `sync_repo_declarative_config`. -/
def syncJobset (l : Limits) (projectId : Uuid) (js : DeclarativeJobset) (c : Catalog) : List Catalog :=
  match c.upsertJobset l (js.create projectId) with
  | none => []
  | some (id, c) =>
    c :: if js.inputs.isEmpty then []
      else c.deleteInputs id (js.inputs.map (·.name)) ::
        syncInputs l id js.inputs (c.deleteInputs id (js.inputs.map (·.name)))

/-- `sync_repo_declarative_config`, once the configuration is read. -/
def syncJobsets (l : Limits) (projectId : Uuid) : List DeclarativeJobset → Catalog → List Catalog
  | [], _ => []
  | js :: config, c =>
    c.syncJobset l projectId js ++ syncJobsets l projectId config ((c.syncJobset l projectId js).getLastD c)

def allowsRepoConfig (c : Catalog) (projectId : Uuid) : Bool := decide (c.managedDeclaratively projectId = some false)

/-- A change of the database that leaves the jobsets alone. -/
def withDb (c : Catalog) (db : Db) (h : db.jobsets = c.db.jobsets) : Catalog :=
  { c with db := db, name_unique := h ▸ c.name_unique }

/-- A statement on `evaluations`. -/
def issue (now : Time) (q : Statement) (c : Catalog) : Catalog := c.withDb (q.run now c.db) rfl

end Catalog

/-- What a call of `evaluate_pending_eval` meets. -/
structure PendingCall where
  now : Time
  limits : Limits
  /-- `toml::from_str`. -/
  parse : String → Option (List DeclarativeJobset)
  /-- The tree `fetch_and_checkout_commit` leaves, unless it fails or times out. -/
  checkout : Option Tree
  /-- `is_cancelled` returns true, or fails. -/
  cancelled : Bool
  inputsHash : String
  /-- How the evaluation ends: by the path filter, by Nix, or by an error. -/
  event : TaskEvent

namespace PendingCall

/-- `run_path_filtered_evaluation`, which returns whether it evaluated. -/
def finish (w : PendingCall) (id : Uuid) (db : Db) : Db × Bool :=
  match w.event with
  | .skip => ((Statement.finishRunning id .completed none).run w.now db, false)
  | .failed timedOut message =>
    ((Statement.finishRunning id (failureStatus timedOut) (some message)).run w.now db, true)
  | .evaluated jobs allowed =>
    if (db.evaluations.get id).any fun e => decide (e.status = .running) then
      (db.record w.now id (jobs.filter fun j => systemAllowed j.system allowed), true)
    else (db, true)
  | .next | .error _ | .crash => (db, false)

theorem jobsets_finish (w : PendingCall) (id : Uuid) (db : Db) : (w.finish id db).1.jobsets = db.jobsets := by
  unfold finish
  split
  · rfl
  · rfl
  · split
    · exact Db.jobsets_record ..
    · rfl
  · rfl
  · rfl
  · rfl

/-- `sync_repo_declarative_config`: the states after its writes. -/
def sync (w : PendingCall) (projectId : Uuid) (tree : Tree) (c : Catalog) : List Catalog :=
  if c.allowsRepoConfig projectId then
    (readRepoConfig w.parse tree).elim [] fun config => c.syncJobsets w.limits projectId config
  else []

/-- `evaluate_pending_eval`, after the configuration is synced. -/
def evaluateAndFinish (w : PendingCall) (jobset : JobsetRow) (id : Uuid) (c : Catalog) : List Catalog :=
  let finished := c.withDb (w.finish id c.db).1 (w.jobsets_finish id c.db)
  finished :: if (w.finish id c.db).2 && decide (jobset.state = .oneShot) then [finished.markOneShotComplete jobset.id]
    else []

/-- `evaluate_pending_eval`: the states after its writes. -/
def evaluatePendingEval (w : PendingCall) (jobset : JobsetRow) (id : Uuid) (c : Catalog) : List Catalog :=
  if (c.db.evaluations.get id).any fun e => decide (e.status = .pending) then
    let claimed := c.issue w.now (.tryClaimPending id)
    claimed :: match w.checkout with
      | none => []
      | some tree =>
        if w.cancelled then []
        else
          let hashed := claimed.issue w.now (.setInputsHash id w.inputsHash)
          hashed :: (w.sync jobset.projectId tree hashed ++
            w.evaluateAndFinish jobset id ((w.sync jobset.projectId tree hashed).getLastD hashed))
  else []

/-- The configuration the call writes to the tables. -/
def config (w : PendingCall) (jobset : JobsetRow) (id : Uuid) (c : Catalog) : Option (List DeclarativeJobset) :=
  if ((c.db.evaluations.get id).any fun e => decide (e.status = .pending)) && !w.cancelled &&
      c.allowsRepoConfig jobset.projectId then
    w.checkout.bind (readRepoConfig w.parse)
  else none

end PendingCall

/-! ### Definitions that stay -/

namespace Catalog

/-- A jobset as it is defined. -/
def definition (c : Catalog) (id : Uuid) : Option (JobsetRow × JobsetDetails) :=
  (c.db.jobsets.get id).map fun j => (j.definition, c.details id)

/-- No jobset and no input has been created, deleted or redefined. -/
structure SameDefinitions (c c' : Catalog) : Prop where
  jobsets : ∀ id, c'.definition id = c.definition id
  inputs : ∀ k, c'.inputs.get k = c.inputs.get k

/-- The declared jobset, if it passes the checks, is in the tables as declared,
with its inputs up to the first that does not pass. -/
def AsDeclared (l : Limits) (projectId : Uuid) (js : DeclarativeJobset) (c : Catalog) : Prop :=
  (js.create projectId).validate.isOk = true → l.refused (js.create projectId) = false →
  ∃ id, c.definition id = some (((js.create projectId).row id).definition, (js.create projectId).details) ∧
    (js.inputs ≠ [] →
      (∀ name, (c.inputs.get (id, name)).isSome → name ∈ js.inputs.map (·.name)) ∧
      ∀ i ∈ js.inputs.takeWhile fun i => (i.validate l).isOk, c.inputs.get (id, i.name) = some ⟨i, id⟩)

namespace SameDefinitions

variable {c c₁ c₂ : Catalog}

theorem refl (c : Catalog) : c.SameDefinitions c := ⟨fun _ => rfl, fun _ => rfl⟩

theorem trans (h : c.SameDefinitions c₁) (h' : c₁.SameDefinitions c₂) : c.SameDefinitions c₂ :=
  ⟨fun id => (h'.jobsets id).trans (h.jobsets id), fun k => (h'.inputs k).trans (h.inputs k)⟩

theorem symm (h : c.SameDefinitions c₁) : c₁.SameDefinitions c :=
  ⟨fun id => (h.jobsets id).symm, fun k => (h.inputs k).symm⟩

theorem iff_right (h : c.SameDefinitions c₁) : c.SameDefinitions c₂ ↔ c₁.SameDefinitions c₂ :=
  ⟨h.symm.trans, h.trans⟩

theorem withDb {db : Db} (hdb : db.jobsets = c.db.jobsets) : c.SameDefinitions (c.withDb db hdb) :=
  ⟨fun id => by simp only [definition, Catalog.withDb, hdb], fun _ => rfl⟩

theorem asDeclared {l : Limits} {projectId : Uuid} {js : DeclarativeJobset} (h : c.SameDefinitions c₁) :
    c₁.AsDeclared l projectId js ↔ c.AsDeclared l projectId js := by
  unfold AsDeclared
  simp only [h.jobsets, h.inputs]

end SameDefinitions

/-- The states of a run that begins with `c₁`. -/
theorem forall_cons_same {c c₁ : Catalog} {cs : List Catalog} :
    (∀ c' ∈ c₁ :: cs, c.SameDefinitions c') ↔ c.SameDefinitions c₁ ∧ ∀ c' ∈ cs, c₁.SameDefinitions c' := by
  rw [List.forall_mem_cons]
  refine and_congr_right fun h => forall₂_congr fun c' _ => h.iff_right

theorem getLastD_same {c : Catalog} {cs : List Catalog} (h : ∀ c' ∈ cs, c.SameDefinitions c') :
    c.SameDefinitions (cs.getLastD c) := by
  rw [List.getLastD_eq_getLast?]
  cases hl : cs.getLast? with
  | none => exact .refl c
  | some c' => exact h c' (List.mem_of_getLast? hl)

/-! ### One write -/

section Write

variable {c : Catalog} {l : Limits} {projectId jobsetId : Uuid}

theorem definition_write (input : CreateJobset) (id : Uuid) : (c.write input).definition id =
    if id = c.target input then some ((input.row (c.target input)).definition, input.details)
    else c.definition id := by
  have hget : (c.write input).db.jobsets.get id =
      if id = (input.row (c.target input)).id then some (input.row (c.target input)) else c.db.jobsets.get id :=
    Table.get_upsert ..
  have hid : (input.row (c.target input)).id = c.target input := rfl
  rw [definition, hget, hid]
  by_cases h : id = c.target input
  · subst h
    simp [write]
  · simp [h, write, definition]

theorem write_same_iff (input : CreateJobset) : c.SameDefinitions (c.write input) ↔
    c.definition (c.target input) = some ((input.row (c.target input)).definition, input.details) := by
  constructor
  · intro h
    rw [← h.jobsets, definition_write, if_pos rfl]
  · intro h
    refine ⟨fun id => ?_, fun _ => rfl⟩
    rw [definition_write]
    split_ifs with hid
    · rw [hid, h]
    · rfl

/-- The only jobset that can be as declared is the one that is written. -/
theorem target_of_definition {input : CreateJobset} {id : Uuid}
    (h : c.definition id = some ((input.row id).definition, input.details)) : c.target input = id := by
  obtain ⟨j, hj, heq⟩ := Option.map_eq_some_iff.mp h
  obtain ⟨hrow, hdetails⟩ := Prod.mk.inj heq
  have hid : j.id = id := Db.id_of_getJobset hj
  have hproject : j.projectId = input.projectId := by
    have := congrArg JobsetRow.projectId hrow
    unfold JobsetRow.definition at this
    split_ifs at this <;> exact this
  rw [← hid]
  refine (eq_target (Table.mem_of_get hj) hproject ?_).2
  rw [hid, hdetails]
  rfl

theorem deleteInputs_same_iff (names : List String) : c.SameDefinitions (c.deleteInputs jobsetId names) ↔
    ∀ name, (c.inputs.get (jobsetId, name)).isSome → name ∈ names := by
  have hget : ∀ k, (c.deleteInputs jobsetId names).inputs.get k =
      (c.inputs.get k).filter fun i => !decide (i.jobsetId = jobsetId ∧ i.name ∉ names) :=
    fun k => Table.get_delete ..
  constructor
  · intro h name hsome
    obtain ⟨i, hi⟩ := Option.isSome_iff_exists.mp hsome
    have hkey : i.key = (jobsetId, name) := Table.key_of_get hi
    obtain ⟨hj, hn⟩ := Prod.mk.inj hkey
    have := (hget (jobsetId, name)).symm.trans (h.inputs _)
    rw [hi, Option.filter_eq_some_iff] at this
    by_contra hnot
    simp [hj, hn, hnot] at this
  · intro h
    refine ⟨fun _ => rfl, fun k => ?_⟩
    rw [hget]
    cases hi : c.inputs.get k with
    | none => rfl
    | some i =>
      have hkey : i.key = k := Table.key_of_get hi
      rw [Option.filter_some_pos]
      by_cases hj : i.jobsetId = jobsetId
      · have := h i.name (by rw [← hj, show (i.jobsetId, i.name) = k from hkey, hi]; rfl)
        simp [this]
      · simp [hj]

theorem writeInput_same_iff (i : DeclarativeJobsetInput) : c.SameDefinitions (c.writeInput jobsetId i) ↔
    c.inputs.get (jobsetId, i.name) = some ⟨i, jobsetId⟩ := by
  have hget : ∀ k, (c.writeInput jobsetId i).inputs.get k =
      if k = (jobsetId, i.name) then some ⟨i, jobsetId⟩ else c.inputs.get k := fun k => Table.get_upsert ..
  constructor
  · intro h
    rw [← h.inputs, hget, if_pos rfl]
  · intro h
    refine ⟨fun _ => rfl, fun k => ?_⟩
    rw [hget]
    split_ifs with hk
    · rw [hk, h]
    · rfl

/-! ### The loops -/

theorem syncInputs_same_iff (is : List DeclarativeJobsetInput) (c : Catalog) :
    (∀ c' ∈ syncInputs l jobsetId is c, c.SameDefinitions c') ↔
      ∀ i ∈ is.takeWhile fun i => (i.validate l).isOk, c.inputs.get (jobsetId, i.name) = some ⟨i, jobsetId⟩ := by
  induction is generalizing c with
  | nil => simp [syncInputs]
  | cons i is ih =>
    rw [syncInputs]
    by_cases hi : (i.validate l).isOk = true
    · rw [if_pos hi, forall_cons_same, writeInput_same_iff, ih, List.takeWhile_cons, if_pos hi, List.forall_mem_cons]
      refine and_congr_right fun h => ?_
      simp only [((writeInput_same_iff i).mpr h).inputs]
    · simp [hi]

theorem syncJobset_same_iff (js : DeclarativeJobset) (c : Catalog) :
    (∀ c' ∈ c.syncJobset l projectId js, c.SameDefinitions c') ↔ c.AsDeclared l projectId js := by
  unfold syncJobset upsertJobset AsDeclared
  by_cases hok : ((js.create projectId).validate.isOk && !l.refused (js.create projectId)) = true
  swap
  · rw [if_neg hok]
    simp only [List.not_mem_nil, false_implies, implies_true, true_iff]
    intro hvalid hfits
    simp [hvalid, hfits] at hok
  rw [if_pos hok]
  obtain ⟨hvalid, hfits⟩ := Bool.and_eq_true_iff.mp hok
  have hfits : l.refused (js.create projectId) = false := by simpa using hfits
  dsimp only
  rw [forall_cons_same, write_same_iff]
  -- the jobset that is written is the one that has to be as declared
  have hwrite : (∃ id, c.definition id = some (((js.create projectId).row id).definition,
        (js.create projectId).details) ∧ (js.inputs ≠ [] →
          (∀ name, (c.inputs.get (id, name)).isSome → name ∈ js.inputs.map (·.name)) ∧
          ∀ i ∈ js.inputs.takeWhile fun i => (i.validate l).isOk, c.inputs.get (id, i.name) = some ⟨i, id⟩)) ↔
      c.definition (c.target (js.create projectId)) = some (((js.create projectId).row
        (c.target (js.create projectId))).definition, (js.create projectId).details) ∧ (js.inputs ≠ [] →
          (∀ name, (c.inputs.get (c.target (js.create projectId), name)).isSome → name ∈ js.inputs.map (·.name)) ∧
          ∀ i ∈ js.inputs.takeWhile fun i => (i.validate l).isOk,
            c.inputs.get (c.target (js.create projectId), i.name) = some ⟨i, c.target (js.create projectId)⟩) := by
    constructor
    · rintro ⟨id, hd, hi⟩
      obtain rfl := target_of_definition hd
      exact ⟨hd, hi⟩
    · rintro ⟨hd, hi⟩
      exact ⟨_, hd, hi⟩
  rw [forall_prop_of_true hvalid, forall_prop_of_true hfits, hwrite]
  refine and_congr_right fun _ => ?_
  by_cases hempty : js.inputs = []
  · simp [hempty]
  rw [if_neg (by simpa using hempty), forall_prop_of_true hempty, forall_cons_same, deleteInputs_same_iff,
    syncInputs_same_iff]
  refine and_congr_right fun hnames => ?_
  simp only [((deleteInputs_same_iff (c := c.write (js.create projectId)) _).mpr hnames).inputs]
  rfl

theorem syncJobsets_same_iff (config : List DeclarativeJobset) (c : Catalog) :
    (∀ c' ∈ c.syncJobsets l projectId config, c.SameDefinitions c') ↔
      ∀ js ∈ config, c.AsDeclared l projectId js := by
  induction config generalizing c with
  | nil => simp [syncJobsets]
  | cons js config ih =>
    rw [syncJobsets, List.forall_mem_append, List.forall_mem_cons, syncJobset_same_iff]
    refine and_congr_right fun hjs => ?_
    have hlast := getLastD_same ((syncJobset_same_iff js c).mpr hjs)
    rw [forall₂_congr fun c' _ => hlast.iff_right, ih]
    exact forall₂_congr fun js' _ => hlast.asDeclared

end Write

/-- Completing a one-shot jobset changes `enabled` only. -/
theorem markOneShotComplete_same (c : Catalog) (id : Uuid) : c.SameDefinitions (c.markOneShotComplete id) := by
  refine ⟨fun k => ?_, fun _ => rfl⟩
  have hget : (c.markOneShotComplete id).db.jobsets.get k = (c.db.jobsets.get k).map fun j =>
      if decide (j.id = id ∧ j.state = .oneShot) then { j with enabled := false } else j :=
    Table.get_update c.db.jobsets _ (fun j => { j with enabled := false }) (fun _ => rfl) k
  rw [definition, hget, Option.map_map, definition]
  congr 1
  funext j
  by_cases h : j.id = id ∧ j.state = .oneShot
  · simp [h, markOneShotComplete, JobsetRow.definition]
  · simp [h, markOneShotComplete]

end Catalog

/-! ### A whole call -/

namespace PendingCall

open Catalog

variable (w : PendingCall) (jobset : JobsetRow) (id : Uuid)

theorem evaluateAndFinish_same (c : Catalog) : ∀ c' ∈ w.evaluateAndFinish jobset id c, c.SameDefinitions c' := by
  unfold evaluateAndFinish
  refine forall_cons_same.mpr ⟨.withDb _, fun c' hc' => ?_⟩
  split_ifs at hc'
  · rw [List.mem_singleton.mp hc']
    exact markOneShotComplete_same _ _
  · cases hc'

theorem sync_same_iff (tree : Tree) (c : Catalog) :
    (∀ c' ∈ w.sync jobset.projectId tree c, c.SameDefinitions c') ↔
      (c.allowsRepoConfig jobset.projectId = true → ∀ config, readRepoConfig w.parse tree = some config →
        ∀ js ∈ config, c.AsDeclared w.limits jobset.projectId js) := by
  unfold sync
  by_cases hallows : c.allowsRepoConfig jobset.projectId = true
  · rw [if_pos hallows, forall_prop_of_true hallows]
    cases readRepoConfig w.parse tree with
    | none => simp
    | some => simp [syncJobsets_same_iff]
  · simp [hallows]

/-- **A change request cannot reconfigure its project**, exactly when the
configuration the call writes, if it comes to one, declares every jobset as the
tables have it. It comes to none if the evaluation is not pending any more, is
cancelled during the checkout or cannot be checked out, if the project is
managed declaratively, or if the tree has no configuration that can be read.
This holds for every evaluation, whatever it was created for. -/
theorem reconfigures_nothing_iff (c : Catalog) :
    (∀ c' ∈ w.evaluatePendingEval jobset id c, c.SameDefinitions c') ↔
      ∀ config, w.config jobset id c = some config →
        ∀ js ∈ config, c.AsDeclared w.limits jobset.projectId js := by
  unfold evaluatePendingEval config
  by_cases hpending : ((c.db.evaluations.get id).any fun e => decide (e.status = .pending)) = true
  swap
  · simp [hpending]
  rw [if_pos hpending]
  dsimp only
  have hclaimed : c.SameDefinitions (c.issue w.now (.tryClaimPending id)) := .withDb _
  rw [forall_cons_same, and_iff_right hclaimed]
  cases hcheckout : w.checkout with
  | none => simp
  | some tree =>
    dsimp only
    by_cases hcancelled : w.cancelled = true
    · simp [hcancelled]
    rw [if_neg hcancelled]
    have hallows : ((c.issue w.now (.tryClaimPending id)).issue w.now
        (.setInputsHash id w.inputsHash)).allowsRepoConfig = c.allowsRepoConfig := rfl
    generalize c.issue w.now (.tryClaimPending id) = c₁ at hclaimed hallows
    have hhashed : c₁.SameDefinitions (c₁.issue w.now (.setInputsHash id w.inputsHash)) := .withDb _
    generalize c₁.issue w.now (.setInputsHash id w.inputsHash) = c₂ at hhashed hallows
    have hfinish : (∀ c' ∈ w.sync jobset.projectId tree c₂, c₂.SameDefinitions c') →
        ∀ c' ∈ w.evaluateAndFinish jobset id ((w.sync jobset.projectId tree c₂).getLastD c₂), c₂.SameDefinitions c' :=
      fun h c' hc' => (getLastD_same h).trans (w.evaluateAndFinish_same jobset id _ c' hc')
    rw [forall_cons_same, and_iff_right hhashed, List.forall_mem_append, and_iff_left_of_imp hfinish, sync_same_iff,
      hallows]
    simp only [(hclaimed.trans hhashed).asDeclared]
    by_cases hallowed : c.allowsRepoConfig jobset.projectId = true <;> simp [hpending, hcancelled, hallowed]

end PendingCall

/-- A change request from outside, for `main`. -/
def proposal : Webhooks.ChangeRequestEvaluation where
  projectId := 0
  commit := "a"
  first := true
  number := some 7
  baseBranch := some "main"

/-- It has reached the server. -/
def proposed : Db :=
  (Webhooks.changeRequests proposal (withJobset mainJobset).db).foldl (fun db r => Webhooks.attempt 0 r db)
    (withJobset mainJobset).db

def releaseDetails (_ : Uuid) : JobsetDetails := { name := "main", nixExpression := "release.nix" }

theorem proposed_name_unique : ∀ j ∈ proposed.jobsets.rows, ∀ j' ∈ proposed.jobsets.rows,
    j.projectId = j'.projectId → (releaseDetails j.id).name = (releaseDetails j'.id).name → j.id = j'.id := by
  decide

theorem nodup_noInputs : (([] : List JobsetInput).map JobsetInput.key).Nodup := List.nodup_nil

def proposedCatalog : Catalog where
  db := proposed
  details := releaseDetails
  inputs := ⟨[], nodup_noInputs⟩
  managedDeclaratively _ := some false
  name_unique := proposed_name_unique

/-- Its tree declares another expression for the jobset, and a second jobset. -/
def proposedCall : PendingCall where
  now := 1
  limits := ⟨fun _ => .ok (), fun _ => false⟩
  parse _ := some [{ name := "main", nixExpression := "other.nix" }, { name := "second", nixExpression := "other.nix" }]
  checkout := some fun path => if path = ".circus.toml" then some (some "") else none
  cancelled := false
  inputsHash := ""
  event := .skip

theorem reconfigured_by_change :
    (proposedCatalog.db.evaluations.get 1).map (fun e => (e.prNumber, e.status)) = some (some 7, .pending) ∧
    (∃ c' ∈ proposedCall.evaluatePendingEval mainJobset 1 proposedCatalog,
      (c'.definition 0).map (·.2.nixExpression) = some "other.nix" ∧ (c'.find 0 "second").isSome) ∧
    ¬ ∀ c' ∈ proposedCall.evaluatePendingEval mainJobset 1 proposedCatalog, proposedCatalog.SameDefinitions c' := by
  have h : ∃ c' ∈ proposedCall.evaluatePendingEval mainJobset 1 proposedCatalog,
      (c'.definition 0).map (·.2.nixExpression) = some "other.nix" ∧ (c'.find 0 "second").isSome := by decide
  refine ⟨by decide, h, fun hsame => ?_⟩
  obtain ⟨c', hc', hexpr, -⟩ := h
  rw [(hsame c' hc').jobsets 0] at hexpr
  revert hexpr
  decide

end Evaluator

end Circus
