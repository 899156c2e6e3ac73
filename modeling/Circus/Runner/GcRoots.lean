/-
# Kept builds and the garbage collection roots

A worker whose build has succeeded goes through the outputs. For each of them
it links a root in `gc_roots_dir` (`GcRoots::register`), inserts a row into
`build_products` and writes the link's path into the row; then it completes the
build. The first root is named by the build's id, the others by fresh ids. The
scheduler loop completes a build without any of this when it reuses the result
of another build of the derivation or finds a fixed output valid.

`gc_loop` of `crates/queue-runner/src/cli.rs` asks for the ids of the builds
with `keep = true`, then for their products, takes a failed query for an empty
answer, and removes every old root which is neither named by one of the ids
nor recorded with nor pointing at one of the products.

So a kept build is protected by its products. `kept_roots_stay`: if the query
for them goes through, and a build is kept only if its outputs are in rows of
its own and no cycle is at the directory, no cycle removes a root of an output
of a kept build. `kept_root_removed` has the runs that leave out one of the
three.
-/
import Circus.Runner.Tasks

namespace Circus.Runner

/-! ### What makes a build succeed -/

section Succeeds

variable {cfg : Config} {s s' : State} {a : Action} {k : Uuid}

theorem fromExitCode_succeeded {c : ℤ} (h : BuildStatus.fromExitCode c = .succeeded) : c = 0 := by
  unfold BuildStatus.fromExitCode at h
  split at h <;> first | rfl | cases h

/-- Of the reports only that of a success whose upload went through, or need not, writes the status. -/
theorem success_of_report {now : Time} {b : Build} {o : Outcome} {v : Option Venue} {db : Db}
    (ho : o.possible v = true) (hk : db.status k ≠ some .succeeded)
    (hk' : ((report cfg now b o).1 db).status k = some .succeeded) :
    ∃ l outs failed, o = .success l outs failed ∧ ¬ (failed ≠ [] ∧ cfg.failBuildOnUploadError = true) := by
  have hcomplete : ∀ st l out e, st ≠ .succeeded →
      (Builds.complete now b.id st l out e db).status k ≠ some .succeeded := fun st l out e hst =>
    status_updateBuild_ne (Build.toJob_complete now st l out e) (fun _ h => absurd h hst) hk
  cases o with
  | success l outs failed =>
    refine ⟨l, outs, failed, rfl, fun hf => ?_⟩
    rw [report, if_pos hf] at hk'
    exact hcomplete .failed l none _ (by decide) hk'
  | failure c e l =>
    exfalso
    rw [report] at hk'
    split_ifs at hk' with hr
    · exact status_updateBuild_ne Build.toJob_retry (fun b h => by cases h) hk hk'
    · refine hcomplete _ l none _ (fun hc => ?_) hk'
      cases c with
      | none => cases hc
      | some => exact of_decide_eq_true ho (congrArg some (fromExitCode_succeeded hc))
  | error => exact absurd hk' (hcomplete .failed none none _ (by decide))
  | noVenue =>
    refine absurd hk' (status_updateBuild_ne Build.toJob_requeue (fun b h => ?_) hk)
    unfold Build.requeue at h
    split_ifs at h
    exact h

/-- A build becomes succeeded because a worker reports so or because the loop marks it. -/
theorem success_of_step (h : step cfg s a = some s') (hk : s.db.status k ≠ some .succeeded)
    (hk' : s'.db.status k = some .succeeded) :
    (∃ t task l outs failed, a = .task t (.report (.success l outs failed)) ∧ s.task t = some task ∧
      task.build.id = k ∧ ¬ (failed ≠ [] ∧ cfg.failBuildOnUploadError = true)) ∨
    ∃ env b c, a = .loop env ∧ s.loop.phase = .doneComplete b c ∧ b.id = k ∧ c.status = .succeeded := by
  rcases step_status h k with heq | ⟨st, st', -, h', hm⟩
  · exact absurd (heq ▸ hk') hk
  · obtain rfl : st' = .succeeded := Option.some.inj (h'.symm.trans hk')
    generalize hq : BuildStatus.succeeded = q at hm
    cases hm with
    | claim | doneStart | requeue | retry | cancel | sweep | restart => cases hq
    | doneComplete env b c st ha hp hid => exact .inr ⟨env, b, c, ha, hp, hid, rfl⟩
    | complete t task o st st' ha ht hp hid =>
      subst ha
      obtain ⟨hdb, ho⟩ := report_of_step h ht
      rw [hdb] at hk'
      obtain ⟨l, outs, failed, rfl, hup⟩ := success_of_report ho hk hk'
      exact .inl ⟨t, task, l, outs, failed, rfl, ht, hid, hup⟩

end Succeeds

namespace GcRoots

open Lts

/-! ### The directory and the table -/

structure Config where
  runner : Runner.Config := {}
  /-- `max_age_days`, in seconds -/
  maxAge : Time

/-- The name of a link. Only those of the first kind are ids of builds. -/
inductive RootName
  | build (id : Uuid)
  | fresh (n : ℕ)
  | other (name : String)
  deriving DecidableEq

/-- `name.parse::<Uuid>()`, as far as builds go. -/
def RootName.buildId : RootName → Option Uuid
  | build id => some id
  | fresh _ | other _ => none

structure Root where
  target : String
  modified : Time
  deriving DecidableEq

/-- A row of `build_products`. -/
structure Product where
  id : ℕ
  buildId : Uuid
  path : String
  gcRootPath : Option RootName := none

/-- `set_gc_root_path`, on one row. -/
def Product.setGcRootPath (productId : ℕ) (name : RootName) (p : Product) : Product :=
  if p.id = productId then { p with gcRootPath := some name } else p

/-- How `GcRoots::register` ends. -/
inductive Registration
  | linked
  /-- roots are disabled, or the path is not one of the store -/
  | refused
  /-- the old link is removed and the new one cannot be made -/
  | unlinked

def Registration.path (name : RootName) : Registration → Option RootName
  | linked => some name
  | refused | unlinked => none

/-- Where the worker is with an output. -/
inductive Stage
  | register
  | product (gcRootPath : Option RootName)
  | rootPath (productId : ℕ) (gcRootPath : RootName)

/-- The worker's way through the outputs of its build. -/
structure Recording where
  done : List String := []
  todo : List String
  stage : Stage := .register

namespace Recording

/-- The worker goes on to the next output. -/
def next (r : Recording) : Recording :=
  match r.todo with
  | [] => r
  | path :: rest => { done := r.done ++ [path], todo := rest }

/-- The row of the output is there: next comes the link's path, if there is a link. -/
def inserted (r : Recording) (productId : ℕ) : Option RootName → Recording
  | some name => { r with stage := .rootPath productId name }
  | none => r.next

def rows (r : Recording) : List String :=
  match r.stage, r.todo with
  | .rootPath _ _, path :: _ => r.done ++ [path]
  | _, _ => r.done

variable {r : Recording}

theorem rows_nil (h : r.todo = []) : r.rows = r.done := by
  unfold rows
  rw [h]
  cases r.stage <;> rfl

theorem rows_next {path : String} {rest : List String} (h : r.todo = path :: rest) :
    r.next.rows = r.done ++ [path] := by
  unfold next
  rw [h]
  rfl

theorem rows_inserted {path : String} {rest : List String} (h : r.todo = path :: rest) (productId : ℕ)
    (name : Option RootName) : (r.inserted productId name).rows = r.done ++ [path] := by
  cases name with
  | none => exact rows_next h
  | some =>
    unfold inserted rows
    dsimp only
    rw [h]

end Recording

/-! ### The collector -/

/-- What the two queries of a cycle have returned. -/
structure Pinned where
  buildIds : List Uuid
  rootPaths : List RootName
  outputPaths : List String

/-- The paths `gc_loop` takes from the products. -/
def Pinned.of (buildIds : List Uuid) (products : List Product) : Pinned where
  buildIds := buildIds
  rootPaths := products.filterMap (·.gcRootPath)
  outputPaths := products.map (·.path)

def isPinnedRoot (pinned : Pinned) (name : RootName) (root : Root) : Bool :=
  decide (name ∈ pinned.rootPaths) || name.buildId.any (fun id => decide (id ∈ pinned.buildIds)) ||
    decide (root.target ∈ pinned.outputPaths)

/-- `cleanup_old_roots` removes the entry. -/
def removes (maxAge now : Time) (pinned : Pinned) (name : RootName) (root : Root) : Bool :=
  !isPinnedRoot pinned name root && decide (maxAge < now - root.modified)

/-- Where `gc_loop` is. -/
inductive Cycle
  | idle
  | listed (buildIds : List Uuid)
  /-- `cleanup_old_roots`, entered at `now` -/
  | cleaning (now : Time) (pinned : Pinned)

def Cycle.isCleaning : Cycle → Bool
  | cleaning _ _ => true
  | idle | listed _ => false

/-! ### The system -/

structure State where
  runner : Runner.State
  /-- the column `keep` -/
  keep : Uuid → Bool := fun _ => false
  products : List Product := []
  /-- `gc_roots_dir` -/
  roots : RootName → Option Root := fun _ => none
  nextName : ℕ := 0
  /-- of the tasks that execute -/
  recordings : ℕ → Option Recording := fun _ => none
  cycle : Cycle := .idle
  /-- what the builds that have succeeded consist of -/
  outputs : Uuid → List String := fun _ => []

inductive Action
  | runner (a : Runner.Action)
  /-- the execution of task `t` has succeeded -/
  | built (t : ℕ) (outputPaths : List String)
  | register (t : ℕ) (outcome : Registration)
  /-- `build_products::create` -/
  | product (t : ℕ)
  /-- `build_products::set_gc_root_path` -/
  | rootPath (t : ℕ)
  | setKeep (id : Uuid) (keep : Bool)
  /-- `list_pinned_ids`, which may fail -/
  | pinnedIds (ok : Bool)
  /-- `list_pinned_for_gc`, which may fail -/
  | pinnedProducts (ok : Bool)
  /-- `cleanup_old_roots` comes to an entry -/
  | entry (name : RootName)
  | cycleEnd

namespace State

/-- The result of the derivation that a path stands for: the path and what the
builds consist of that have it for their output. -/
def result (s : State) (b : Build) : Option String → List String
  | none => []
  | some path => path :: (s.runner.db.builds.select fun e =>
      decide (e.drvPath = b.drvPath ∧ e.status = .succeeded ∧ e.buildOutputPath = some path)).flatMap
        fun e => s.outputs e.id

/-- The build a worker completes as succeeded, and its outputs. -/
def executed (cfg : Config) (s : State) : Runner.Action → Option (Uuid × List String)
  | .task t (.report (.success _ outputPaths uploadFailedPaths)) =>
    if uploadFailedPaths ≠ [] ∧ cfg.runner.failBuildOnUploadError = true then none
    else (s.runner.task t).map fun task => (task.build.id, outputPaths)
  | _ => none

/-- The build the loop completes as succeeded, and its outputs. -/
def reused (s : State) : Runner.Action → Option (Uuid × List String)
  | .loop _ =>
    match s.runner.loop.phase with
    | .doneComplete b c => if c.status = .succeeded then some (b.id, s.result b c.buildOutputPath) else none
    | _ => none
  | _ => none

def completed (cfg : Config) (s : State) (a : Runner.Action) : Option (Uuid × List String) :=
  (s.executed cfg a).or (s.reused a)

/-- A worker reports its success when every output is recorded, and nothing else once Nix has succeeded. -/
def allows (s : State) : Runner.Action → Bool
  | .task t (.report (.success _ outputPaths _)) =>
    (s.recordings t).any fun r => decide (r.todo = [] ∧ r.done = outputPaths)
  | .task t (.report _) | .task t .agentLost => (s.recordings t).isNone
  | _ => true

/-- After a step of the runner. A task that does not execute any more has left the recording. -/
def follow (cfg : Config) (s : State) (a : Runner.Action) (r : Runner.State) : State :=
  { s with
    runner := r
    recordings := fun t =>
      if (r.task t).any (fun task => decide (task.phase = .executing)) then s.recordings t else none
    outputs := match s.completed cfg a with
      | some (k, outputPaths) => Function.update s.outputs k outputPaths
      | none => s.outputs }

/-- The recording of task `t`, with the id of its build. -/
def recording (s : State) (t : ℕ) : Option (Uuid × Recording) :=
  (s.runner.task t).bind fun task => (s.recordings t).map fun r => (task.build.id, r)

def setRecording (s : State) (t : ℕ) (r : Recording) : State :=
  { s with recordings := Function.update s.recordings t (some r) }

def register (s : State) (name : RootName) (path : String) : Registration → State
  | .linked => { s with
      roots := Function.update s.roots name (some ⟨path, s.runner.now⟩)
      nextName := s.nextName + 1 }
  | .refused => { s with nextName := s.nextName + 1 }
  | .unlinked => { s with
      roots := Function.update s.roots name none
      nextName := s.nextName + 1 }

/-- The next statement of a recording. An error ends the task: it is the runner's step. -/
def registerStep (s : State) (t : ℕ) (outcome : Registration) (id : Uuid) (r : Recording) : Option State :=
  match r.stage, r.todo with
  | .register, path :: _ =>
    let name := if r.done = [] then .build id else .fresh s.nextName
    some ((s.register name path outcome).setRecording t { r with stage := .product (outcome.path name) })
  | _, _ => none

def productStep (s : State) (t : ℕ) (id : Uuid) (r : Recording) : Option State :=
  match r.stage, r.todo with
  | .product gcRootPath, path :: _ =>
    let row := { id := s.products.length, buildId := id, path := path }
    some ({ s with products := s.products ++ [row] }.setRecording t (r.inserted row.id gcRootPath))
  | _, _ => none

def rootPathStep (s : State) (t : ℕ) (r : Recording) : Option State :=
  match r.stage, r.todo with
  | .rootPath productId name, _ :: _ =>
    some ({ s with products := s.products.map (Product.setGcRootPath productId name) }.setRecording t r.next)
  | _, _ => none

def listPinnedIds (s : State) : List Uuid := (s.runner.db.builds.select fun b => s.keep b.id).map (·.id)

def listPinnedForGc (s : State) : List Product := s.products.filter fun p => s.keep p.buildId

/-- One entry of `cleanup_old_roots`. -/
def cleanEntry (cfg : Config) (s : State) (name : RootName) (now : Time) (pinned : Pinned) : State :=
  match s.roots name with
  | none => s
  | some root =>
    if removes cfg.maxAge now pinned name root then { s with roots := Function.update s.roots name none } else s

end State

def step (cfg : Config) (s : State) : Action → Option State
  | .runner a => if s.allows a then (Runner.step cfg.runner s.runner a).map (s.follow cfg a) else none
  | .built t outputPaths =>
    match s.runner.task t, s.recordings t with
    | some task, none => if task.phase = .executing then some (s.setRecording t { todo := outputPaths }) else none
    | _, _ => none
  | .register t outcome => (s.recording t).bind fun x => s.registerStep t outcome x.1 x.2
  | .product t => (s.recording t).bind fun x => s.productStep t x.1 x.2
  | .rootPath t => (s.recording t).bind fun x => s.rootPathStep t x.2
  | .setKeep id keep =>
    if (s.runner.db.builds.get id).isSome then some { s with keep := Function.update s.keep id keep } else none
  | .pinnedIds ok =>
    match s.cycle with
    | .idle => some { s with cycle := .listed (if ok then s.listPinnedIds else []) }
    | _ => none
  | .pinnedProducts ok =>
    match s.cycle with
    | .listed buildIds =>
      some { s with cycle := .cleaning s.runner.now (.of buildIds (if ok then s.listPinnedForGc else [])) }
    | _ => none
  | .entry name =>
    match s.cycle with
    | .cleaning now pinned => some (s.cleanEntry cfg name now pinned)
    | _ => none
  | .cycleEnd =>
    match s.cycle with
    | .cleaning _ _ => some { s with cycle := .idle }
    | _ => none

/-! ### Kept builds -/

namespace State

def Kept (s : State) (k : Uuid) : Prop := s.keep k = true ∧ s.runner.db.status k = some .succeeded

instance (s : State) (k : Uuid) : Decidable (s.Kept k) := inferInstanceAs (Decidable (_ ∧ _))

/-- The table, without the roots. -/
def rows (s : State) : List (Uuid × String) := s.products.map fun p => (p.buildId, p.path)

/-- Each of the outputs is in a row of the build. -/
def Recorded (s : State) (k : Uuid) (outputPaths : List String) : Prop := ∀ path ∈ outputPaths, (k, path) ∈ s.rows

instance (s : State) (k : Uuid) (outputPaths : List String) : Decidable (s.Recorded k outputPaths) :=
  inferInstanceAs (Decidable (∀ path ∈ outputPaths, (k, path) ∈ s.rows))

end State

/-- Where a run starts: between two cycles, with no worker at its outputs, and the outputs of the
builds kept so far in rows of theirs. -/
structure Started (s : State) : Prop where
  cycle : s.cycle = .idle
  recordings : ∀ t, s.recordings t = none
  kept : ∀ k, s.Kept k → s.Recorded k (s.outputs k)

/-- The products are found, and a build that the loop completes or that has succeeded is kept only if
its outputs are in rows of its own. -/
def PinsRecorded (s : State) : Action → Prop
  | .setKeep k keep => keep = true → s.runner.db.status k = some .succeeded → s.Recorded k (s.outputs k)
  | .runner a => ∀ x ∈ s.reused a, s.keep x.1 = true → s.Recorded x.1 x.2
  | .pinnedProducts ok => ok = true
  | _ => True

instance (s : State) (a : Action) : Decidable (PinsRecorded s a) := by
  unfold PinsRecorded
  split <;> infer_instance

/-- No build becomes kept while a cycle is at the directory. -/
def AwaitsCycle (cfg : Config) (s : State) : Action → Prop
  | .setKeep k keep => keep = true → s.runner.db.status k = some .succeeded → s.cycle.isCleaning = false
  | .runner a => ∀ x ∈ s.completed cfg a, s.keep x.1 = true → s.cycle.isCleaning = false
  | _ => True

instance (cfg : Config) (s : State) (a : Action) : Decidable (AwaitsCycle cfg s a) := by
  unfold AwaitsCycle
  split <;> infer_instance

/-! ### The invariant -/

/-- The outputs of kept builds, and those a worker has got through, are in the table; a cycle at the
directory has all those of kept builds. -/
structure GcInv (s : State) : Prop where
  recordings : ∀ t r, s.recordings t = some r →
    ∃ task, s.runner.task t = some task ∧ task.phase = .executing ∧ s.Recorded task.build.id r.rows
  kept : ∀ k, s.Kept k → s.Recorded k (s.outputs k)
  cycle : ∀ now pinned, s.cycle = .cleaning now pinned →
    ∀ k, s.Kept k → ∀ path ∈ s.outputs k, path ∈ pinned.outputPaths

theorem Started.inv {s : State} (h : Started s) : GcInv s where
  recordings t r hr := by
    rw [h.recordings t] at hr
    cases hr
  kept := h.kept
  cycle now pinned hc := by
    rw [h.cycle] at hc
    cases hc

section Steps

variable {cfg : Config} {s s' : State} {t : ℕ}

/-! ### Steps of a recording -/

/-- A worker at its outputs changes neither the builds nor the cycle, and adds rows only. -/
structure Records (s s' : State) : Prop where
  runner : s'.runner = s.runner
  keep : s'.keep = s.keep
  outputs : s'.outputs = s.outputs
  cycle : s'.cycle = s.cycle
  recordings : s'.recordings = s.recordings
  rows : s.rows ⊆ s'.rows

variable {k : Uuid}

theorem Records.kept (h : Records s s') (hk : s'.Kept k) : s.Kept k := by
  unfold State.Kept at hk ⊢
  rwa [h.runner, h.keep] at hk

variable {outputPaths : List String}

theorem Records.recorded (h : Records s s') (hr : s.Recorded k outputPaths) :
    s'.Recorded k outputPaths := fun path hp => h.rows (hr path hp)

/-- Its recording goes on with rows that are there. -/
theorem GcInv.setRecording (hI : GcInv s) (h : Records s s') {r : Recording} {task : Task}
    (ht : s.runner.task t = some task) (hp : task.phase = .executing) (hr : s'.Recorded task.build.id r.rows) :
    GcInv (s'.setRecording t r) where
  recordings t' r' h' := by
    have hrun : (s'.setRecording t r).runner = s.runner := h.runner
    have hrec : (s'.setRecording t r).recordings = Function.update s.recordings t (some r) := by
      rw [State.setRecording, h.recordings]
    rw [hrec] at h'
    rw [hrun]
    by_cases htt : t' = t
    · subst htt
      rw [Function.update_self] at h'
      obtain rfl : r = r' := Option.some.inj h'
      exact ⟨task, ht, hp, hr⟩
    · rw [Function.update_of_ne htt] at h'
      obtain ⟨task', ht', hp', hr'⟩ := hI.recordings t' r' h'
      exact ⟨task', ht', hp', h.recorded hr'⟩
  kept k hk := by
    have hout : (s'.setRecording t r).outputs = s.outputs := h.outputs
    rw [hout]
    exact h.recorded (hI.kept k (h.kept hk))
  cycle now pinned hc k hk := by
    have hout : (s'.setRecording t r).outputs = s.outputs := h.outputs
    rw [hout]
    exact hI.cycle now pinned (h.cycle.symm.trans hc) k (h.kept hk)

/-- A worker at its outputs executes, and its rows are there. -/
theorem GcInv.recording (hI : GcInv s) {x : Uuid × Recording} (h : s.recording t = some x) :
    ∃ task, s.runner.task t = some task ∧ task.phase = .executing ∧ task.build.id = x.1 ∧ s.Recorded x.1 x.2.rows := by
  obtain ⟨task, ht, hx⟩ := Option.bind_eq_some_iff.mp h
  obtain ⟨r, hr, rfl⟩ := Option.map_eq_some_iff.mp hx
  obtain ⟨task', ht', hp, hrows⟩ := hI.recordings t r hr
  obtain rfl : task = task' := Option.some.inj (ht.symm.trans ht')
  exact ⟨task, ht, hp, rfl, hrows⟩

theorem records_register (s : State) (name : RootName) (path : String) (outcome : Registration) :
    Records s (s.register name path outcome) := by
  cases outcome <;> exact ⟨rfl, rfl, rfl, rfl, rfl, List.Subset.refl _⟩

/-- The link is not a row yet. -/
theorem GcInv.registerStep (hI : GcInv s) {outcome : Registration} (h : step cfg s (.register t outcome) = some s') :
    GcInv s' := by
  obtain ⟨⟨id, r⟩, hx, h⟩ := Option.bind_eq_some_iff.mp h
  obtain ⟨task, ht, hp, rfl, hrows⟩ := hI.recording hx
  dsimp only at h hrows
  unfold State.registerStep at h
  split at h
  · rename_i path rest hstage htodo
    have hdone : r.rows = r.done := by rw [Recording.rows, hstage]
    rw [hdone] at hrows
    cases h
    have hreg := records_register s (if r.done = [] then .build task.build.id else .fresh s.nextName) path outcome
    exact hI.setRecording hreg ht hp (hreg.recorded hrows)
  · cases h

/-- The row is there before the recording goes on. -/
theorem GcInv.productStep (hI : GcInv s) (h : step cfg s (.product t) = some s') : GcInv s' := by
  obtain ⟨⟨id, r⟩, hx, h⟩ := Option.bind_eq_some_iff.mp h
  obtain ⟨task, ht, hp, rfl, hrows⟩ := hI.recording hx
  dsimp only at h hrows
  unfold State.productStep at h
  split at h
  · rename_i gcRootPath path rest hstage htodo
    have hdone : r.rows = r.done := by rw [Recording.rows, hstage]
    rw [hdone] at hrows
    cases h
    have hadd : State.rows { s with products := s.products ++ [⟨s.products.length, task.build.id, path, none⟩] } =
        s.rows ++ [(task.build.id, path)] := List.map_append
    have hsame : Records s { s with products := s.products ++ [⟨s.products.length, task.build.id, path, none⟩] } :=
      ⟨rfl, rfl, rfl, rfl, rfl, hadd ▸ List.subset_append_left _ _⟩
    refine hI.setRecording hsame ht hp fun q hq => ?_
    rw [Recording.rows_inserted htodo] at hq
    rcases List.mem_append.mp hq with hq | hq
    · exact hsame.recorded hrows q hq
    · obtain rfl := List.mem_singleton.mp hq
      exact hadd ▸ List.mem_append_right _ List.mem_cons_self
  · cases h

/-- The statement changes no row but for its root. -/
theorem GcInv.rootPathStep (hI : GcInv s) (h : step cfg s (.rootPath t) = some s') : GcInv s' := by
  obtain ⟨⟨id, r⟩, hx, h⟩ := Option.bind_eq_some_iff.mp h
  obtain ⟨task, ht, hp, rfl, hrows⟩ := hI.recording hx
  dsimp only at h hrows
  unfold State.rootPathStep at h
  split at h
  · rename_i productId name path rest hstage htodo
    have hnext : r.next.rows = r.rows := by
      rw [Recording.rows_next htodo, Recording.rows, hstage, htodo]
    cases h
    have hsame : Records s { s with products := s.products.map (Product.setGcRootPath productId name) } := by
      refine ⟨rfl, rfl, rfl, rfl, rfl, fun x hx => ?_⟩
      obtain ⟨p, hp, rfl⟩ := List.mem_map.mp hx
      refine List.mem_map.mpr ⟨_, List.mem_map_of_mem hp, ?_⟩
      unfold Product.setGcRootPath
      split_ifs <;> rfl
    exact hI.setRecording hsame ht hp (hnext ▸ hsame.recorded hrows)
  · cases h

theorem GcInv.builtStep (hI : GcInv s) (h : step cfg s (.built t outputPaths) = some s') : GcInv s' := by
  simp only [step] at h
  split at h
  · rename_i task ht _
    split_ifs at h with hp
    cases h
    exact hI.setRecording ⟨rfl, rfl, rfl, rfl, rfl, List.Subset.refl _⟩ ht hp fun path hpath => by cases hpath
  · cases h

/-! ### Steps of the runner -/

variable {r : Runner.State}

/-- Whatever completes a build as succeeded says what it consists of. -/
theorem completed_of_step {a : Runner.Action}
    (h : Runner.step cfg.runner s.runner a = some r) (hk : s.runner.db.status k ≠ some .succeeded)
    (hk' : r.db.status k = some .succeeded) : ∃ outputPaths, s.completed cfg a = some (k, outputPaths) := by
  rcases success_of_step h hk hk' with ⟨t, task, l, outs, failed, rfl, ht, hid, hup⟩ | ⟨env, b, c, rfl, hp, hid, hc⟩
  · refine ⟨outs, ?_⟩
    rw [State.completed, State.executed, if_neg hup, ht, Option.map_some, hid, Option.some_or]
  · refine ⟨s.result b c.buildOutputPath, ?_⟩
    have hre : s.reused (.loop env) = some (k, s.result b c.buildOutputPath) := by
      simp only [State.reused, hp]
      rw [if_pos hc, hid]
    exact hre

/-- A build kept after a step of the runner has just been completed, or was kept and consists of the same. -/
theorem kept_of_follow {a : Runner.Action}
    (h : Runner.step cfg.runner s.runner a = some r) (hk : (s.follow cfg a r).Kept k) :
    (s.completed cfg a = some (k, (s.follow cfg a r).outputs k) ∧ s.keep k = true) ∨
      s.Kept k ∧ (s.follow cfg a r).outputs k = s.outputs k := by
  have hkeep : s.keep k = true := hk.1
  have hsucc : r.db.status k = some .succeeded := hk.2
  cases hc : s.completed cfg a with
  | none =>
    right
    refine ⟨⟨hkeep, by_contra fun hn => ?_⟩, by simp only [State.follow, hc]⟩
    obtain ⟨outs, ho⟩ := completed_of_step h hn hsucc
    rw [hc] at ho
    cases ho
  | some x =>
    obtain ⟨k', outs⟩ := x
    have houts : (s.follow cfg a r).outputs = Function.update s.outputs k' outs := by simp only [State.follow, hc]
    by_cases hkk : k = k'
    · left
      subst hkk
      rw [houts, Function.update_self]
      exact ⟨rfl, hkeep⟩
    · right
      refine ⟨⟨hkeep, by_contra fun hn => ?_⟩, by rw [houts, Function.update_of_ne hkk]⟩
      obtain ⟨outs', ho⟩ := completed_of_step h hn hsucc
      rw [hc] at ho
      cases ho
      exact hkk rfl

/-- A worker completes its build with every output in a row. -/
theorem GcInv.executed (hI : GcInv s) {a : Runner.Action} (ha : s.allows a = true)
    (h : s.executed cfg a = some (k, outputPaths)) : s.Recorded k outputPaths := by
  unfold State.executed at h
  split at h
  · rename_i t l outs failed
    split_ifs at h
    obtain ⟨task, ht, hx⟩ := Option.map_eq_some_iff.mp h
    obtain ⟨rfl, rfl⟩ := Prod.mk.inj hx
    obtain ⟨r, hr, hdone⟩ := (Option.any_eq_true _ _).mp ha
    obtain ⟨htodo, rfl⟩ := of_decide_eq_true hdone
    obtain ⟨task', ht', -, hrows⟩ := hI.recordings t r hr
    obtain rfl : task = task' := Option.some.inj (ht.symm.trans ht')
    rwa [Recording.rows_nil htodo] at hrows
  · cases h

theorem GcInv.follow (hI : GcInv s) {a : Runner.Action} (ha : s.allows a = true)
    (h : Runner.step cfg.runner s.runner a = some r) (hp : PinsRecorded s (.runner a))
    (hc : AwaitsCycle cfg s (.runner a)) : GcInv (s.follow cfg a r) where
  recordings t rec ht := by
    simp only [State.follow] at ht
    split_ifs at ht with hex
    obtain ⟨task', ht', hphase⟩ := (Option.any_eq_true _ _).mp hex
    obtain ⟨task, ht₀, hp₀, hrows⟩ := hI.recordings t rec ht
    refine ⟨task', ht', of_decide_eq_true hphase, ?_⟩
    rcases task_of_step h ht' with ⟨task₁, ht₁, hjob, -⟩ | ⟨_, b, -, -, -, rfl⟩
    · obtain rfl : task₁ = task := Option.some.inj (ht₁.symm.trans ht₀)
      rw [hjob]
      exact hrows
    · -- a task that has just been spawned does not execute
      cases of_decide_eq_true hphase
  kept k hk := by
    rcases kept_of_follow h hk with ⟨hcomp, hkeep⟩ | ⟨hk₀, hout⟩
    · rcases Option.or_eq_some_iff.mp hcomp with hex | ⟨-, hre⟩
      · exact hI.executed ha hex
      · exact hp _ hre hkeep
    · rw [hout]
      exact hI.kept k hk₀
  cycle now pinned hcyc k hk := by
    have hcyc : s.cycle = .cleaning now pinned := hcyc
    rcases kept_of_follow h hk with ⟨hcomp, hkeep⟩ | ⟨hk₀, hout⟩
    · have hno := hc _ hcomp hkeep
      rw [hcyc] at hno
      cases hno
    · rw [hout]
      exact hI.cycle now pinned hcyc k hk₀

/-! ### Steps of the operator and of the collector -/

theorem GcInv.setKeep (hI : GcInv s) {id : Uuid} {keep : Bool} (h : step cfg s (.setKeep id keep) = some s')
    (hp : PinsRecorded s (.setKeep id keep)) (hc : AwaitsCycle cfg s (.setKeep id keep)) : GcInv s' := by
  simp only [step] at h
  split_ifs at h
  cases h
  have hkept : ∀ k, State.Kept { s with keep := Function.update s.keep id keep } k →
      s.Kept k ∨ k = id ∧ keep = true ∧ s.runner.db.status id = some .succeeded := by
    rintro k ⟨hk, hst⟩
    dsimp only at hk hst
    by_cases hid : k = id
    · subst hid
      rw [Function.update_self] at hk
      exact .inr ⟨rfl, hk, hst⟩
    · rw [Function.update_of_ne hid] at hk
      exact .inl ⟨hk, hst⟩
  refine ⟨hI.recordings, fun k hk => ?_, fun now pinned hcyc k hk => ?_⟩
  · rcases hkept k hk with hk | ⟨rfl, hkeep, hst⟩
    · exact hI.kept k hk
    · exact hp hkeep hst
  · have hcyc : s.cycle = .cleaning now pinned := hcyc
    rcases hkept k hk with hk | ⟨rfl, hkeep, hst⟩
    · exact hI.cycle now pinned hcyc k hk
    · have hno := hc hkeep hst
      rw [hcyc] at hno
      cases hno

/-- The products of the kept builds are what a cycle goes by. -/
theorem GcInv.listPinnedForGc (hI : GcInv s) (hk : s.Kept k) {path : String} (hp : path ∈ s.outputs k) :
    path ∈ s.listPinnedForGc.map (·.path) := by
  obtain ⟨row, hrow, hx⟩ := List.mem_map.mp (hI.kept k hk path hp)
  obtain ⟨rfl, rfl⟩ := Prod.mk.inj hx
  exact List.mem_map.mpr ⟨row, List.mem_filter.mpr ⟨hrow, hk.1⟩, rfl⟩

theorem GcInv.entry (hI : GcInv s) {name : RootName} {now : Time} {pinned : Pinned} :
    GcInv (s.cleanEntry cfg name now pinned) := by
  unfold State.cleanEntry
  split
  · exact hI
  · split_ifs
    · exact ⟨hI.recordings, hI.kept, hI.cycle⟩
    · exact hI

theorem step_inv {a : Action} (hI : GcInv s) (hP : PinsRecorded s a ∧ AwaitsCycle cfg s a)
    (h : step cfg s a = some s') : GcInv s' := by
  cases a with
  | runner =>
    simp only [step] at h
    split_ifs at h with ha
    obtain ⟨r, hr, rfl⟩ := Option.map_eq_some_iff.mp h
    exact hI.follow ha hr hP.1 hP.2
  | built => exact hI.builtStep h
  | register => exact hI.registerStep h
  | product => exact hI.productStep h
  | rootPath => exact hI.rootPathStep h
  | setKeep => exact hI.setKeep h hP.1 hP.2
  | pinnedIds =>
    simp only [step] at h
    split at h
    · cases h
      exact ⟨hI.recordings, hI.kept, fun _ _ hc => by cases hc⟩
    · cases h
  | pinnedProducts ok =>
    simp only [step] at h
    split at h
    · obtain rfl : ok = true := hP.1
      cases h
      refine ⟨hI.recordings, hI.kept, fun now pinned hc k hk path hp => ?_⟩
      cases hc
      exact hI.listPinnedForGc hk hp
    · cases h
  | entry =>
    simp only [step] at h
    split at h
    · cases h
      exact hI.entry
    · cases h
  | cycleEnd =>
    simp only [step] at h
    split at h
    · cases h
      exact ⟨hI.recordings, hI.kept, fun _ _ hc => by cases hc⟩
    · cases h

/-- What a cycle removes points at none of the outputs it has found. -/
theorem target_of_removed {name : RootName} {root : Root} (h : step cfg s (.entry name) = some s')
    (hroot : s.roots name = some root) (hgone : s'.roots name = none) :
    ∃ now pinned, s.cycle = .cleaning now pinned ∧ root.target ∉ pinned.outputPaths := by
  simp only [step] at h
  split at h
  · rename_i now pinned hc
    cases h
    refine ⟨now, pinned, hc, fun ht => ?_⟩
    have hkeeps : removes cfg.maxAge now pinned name root = false := by
      simp [removes, isPinnedRoot, ht]
    rw [State.cleanEntry, hroot] at hgone
    simp only [hkeeps] at hgone
    rw [if_neg Bool.false_ne_true, hroot] at hgone
    cases hgone
  · cases h

/-- **Kept builds keep their roots**, in a run in which the query for the products goes through, every
build is kept with its outputs in rows of its own, and none becomes kept during a clean-up. -/
theorem kept_roots_stay {s₀ : State} {as : List Action} (h₀ : Started s₀) (hs : exec (step cfg) s₀ as = some s)
    (hp : Along (step cfg) PinsRecorded s₀ as) (hc : Along (step cfg) (AwaitsCycle cfg) s₀ as) {name : RootName}
    {root : Root} (h : step cfg s (.entry name) = some s') (hroot : s.roots name = some root)
    (hgone : s'.roots name = none) {k : Uuid} (hk : s.Kept k) : root.target ∉ s.outputs k := by
  have hI : GcInv s := exec_inv (fun _ _ _ => step_inv) h₀.inv (hp.and hc) hs
  obtain ⟨now, pinned, hcyc, ht⟩ := target_of_removed h hroot hgone
  intro hout
  exact ht (hI.cycle now pinned hcyc k hk root.target hout)

end Steps

/-! ### Runs

Roots are old after ten seconds. -/

def shortLived : Config := { maxAge := 10 }

/-- No build is kept, and the directory holds a link to a path of no build. -/
def State.start (db : Db) : State where
  runner := .start {} db
  roots := Function.update (fun _ => none) (.other "stale") (some ⟨"elsewhere", 0⟩)

theorem started_start (db : Db) : Started (.start db) where
  cycle := rfl
  recordings _ := rfl
  kept _ hk := absurd hk.1 Bool.false_ne_true

/-- Two builds of one derivation. -/
def rebuild : Db :=
  .ofRows [{ id := 1 }] [{ id := 1, jobsetId := 1 }]
    [{ id := 1, evaluationId := 1, drvPath := "lib.drv" }, { id := 2, evaluationId := 1, drvPath := "lib.drv" }] [] []
    (by decide)

def ofRunner (as : List Runner.Action) : List Action := as.map .runner

/-- Task 0 claims its build, records the outputs and reports. -/
def executes (outputPaths : List String) : List Action :=
  List.flatten [ofRunner (claims 0), [.built 0 outputPaths],
    outputPaths.flatMap fun _ => [.register 0 .linked, .product 0, .rootPath 0],
    ofRunner [.task 0 (.report (.success none outputPaths []))]]

def twoOutputs : List Action := List.flatten [ofRunner (loops 12), executes ["out", "dev"], ofRunner [.tick 100]]

/-- Build 2 gets the result of build 1. -/
def reuses : List Action :=
  List.flatten [ofRunner (loops 20), executes ["out"], ofRunner (loops 7), ofRunner [.tick 100]]

/-- The cycle comes to the link and removes it, though it points at an output of build `k`, which is kept. -/
def Loses (s : State) (name : RootName) (k : Uuid) : Prop :=
  ∃ s' ∈ step shortLived s (.entry name), ∃ root ∈ s.roots name,
    s'.roots name = none ∧ s.Kept k ∧ root.target ∈ s.outputs k

instance (s : State) (name : RootName) (k : Uuid) : Decidable (Loses s name k) :=
  inferInstanceAs (Decidable (∃ s' ∈ step shortLived s (.entry name), ∃ root ∈ s.roots name,
    s'.roots name = none ∧ s.Kept k ∧ root.target ∈ s.outputs k))

/-- Build 1 is kept. The cycle removes the link to the other path. -/
theorem kept_roots_stay_stale :
    ∃ s ∈ exec (step shortLived) (.start oneBuild)
      (List.flatten [twoOutputs, [.setKeep 1 true, .pinnedIds false, .pinnedProducts true]]),
      s.Kept 1 ∧ s.outputs 1 = ["out", "dev"] ∧ ∃ s' ∈ step shortLived s (.entry (.other "stale")),
      ∃ root ∈ s.roots (.other "stale"), s'.roots (.other "stale") = none ∧ root.target ∉ s.outputs 1 := by
  obtain ⟨s, hs, hk, ho, s', h, root, hroot, hgone⟩ : ∃ s ∈ exec (step shortLived) (.start oneBuild)
      (List.flatten [twoOutputs, [.setKeep 1 true, .pinnedIds false, .pinnedProducts true]]),
      s.Kept 1 ∧ s.outputs 1 = ["out", "dev"] ∧ ∃ s' ∈ step shortLived s (.entry (.other "stale")),
      ∃ root ∈ s.roots (.other "stale"), s'.roots (.other "stale") = none := by
    decide +kernel
  have hp : Along (step shortLived) PinsRecorded (.start oneBuild)
      (List.flatten [twoOutputs, [.setKeep 1 true, .pinnedIds false, .pinnedProducts true]]) := by
    decide +kernel
  have hc : Along (step shortLived) (AwaitsCycle shortLived) (.start oneBuild)
      (List.flatten [twoOutputs, [.setKeep 1 true, .pinnedIds false, .pinnedProducts true]]) := by
    decide +kernel
  exact ⟨s, hs, hk, ho, s', h, root, hroot, hgone,
    kept_roots_stay (started_start oneBuild) hs hp hc h hroot hgone hk⟩

/-- A root of a kept build is removed: the second one, when the query for the products fails; the one of
the build whose result it got, though both queries go through; any of them, when the build is kept after
the queries. -/
theorem kept_root_removed : Started (.start oneBuild) ∧ Started (.start rebuild) ∧
    (∃ s ∈ exec (step shortLived) (.start oneBuild)
      (List.flatten [twoOutputs, [.setKeep 1 true, .pinnedIds true, .pinnedProducts false]]), Loses s (.fresh 1) 1) ∧
    (∃ s ∈ exec (step shortLived) (.start rebuild)
      (List.flatten [reuses, [.setKeep 2 true, .pinnedIds true, .pinnedProducts true]]), Loses s (.build 1) 2) ∧
    (∃ s ∈ exec (step shortLived) (.start oneBuild)
      (List.flatten [twoOutputs, [.pinnedIds true, .pinnedProducts true, .setKeep 1 true]]), Loses s (.build 1) 1) := by
  refine ⟨started_start oneBuild, started_start rebuild, ?_⟩
  decide +kernel

end GcRoots
end Circus.Runner
