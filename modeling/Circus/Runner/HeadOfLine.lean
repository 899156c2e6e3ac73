/-
# What a poll dispatches

A poll of `runner_loop::run` lists the pending builds, as many as
`scheduler_capacity` allows, and takes each of them through the filters. Taken
by itself, with nothing else moving, it dispatches what `plan` says: `fate` is
the outcome of the filters for one build, and a build that a filter settles
changes the database for those after it (`willDispatch_iff`).

The listing is cut off by number, whatever can run. `poll_unblocked_iff` says
when a poll dispatches a build some venue has room for: one has to have fewer
builds ahead of it in the queue than the poll fetches, pass the filters, and not
have a build of its derivation before it that the poll settles without running
it.
-/
import Circus.Runner.System
import Circus.Venues

namespace Circus.Runner
namespace Poll

/-- What the loop and the reservations find outside the runner's database. -/
structure World where
  venues : Dispatch.VenueEnv
  /-- The columns of evaluations and jobsets a reservation reads. -/
  evaluator : Evaluator.Db
  /-- `query_drv_output`, by derivation -/
  drvOutput : String → Option String := fun _ => none
  /-- `nix-store --check-validity`, by output path -/
  outputValid : String → Bool := fun _ => false
  /-- which of the completed builds `LIMIT 1` returns -/
  pick : Build → ℕ := fun _ => 0
  /-- the locks the `start` of `mark_build_done` asks for are to be had -/
  free : Build → Bool := fun _ => true

namespace World

/-- The check finds a venue for the build. -/
def supports (w : World) (b : Build) : Bool :=
  w.venues.hasBuilder b || w.venues.hasAgent b || w.venues.hasRunner b

/-- `reserve_venue` finds a venue with room for the build now. -/
def accepts (w : World) (b : Build) : Bool := (w.venues.reserveVenue w.evaluator b).accepted

/-- The output of the build's derivation is already valid in the store. -/
def validOutput (w : World) (b : Build) : Bool := (w.drvOutput b.drvPath).any w.outputValid

/-- What the loop learns at phase `p`. -/
def env (w : World) (p : LoopPhase) : LoopEnv where
  freeSlots := (w.venues.pool.map fun a => a.maxJobs - a.currentJobs).sum
  totalSlots := (w.venues.pool.map (·.maxJobs)).sum
  pick := p.current.elim 0 w.pick
  drvOutput := p.current.bind fun b => w.drvOutput b.drvPath
  outputValid := p.current.any w.validOutput
  supported := p.current.all w.supports
  free := p.current.all w.free

end World

variable (cfg : Config) (w : World)

/-- In the rest of the poll the loop is in, with nothing else moving, it
dispatches `b`. -/
inductive WillDispatch : State → Build → Prop
  | now {s : State} {b : Build} (hp : s.loop.phase = .dispatch b) (hd : s.draining = false) : WillDispatch s b
  | later {s s' : State} {b : Build} (hs : s.loopStep cfg (w.env s.loop.phase) = some s')
      (hp : s'.loop.phase ≠ .top) (h : WillDispatch s' b) : WillDispatch s b

/-! ### The filters at once -/

inductive Fate
  | skipped
  | settled (c : Completion)
  | dispatched

section Fate

variable (now : Time) (db : Db) (b : Build)

def fateOneAtATime : Fate :=
  match db.jobsetOf b with
  | none => .skipped
  | some j => if j.state = .oneAtATime ∧ Jobsets.hasRunningBuilds j.id db = true then .skipped else .dispatched

def fateUnsupported : Fate :=
  match cfg.unsupportedTimeout with
  | none => fateOneAtATime db b
  | some timeout =>
    if w.supports b then fateOneAtATime db b
    else if b.createdAt + timeout < now then .settled unsupportedCompletion
    else .skipped

def fateDeps : Fate :=
  if BuildDependencies.allDepsCompleted b.id db then fateUnsupported cfg w now db b else .skipped

def fateAfterFod (intervalRebuild : Bool) : Fate :=
  if !intervalRebuild && cfg.failedPathsCache && FailedPathsCache.isCachedFailure b.drvPath db then
    .settled cachedFailureCompletion
  else fateDeps cfg w now db b

def fateFod (intervalRebuild : Bool) : Fate :=
  if b.isFod && !intervalRebuild && w.validOutput b then .settled (succeededBy none (w.drvOutput b.drvPath))
  else fateAfterFod cfg w now db b intervalRebuild

def fateDedup : Fate :=
  match Builds.getCompletedByDrvPath (w.pick b) b.drvPath db with
  | some existing =>
    if existing.id ≠ b.id then .settled (succeededBy existing.logPath existing.buildOutputPath)
    else fateFod cfg w now db b false
  | none => fateFod cfg w now db b false

/-- What becomes of a listed build. -/
def fate : Fate :=
  if b.isAggregate then
    if BuildDependencies.allDepsCompleted b.id db then .settled (succeededBy none none) else .skipped
  else if isIntervalRebuild db b then fateFod cfg w now db b true
  else fateDedup cfg w now db b

def markBuildDone (c : Completion) : Db :=
  Builds.complete now b.id c.status c.logPath c.buildOutputPath c.errorMessage
    (Builds.start (w.free b) now b.id db).2

end Fate

/-- The builds a poll dispatches, of those it has listed. -/
def plan (now : Time) : Db → List Build → List Build
  | _, [] => []
  | db, b :: rest =>
    match fate cfg w now db b with
    | .skipped => plan now db rest
    | .settled c => plan now (markBuildDone w now db b c) rest
    | .dispatched => b :: plan now db rest

/-- What is left of the poll after a build of that fate. -/
def Fate.plan (now : Time) (db : Db) (b : Build) (rest : List Build) : Fate → List Build
  | skipped => Poll.plan cfg w now db rest
  | settled c => Poll.plan cfg w now (markBuildDone w now db b c) rest
  | dispatched => b :: Poll.plan cfg w now db rest

theorem plan_cons (now : Time) (db : Db) (b : Build) (rest : List Build) :
    plan cfg w now db (b :: rest) = (fate cfg w now db b).plan cfg w now db b rest := by
  rw [plan]
  cases fate cfg w now db b <;> rfl

/-! ### The loop follows the plan -/

/-- The rest of the poll dispatches `bs`. -/
def Follows (s : State) (bs : List Build) : Prop :=
  ∀ b, WillDispatch cfg w s b ↔ s.draining = false ∧ b ∈ bs

/-- The loop is at phase `p`, with `rest` still to come. -/
structure At (now : Time) (p : LoopPhase) (rest : List Build) (s : State) : Prop where
  phase : s.loop.phase = p
  rest : s.loop.rest = rest
  now : s.now = now
  cache : ∀ d output, s.loop.fodOutputCache.lookup d = some output → output = w.drvOutput d

variable {cfg w} {now : Time} {rest : List Build} {s s' : State} {b : Build}

theorem At.setPhase {p q : LoopPhase} (h : At w now p rest s) : At w now q rest (s.setPhase q) :=
  ⟨rfl, h.rest, h.now, h.cache⟩

variable {bs : List Build}

/-- Where the loop is not at a dispatch, its next step decides. -/
theorem Follows.step (hs : s.loopStep cfg (w.env s.loop.phase) = some s') (hp : s'.loop.phase ≠ .top)
    (hd : ∀ b, s.loop.phase ≠ .dispatch b) (hdrain : s'.draining = s.draining) (h : Follows cfg w s' bs) :
    Follows cfg w s bs := by
  intro b
  rw [← hdrain, ← h b]
  constructor
  · rintro (⟨hp', -⟩ | ⟨hs', -, h'⟩)
    · exact absurd hp' (hd b)
    · cases hs.symm.trans hs'
      exact h'
  · exact .later hs hp

/-- A filter that only moves the loop. -/
theorem Follows.move {p : LoopPhase} {l : Loop} (hp : s.loop.phase = p) (hd : p.dispatched = none)
    (hq : l.phase.current = some b) (hs : s.loopStep cfg (w.env p) = some { s with loop := l })
    (hf : Follows cfg w { s with loop := l } bs) : Follows cfg w s bs := by
  subst hp
  refine Follows.step hs ?_ ?_ rfl hf
  · intro htop
    rw [show l.phase = .top from htop] at hq
    cases hq
  · intro b' hp
    rw [hp] at hd
    cases hd

theorem Follows.pass {p : LoopPhase} (q : LoopPhase) (h : At w now p rest s)
    (hd : p.dispatched = none) (hq : q.current = some b)
    (hs : s.loopStep cfg (w.env p) = some (s.setPhase q)) (hf : Follows cfg w (s.setPhase q) bs) :
    Follows cfg w s bs :=
  .move h.phase hd hq hs hf

variable {iv : Bool}

/-- The step of the fixed-output check. The cache of the poll holds what the
query returns. -/
theorem loopStep_fod (cfg : Config) (h : At w now (.fod b iv) rest s) (hq : (b.isFod && !iv) = true) :
    ∃ cache : List (String × Option String), (∀ d output, cache.lookup d = some output → output = w.drvOutput d) ∧
      s.loopStep cfg (w.env (.fod b iv)) = some { s with loop := { s.loop with
        phase := if w.validOutput b then .doneStart b (succeededBy none (w.drvOutput b.drvPath)) else afterFod cfg iv b
        fodOutputCache := cache } } := by
  have hdrv : (w.env (.fod b iv)).drvOutput = w.drvOutput b.drvPath := rfl
  have henv : (w.env (.fod b iv)).outputValid = w.validOutput b := rfl
  have hout : (s.loop.fodOutputCache.lookup b.drvPath).getD (w.drvOutput b.drvPath) = w.drvOutput b.drvPath := by
    cases hl : s.loop.fodOutputCache.lookup b.drvPath with
    | none => rfl
    | some => exact h.cache _ _ hl
  have hvalid : ((w.drvOutput b.drvPath).isSome && w.validOutput b) = w.validOutput b := by
    unfold World.validOutput
    cases w.drvOutput b.drvPath <;> rfl
  refine ⟨if (s.loop.fodOutputCache.lookup b.drvPath).isSome then s.loop.fodOutputCache
    else (b.drvPath, w.drvOutput b.drvPath) :: s.loop.fodOutputCache, fun d output hl => ?_, ?_⟩
  · split_ifs at hl
    · exact h.cache d output hl
    · rw [List.lookup_cons] at hl
      split at hl
      · rename_i hd
        cases hl
        rw [eq_of_beq hd]
      · exact h.cache d output hl
  · simp only [State.loopStep, h.phase, hq, hdrv, henv, hout, hvalid, if_true]
    split_ifs <;> rfl

section Rest

variable (hnext : ∀ s, At w now .next rest s → Follows cfg w s (plan cfg w now s.db rest))
include hnext

theorem follows_skip {p : LoopPhase} (h : At w now p rest s) (hd : p.dispatched = none)
    (hs : s.loopStep cfg (w.env p) = some (s.setPhase .next)) : Follows cfg w s (plan cfg w now s.db rest) := by
  have hskip := hnext (s.setPhase .next) h.setPhase
  rw [← h.phase] at hs hd
  refine Follows.step hs LoopPhase.noConfusion ?_ rfl hskip
  intro b' hp
  rw [hp] at hd
  cases hd

theorem follows_dispatch (h : At w now (.dispatch b) rest s) : Follows cfg w s (b :: plan cfg w now s.db rest) := by
  have hs : s.loopStep cfg (w.env s.loop.phase) = some ((s.dispatch b).setPhase .next) := by
    simp only [State.loopStep, h.phase]
  have hat : At w now .next rest ((s.dispatch b).setPhase .next) := by
    unfold State.dispatch
    split
    · exact h.setPhase
    · exact ⟨rfl, h.rest, h.now, h.cache⟩
  have hkept : ((s.dispatch b).setPhase .next).db = s.db ∧
      ((s.dispatch b).setPhase .next).draining = s.draining := by
    unfold State.dispatch
    split <;> exact ⟨rfl, rfl⟩
  have ih := hnext _ hat
  rw [hkept.1] at ih
  intro b'
  constructor
  · rintro (⟨hp, hd⟩ | ⟨hs', -, h'⟩)
    · cases h.phase.symm.trans hp
      exact ⟨hd, List.mem_cons_self⟩
    · cases hs.symm.trans hs'
      obtain ⟨hd, hm⟩ := (ih b').mp h'
      exact ⟨hkept.2 ▸ hd, List.mem_cons_of_mem _ hm⟩
  · rintro ⟨hd, hm⟩
    rcases List.mem_cons.mp hm with rfl | hm
    · exact .now h.phase hd
    · exact .later hs nofun ((ih b').mpr ⟨hkept.2.trans hd, hm⟩)

theorem follows_doneStart {c : Completion} (h : At w now (.doneStart b c) rest s) :
    Follows cfg w s (plan cfg w now (markBuildDone w now s.db b c) rest) := by
  have hstart : s.loopStep cfg (w.env s.loop.phase) =
      some ({ s with db := (Builds.start (w.free b) s.now b.id s.db).2 }.setPhase (.doneComplete b c)) := by
    simp only [State.loopStep, h.phase]
    rfl
  have hcomplete : ({ s with db := (Builds.start (w.free b) s.now b.id s.db).2 }.setPhase
      (.doneComplete b c)).loopStep cfg (w.env (.doneComplete b c)) =
      some ({ s with db := markBuildDone w now s.db b c }.setPhase .next) := by
    rw [← h.now]
    rfl
  have hdone := hnext ({ s with db := markBuildDone w now s.db b c }.setPhase .next) ⟨rfl, h.rest, h.now, h.cache⟩
  refine .step hstart ?_ (fun b' => by rw [h.phase]; exact nofun) rfl (.step hcomplete ?_ ?_ rfl hdone)
  · exact LoopPhase.noConfusion
  · exact LoopPhase.noConfusion
  · exact fun _ => LoopPhase.noConfusion

theorem follows_oneAtATime (h : At w now (.oneAtATime b) rest s) :
    Follows cfg w s ((fateOneAtATime s.db b).plan cfg w now s.db b rest) := by
  unfold fateOneAtATime
  cases hj : s.db.jobsetOf b with
  | none => exact follows_skip hnext h rfl (by simp only [State.loopStep, h.phase, hj])
  | some j =>
    dsimp only
    split_ifs with hr
    · exact follows_skip hnext h rfl (by simp only [State.loopStep, h.phase, hj, if_pos hr])
    · exact .pass (.dispatch b) h rfl rfl (by simp only [State.loopStep, h.phase, hj, if_neg hr])
        (follows_dispatch hnext h.setPhase)

theorem follows_unsupported (h : At w now (.unsupported b) rest s) :
    Follows cfg w s ((fateUnsupported cfg w now s.db b).plan cfg w now s.db b rest) := by
  unfold fateUnsupported
  cases ht : cfg.unsupportedTimeout with
  | none =>
    exact .pass (.oneAtATime b) h rfl rfl (by simp only [State.loopStep, h.phase, ht])
      (follows_oneAtATime hnext h.setPhase)
  | some timeout =>
    have henv : (w.env (.unsupported b)).supported = w.supports b := rfl
    dsimp only
    split_ifs with hs hlate
    · exact .pass (.oneAtATime b) h rfl rfl (by simp only [State.loopStep, h.phase, ht, henv, if_pos hs])
        (follows_oneAtATime hnext h.setPhase)
    · exact .pass (.doneStart b _) h rfl rfl
        (by simp only [State.loopStep, h.phase, ht, henv, if_neg hs, h.now, if_pos hlate])
        (follows_doneStart hnext h.setPhase)
    · exact follows_skip hnext h rfl
        (by simp only [State.loopStep, h.phase, ht, henv, if_neg hs, h.now, if_neg hlate])

theorem follows_deps (h : At w now (.deps b) rest s) :
    Follows cfg w s ((fateDeps cfg w now s.db b).plan cfg w now s.db b rest) := by
  unfold fateDeps
  split_ifs with hd
  · exact .pass (.unsupported b) h rfl rfl (by simp only [State.loopStep, h.phase, if_pos hd])
      (follows_unsupported hnext h.setPhase)
  · exact follows_skip hnext h rfl (by simp only [State.loopStep, h.phase, if_neg hd])

/-- The filters after the fixed-output check, from wherever it leaves the loop. -/
theorem follows_afterFod (h : At w now (afterFod cfg iv b) rest s) :
    Follows cfg w s ((fateAfterFod cfg w now s.db b iv).plan cfg w now s.db b rest) := by
  unfold fateAfterFod
  unfold afterFod at h
  cases hc : !iv && cfg.failedPathsCache with
  | false =>
    rw [hc, if_neg (by decide)] at h
    exact follows_deps hnext h
  | true =>
    rw [hc, if_pos rfl] at h
    rw [Bool.true_and]
    split_ifs with hf
    · exact .pass (.doneStart b _) h rfl rfl (by simp only [State.loopStep, h.phase, if_pos hf])
        (follows_doneStart hnext h.setPhase)
    · exact .pass (.deps b) h rfl rfl (by simp only [State.loopStep, h.phase, if_neg hf])
        (follows_deps hnext h.setPhase)

theorem follows_fod (h : At w now (.fod b iv) rest s) :
    Follows cfg w s ((fateFod cfg w now s.db b iv).plan cfg w now s.db b rest) := by
  have hafter : (afterFod cfg iv b).current = some b := by
    unfold afterFod
    split <;> rfl
  unfold fateFod
  cases hq : b.isFod && !iv with
  | false =>
    exact .pass (afterFod cfg iv b) h rfl hafter (by simp only [State.loopStep, h.phase, hq]; rfl)
      (follows_afterFod hnext h.setPhase)
  | true =>
    obtain ⟨cache, hcache, hstep⟩ := loopStep_fod cfg h hq
    rw [Bool.true_and]
    cases hv : w.validOutput b with
    | true =>
      rw [hv] at hstep
      exact .move h.phase rfl rfl hstep (follows_doneStart hnext ⟨rfl, h.rest, h.now, hcache⟩)
    | false =>
      rw [hv] at hstep
      exact .move h.phase rfl hafter hstep (follows_afterFod hnext ⟨rfl, h.rest, h.now, hcache⟩)

theorem follows_dedup (h : At w now (.dedup b) rest s) :
    Follows cfg w s ((fateDedup cfg w now s.db b).plan cfg w now s.db b rest) := by
  have henv : (w.env (.dedup b)).pick = w.pick b := rfl
  unfold fateDedup
  cases he : Builds.getCompletedByDrvPath (w.pick b) b.drvPath s.db with
  | none =>
    exact .pass (.fod b false) h rfl rfl (by simp only [State.loopStep, h.phase, henv, he])
      (follows_fod hnext h.setPhase)
  | some existing =>
    dsimp only
    split_ifs with hne
    · exact .pass (.doneStart b _) h rfl rfl (by simp only [State.loopStep, h.phase, henv, he, if_pos hne])
        (follows_doneStart hnext h.setPhase)
    · exact .pass (.fod b false) h rfl rfl (by simp only [State.loopStep, h.phase, henv, he, if_neg hne])
        (follows_fod hnext h.setPhase)

theorem follows_cons (h : At w now .next (b :: rest) s) :
    Follows cfg w s (plan cfg w now s.db (b :: rest)) := by
  have hstep : s.loopStep cfg (w.env .next) = some { s with loop := { s.loop with
      phase := firstFilter (isIntervalRebuild s.db b) b
      rest := rest } } := by
    simp only [State.loopStep, h.phase, h.rest]
  rw [plan_cons]
  unfold fate
  unfold firstFilter at hstep
  split_ifs with hagg hdeps hiv
  · rw [if_pos hagg] at hstep
    refine .move h.phase rfl rfl hstep (.pass (.doneStart b _) ⟨rfl, rfl, h.now, h.cache⟩ rfl rfl ?_
      (follows_doneStart hnext ⟨rfl, rfl, h.now, h.cache⟩))
    simp only [State.loopStep, if_pos hdeps]
  · rw [if_pos hagg] at hstep
    refine .move h.phase rfl rfl hstep (follows_skip hnext ⟨rfl, rfl, h.now, h.cache⟩ rfl ?_)
    simp only [State.loopStep, if_neg hdeps]
  · rw [if_neg hagg, if_pos hiv] at hstep
    exact .move h.phase rfl rfl hstep (follows_fod hnext ⟨rfl, rfl, h.now, h.cache⟩)
  · rw [if_neg hagg, if_neg hiv] at hstep
    exact .move h.phase rfl rfl hstep (follows_dedup hnext ⟨rfl, rfl, h.now, h.cache⟩)

end Rest

theorem follows_next : ∀ {rest : List Build} {s : State}, At w now .next rest s →
    Follows cfg w s (plan cfg w now s.db rest)
  | [], s, h => by
    have hs : s.loopStep cfg (w.env s.loop.phase) = some (s.setPhase .top) := by
      simp only [State.loopStep, h.phase, h.rest]
    refine fun b => ⟨?_, fun hb => absurd hb.2 List.not_mem_nil⟩
    rintro (⟨hp, -⟩ | ⟨hs', hp, -⟩)
    · cases h.phase.symm.trans hp
    · cases hs.symm.trans hs'
      exact absurd rfl hp
  | b :: rest, s, h => follows_cons (fun _ => follows_next) h

/-- The builds the poll lists. -/
def listed (cfg : Config) (w : World) (db : Db) : List Build :=
  Builds.listPending (fetchLimit cfg (w.env .list)) (schedulableCapacity cfg (w.env .list)) db

/-- **A poll dispatches what the plan says.** -/
theorem willDispatch_iff (hp : s.loop.phase = .list) :
    WillDispatch cfg w s b ↔ s.draining = false ∧ b ∈ plan cfg w s.now s.db (listed cfg w s.db) := by
  have hs : s.loopStep cfg (w.env s.loop.phase) = some { s with loop := { s.loop with
      phase := .next
      rest := listed cfg w s.db
      fodOutputCache := [] } } := by
    simp only [State.loopStep, hp]
    rfl
  refine Follows.step hs LoopPhase.noConfusion (fun b' => by rw [hp]; exact LoopPhase.noConfusion) rfl ?_ b
  exact follows_next ⟨rfl, rfl, rfl, fun _ _ hl => by cases hl⟩

/-! ### Who is dispatched -/

/-- Some build of the derivation has succeeded. -/
def Built (db : Db) (drvPath : String) : Prop := ∃ b ∈ db.builds.rows, b.drvPath = drvPath ∧ b.status = .succeeded

instance (db : Db) (drvPath : String) : Decidable (Built db drvPath) :=
  inferInstanceAs (Decidable (∃ b ∈ db.builds.rows, b.drvPath = drvPath ∧ b.status = .succeeded))

/-- The poll settles the build as succeeded without a build of its derivation:
it is an aggregate, or its fixed output is there. -/
def SettledAlone (w : World) (db : Db) (b : Build) : Prop :=
  b.isAggregate = true ∨ isIntervalRebuild db b = false ∧ b.isFod = true ∧ w.validOutput b = true

/-- A filter settles the build without running it: its derivation was built,
its fixed output is valid, or its failure is cached. -/
def ShortCircuited (cfg : Config) (w : World) (db : Db) (b : Build) : Prop :=
  isIntervalRebuild db b = false ∧ (Built db b.drvPath ∨ b.isFod = true ∧ w.validOutput b = true ∨
    cfg.failedPathsCache = true ∧ FailedPathsCache.isCachedFailure b.drvPath db = true)

instance (cfg : Config) (w : World) (db : Db) (b : Build) : Decidable (ShortCircuited cfg w db b) :=
  inferInstanceAs (Decidable (_ ∧ (_ ∨ _ ∨ _)))

/-- The jobset builds one at a time, and something of it is running. -/
def HeldBack (db : Db) (b : Build) : Prop :=
  ∃ j ∈ db.jobsetOf b, j.state = .oneAtATime ∧ Jobsets.hasRunningBuilds j.id db = true

/-- The build is the row it was listed from, still pending and with its
dependencies there. -/
structure Listed (db : Db) (b : Build) : Prop where
  row : db.builds.get b.id = some b
  pending : b.status = .pending
  deps : BuildDependencies.allDepsCompleted b.id db = true

/-- The filters let a listed build through. -/
structure Runs (cfg : Config) (w : World) (db : Db) (b : Build) : Prop where
  single : b.isAggregate = false
  through : ¬ ShortCircuited cfg w db b
  supported : cfg.unsupportedTimeout = none ∨ w.supports b = true
  free : ¬ HeldBack db b

section Filters

variable {db : Db}

theorem getCompletedByDrvPath_eq_none {pick : ℕ} {d : String} :
    Builds.getCompletedByDrvPath pick d db = none ↔ ¬ Built db d := by
  unfold Builds.getCompletedByDrvPath Built
  dsimp only
  rw [List.getElem?_eq_none_iff]
  constructor
  · rintro h ⟨b, hb, hd, hs⟩
    have hm : b ∈ db.builds.select fun b => decide (b.drvPath = d ∧ b.status = .succeeded) :=
      List.mem_filter.mpr ⟨hb, by simp [hd, hs]⟩
    have := Nat.mod_lt pick (List.length_pos_of_mem hm)
    omega
  · intro h
    have hnil : (db.builds.select fun b => decide (b.drvPath = d ∧ b.status = .succeeded)) = [] := by
      refine List.filter_eq_nil_iff.mpr fun b hb hc => h ⟨b, hb, ?_⟩
      simpa using hc
    rw [hnil]
    exact Nat.zero_le _

theorem getCompletedByDrvPath_eq_some {pick : ℕ} {d : String} {existing : Build}
    (h : Builds.getCompletedByDrvPath pick d db = some existing) :
    existing ∈ db.builds.rows ∧ existing.drvPath = d ∧ existing.status = .succeeded := by
  obtain ⟨hm, hc⟩ := List.mem_filter.mp (List.mem_of_getElem? h)
  exact ⟨hm, of_decide_eq_true hc⟩

theorem fateOneAtATime_dispatched (h : Listed db b) : fateOneAtATime db b = .dispatched ↔ ¬ HeldBack db b := by
  obtain ⟨j, hj⟩ := Db.exists_jobsetOf h.row
  unfold fateOneAtATime HeldBack
  rw [hj]
  simp

theorem fateDeps_dispatched (h : Listed db b) : fateDeps cfg w now db b = .dispatched ↔
    (cfg.unsupportedTimeout = none ∨ w.supports b = true) ∧ ¬ HeldBack db b := by
  rw [← fateOneAtATime_dispatched h, fateDeps, if_pos h.deps]
  unfold fateUnsupported
  cases cfg.unsupportedTimeout with
  | none => simp
  | some =>
    dsimp only
    split_ifs with hs hlate <;> simp [hs]

theorem fateOneAtATime_ne_settled {c : Completion} : fateOneAtATime db b ≠ .settled c := by
  unfold fateOneAtATime
  split
  · exact nofun
  · split_ifs <;> exact nofun

/-- After the fixed-output check nothing is settled as succeeded. -/
theorem fateAfterFod_settled {c : Completion} (h : fateAfterFod cfg w now db b iv = .settled c) :
    c.status ≠ .succeeded := by
  unfold fateAfterFod fateDeps at h
  split_ifs at h with hcached hdeps
  · cases h; exact nofun
  · unfold fateUnsupported at h
    split at h
    · exact absurd h fateOneAtATime_ne_settled
    · split_ifs at h
      · exact absurd h fateOneAtATime_ne_settled
      · cases h; exact nofun

theorem fateFod_dispatched (h : Listed db b) : fateFod cfg w now db b iv = .dispatched ↔
    ¬ (iv = false ∧ (b.isFod = true ∧ w.validOutput b = true ∨
      cfg.failedPathsCache = true ∧ FailedPathsCache.isCachedFailure b.drvPath db = true)) ∧
    (cfg.unsupportedTimeout = none ∨ w.supports b = true) ∧ ¬ HeldBack db b := by
  rw [← fateDeps_dispatched h]
  unfold fateFod fateAfterFod
  split_ifs with hfod hcached
  · simp only [Bool.and_eq_true, Bool.not_eq_true'] at hfod
    simp [hfod]
  · simp only [Bool.and_eq_true, Bool.not_eq_true'] at hcached
    simp [hcached]
  · simp only [Bool.and_eq_true, Bool.not_eq_true', not_and, and_assoc] at hfod hcached
    refine (and_iff_right ?_).symm
    rintro ⟨hiv, ⟨hf, hv⟩ | ⟨hc, hd⟩⟩
    · exact hfod hf hiv hv
    · exact hcached hiv hc hd

theorem fateFod_succeeds : (∃ c, fateFod cfg w now db b iv = .settled c ∧ c.status = .succeeded) ↔
    iv = false ∧ b.isFod = true ∧ w.validOutput b = true := by
  unfold fateFod
  split_ifs with hfod
  · simp only [Bool.and_eq_true, Bool.not_eq_true'] at hfod
    exact ⟨fun _ => ⟨hfod.1.2, hfod.1.1, hfod.2⟩, fun _ => ⟨_, rfl, rfl⟩⟩
  · simp only [Bool.and_eq_true, Bool.not_eq_true', not_and] at hfod
    constructor
    · rintro ⟨c, hc, hs⟩
      exact absurd hs (fateAfterFod_settled hc)
    · rintro ⟨hiv, hf, hv⟩
      exact absurd hv (hfod ⟨hf, hiv⟩)

/-- Where a build of the derivation has succeeded, it is not the listed one. -/
theorem fateDedup_eq (cfg : Config) (w : World) (now : Time) (h : Listed db b) :
    (Built db b.drvPath ∧ ∃ c, fateDedup cfg w now db b = .settled c ∧ c.status = .succeeded) ∨
      ¬ Built db b.drvPath ∧ fateDedup cfg w now db b = fateFod cfg w now db b false := by
  unfold fateDedup
  cases he : Builds.getCompletedByDrvPath (w.pick b) b.drvPath db with
  | none => exact .inr ⟨getCompletedByDrvPath_eq_none.mp he, rfl⟩
  | some existing =>
    obtain ⟨hm, hd, hs⟩ := getCompletedByDrvPath_eq_some he
    have hne : existing.id ≠ b.id := by
      intro hid
      have hrow := Db.get_of_mem hm
      rw [hid, h.row] at hrow
      cases hrow
      rw [h.pending] at hs
      cases hs
    exact .inl ⟨⟨existing, hm, hd, hs⟩, _, if_pos hne, rfl⟩

/-- **Who is dispatched**, of the listed. -/
theorem fate_dispatched (h : Listed db b) : fate cfg w now db b = .dispatched ↔ Runs cfg w db b := by
  have hruns : Runs cfg w db b ↔ b.isAggregate = false ∧ ¬ ShortCircuited cfg w db b ∧
      (cfg.unsupportedTimeout = none ∨ w.supports b = true) ∧ ¬ HeldBack db b :=
    ⟨fun hr => ⟨hr.single, hr.through, hr.supported, hr.free⟩, fun hr => ⟨hr.1, hr.2.1, hr.2.2.1, hr.2.2.2⟩⟩
  rw [hruns]
  unfold fate ShortCircuited
  cases hagg : b.isAggregate with
  | true => simp [h.deps]
  | false =>
    cases hiv : isIntervalRebuild db b with
    | true => simp [fateFod_dispatched h]
    | false =>
      rcases fateDedup_eq cfg w now h with ⟨hbuilt, c, hc, -⟩ | ⟨hbuilt, hd⟩
      · simp [hc, hbuilt]
      · simp [hd, fateFod_dispatched h, hbuilt]

theorem fate_succeeds (h : Listed db b) : (∃ c, fate cfg w now db b = .settled c ∧ c.status = .succeeded) ↔
    SettledAlone w db b ∨ b.isAggregate = false ∧ isIntervalRebuild db b = false ∧ Built db b.drvPath := by
  unfold fate SettledAlone
  cases hagg : b.isAggregate with
  | true => simp [h.deps, succeededBy]
  | false =>
    cases hiv : isIntervalRebuild db b with
    | true => simpa using fun c hc hs => absurd (fateFod_succeeds.mp ⟨c, hc, hs⟩).1 (by decide)
    | false =>
      rcases fateDedup_eq cfg w now h with ⟨hbuilt, hc⟩ | ⟨hbuilt, hd⟩
      · simpa [hbuilt] using hc
      · simp [hd, fateFod_succeeds, hbuilt]

end Filters

/-! ### What a settled build changes -/

section Marked

variable {db : Db} {a : Build} {c : Completion}

theorem get_markBuildDone_ne {k : Uuid} (hk : k ≠ a.id) :
    (markBuildDone w now db a c).builds.get k = db.builds.get k := by
  unfold markBuildDone Builds.complete
  rw [Db.get_updateBuild, if_neg hk]
  rcases Builds.start_cases (w.free a) now a.id db with ⟨b, -, -, hs⟩ | hs <;> rw [hs]
  rw [Db.get_updateBuild, if_neg hk]

theorem get_markBuildDone (w : World) (now : Time) (c : Completion) (h : Listed db a) :
    ∃ a', (markBuildDone w now db a c).builds.get a.id = some a' ∧ a'.toJob = a.toJob ∧ a'.status = c.status := by
  unfold markBuildDone Builds.complete
  rw [Db.get_updateBuild, if_pos rfl]
  rcases Builds.start_cases (w.free a) now a.id db with ⟨b, hb, -, hs⟩ | hs <;> rw [hs]
  · cases h.row.symm.trans hb
    rw [Db.get_updateBuild, if_pos rfl, h.row]
    exact ⟨_, rfl, rfl, rfl⟩
  · rw [h.row]
    exact ⟨_, rfl, rfl, rfl⟩

theorem frame_markBuildDone : db.Frame (markBuildDone w now db a c) :=
  (Builds.frame_start (w.free a) now a.id db).trans
    (Db.frame_updateBuild _ a.id _ (Build.toJob_complete now c.status c.logPath c.buildOutputPath c.errorMessage))

theorem failedPathsCache_markBuildDone :
    (markBuildDone w now db a c).failedPathsCache = db.failedPathsCache := by
  unfold markBuildDone Builds.complete
  rcases Builds.start_cases (w.free a) now a.id db with ⟨b, -, -, hs⟩ | hs <;> rw [hs] <;> rfl

theorem status_markBuildDone (h : Listed db a) (k : Uuid) :
    (markBuildDone w now db a c).status k = if k = a.id then some c.status else db.status k := by
  unfold Db.status
  split_ifs with hk
  · obtain ⟨a', ha', -, hs⟩ := get_markBuildDone w now c h
    rw [hk, ha', Option.map_some, hs]
  · rw [get_markBuildDone_ne hk]

theorem built_iff {d : String} :
    Built db d ↔ ∃ k b, db.builds.get k = some b ∧ b.drvPath = d ∧ b.status = .succeeded :=
  ⟨fun ⟨b, hb, h⟩ => ⟨b.id, b, Db.get_of_mem hb, h⟩, fun ⟨_, b, hb, h⟩ => ⟨b, Table.mem_of_get hb, h⟩⟩

theorem built_markBuildDone (h : Listed db a) {d : String} :
    Built (markBuildDone w now db a c) d ↔ Built db d ∨ a.drvPath = d ∧ c.status = .succeeded := by
  obtain ⟨a', ha', hjob, hstatus⟩ := get_markBuildDone w now c h
  have hdrv : a'.drvPath = a.drvPath := by rw [hjob]
  rw [built_iff, built_iff]
  constructor
  · rintro ⟨k, b, hb, hd, hs⟩
    by_cases hk : k = a.id
    · rw [hk, ha'] at hb
      cases hb
      exact .inr ⟨hdrv.symm.trans hd, hstatus.symm.trans hs⟩
    · rw [get_markBuildDone_ne hk] at hb
      exact .inl ⟨k, b, hb, hd, hs⟩
  · rintro (⟨k, b, hb, hd, hs⟩ | ⟨hd, hs⟩)
    · have hk : k ≠ a.id := by
        rintro rfl
        cases h.row.symm.trans hb
        rw [h.pending] at hs
        cases hs
      exact ⟨k, b, (get_markBuildDone_ne hk).trans hb, hd, hs⟩
    · exact ⟨a.id, a', ha', hdrv.trans hd, hstatus.trans hs⟩

theorem hasRunningBuilds_markBuildDone (h : Listed db a) (jobsetId : Uuid) :
    Jobsets.hasRunningBuilds jobsetId (markBuildDone w now db a c) = Jobsets.hasRunningBuilds jobsetId db := by
  have hrun : ∀ k, (markBuildDone w now db a c).RunningIn jobsetId k ↔ db.RunningIn jobsetId k := by
    intro k
    unfold Db.RunningIn
    rw [status_markBuildDone h, frame_markBuildDone.job]
    simp only [frame_markBuildDone.inJobset]
    split_ifs with hk
    · -- neither the pending nor the completed row runs
      have hpending : db.status k = some .pending := Db.status_eq_some.mpr ⟨a, hk ▸ h.row, h.pending⟩
      have hfinished : c.status ≠ .running := (BuildStatus.isFinished_iff.mp c.finished).2
      simp [hpending, hfinished]
    · rfl
  rw [Bool.eq_iff_iff, ← not_iff_not]
  simp only [Bool.not_eq_true, Jobsets.hasRunningBuilds_eq_false, hrun]

theorem Listed.mark (hb : Listed db b) (h : Listed db a) (hne : b.id ≠ a.id) :
    Listed (markBuildDone w now db a c) b where
  row := (get_markBuildDone_ne hne).trans hb.row
  pending := hb.pending
  deps := by
    rw [BuildDependencies.allDepsCompleted_iff, frame_markBuildDone.buildDependencies]
    intro d hd
    have hs := BuildDependencies.allDepsCompleted_iff.mp hb.deps d hd
    have hk : d ≠ a.id := by
      rintro rfl
      obtain ⟨a', ha', hs⟩ := Db.status_eq_some.mp hs
      cases h.row.symm.trans ha'
      rw [h.pending] at hs
      cases hs
    rw [status_markBuildDone h, if_neg hk, hs]

theorem isIntervalRebuild_markBuildDone :
    isIntervalRebuild (markBuildDone w now db a c) b = isIntervalRebuild db b := by
  unfold isIntervalRebuild Db.evaluationOf
  rw [frame_markBuildDone.evaluations]

/-- Another build is let through after `a` was settled if it was before, and
`a` was not settled as a success of its derivation. -/
theorem runs_markBuildDone (h : Listed db a) : Runs cfg w (markBuildDone w now db a c) b ↔ Runs cfg w db b ∧
    (isIntervalRebuild db b = false → a.drvPath = b.drvPath → c.status ≠ .succeeded) := by
  have hheld : HeldBack (markBuildDone w now db a c) b ↔ HeldBack db b := by
    unfold HeldBack Db.jobsetOf Db.evaluationOf
    rw [frame_markBuildDone.evaluations, frame_markBuildDone.jobsets]
    simp only [hasRunningBuilds_markBuildDone h]
  have hshort : ShortCircuited cfg w (markBuildDone w now db a c) b ↔ ShortCircuited cfg w db b ∨
      isIntervalRebuild db b = false ∧ a.drvPath = b.drvPath ∧ c.status = .succeeded := by
    unfold ShortCircuited FailedPathsCache.isCachedFailure
    rw [isIntervalRebuild_markBuildDone, built_markBuildDone h, failedPathsCache_markBuildDone]
    tauto
  constructor
  · rintro ⟨h1, h2, h3, h4⟩
    rw [hshort, not_or] at h2
    exact ⟨⟨h1, h2.1, h3, hheld.not.mp h4⟩, fun hiv hd hs => h2.2 ⟨hiv, hd, hs⟩⟩
  · rintro ⟨⟨h1, h2, h3, h4⟩, h5⟩
    refine ⟨h1, ?_, h3, hheld.not.mpr h4⟩
    rw [hshort, not_or]
    exact ⟨h2, fun ⟨hiv, hd, hs⟩ => h5 hiv hd hs⟩

end Marked

/-- The poll comes to `b` before it has settled a build of the same derivation
alone, unless `b` is rebuilt whatever was built. -/
def Reached (w : World) (db : Db) (bs : List Build) (b : Build) : Prop :=
  ∃ pre post, bs = pre ++ b :: post ∧
    (isIntervalRebuild db b = false → ∀ a ∈ pre, a.drvPath = b.drvPath → ¬ SettledAlone w db a)

theorem reached_cons {db : Db} {a : Build} : Reached w db (a :: bs) b ↔ b = a ∨ Reached w db bs b ∧
    (isIntervalRebuild db b = false → a.drvPath = b.drvPath → ¬ SettledAlone w db a) := by
  constructor
  · rintro ⟨pre, post, hbs, hpre⟩
    cases pre with
    | nil =>
      cases hbs
      exact .inl rfl
    | cons x pre =>
      obtain ⟨rfl, rfl⟩ := List.cons.inj hbs
      exact .inr ⟨⟨pre, post, rfl, fun hiv x hx => hpre hiv x (List.mem_cons_of_mem _ hx)⟩,
        fun hiv => hpre hiv a List.mem_cons_self⟩
  · rintro (rfl | ⟨⟨pre, post, rfl, hpre⟩, ha⟩)
    · exact ⟨[], bs, rfl, fun _ _ hx => absurd hx List.not_mem_nil⟩
    · refine ⟨a :: pre, post, rfl, fun hiv x hx => ?_⟩
      rcases List.mem_cons.mp hx with rfl | hx
      · exact ha hiv
      · exact hpre hiv x hx

theorem reached_markBuildDone {db : Db} {a : Build} {c : Completion} :
    Reached w (markBuildDone w now db a c) bs b ↔ Reached w db bs b := by
  simp only [Reached, SettledAlone, isIntervalRebuild_markBuildDone]

theorem not_settledAlone {db : Db} {a : Build} (ha : Listed db a) (h : ∀ c, fate cfg w now db a ≠ .settled c) :
    ¬ SettledAlone w db a := by
  intro halone
  obtain ⟨c, hc, -⟩ := (fate_succeeds ha).mpr (Or.inl halone)
  exact h c hc

/-- **The plan in terms of the listing.** A build is dispatched if the filters
let it through and the poll reaches it. -/
theorem mem_plan : ∀ {bs : List Build} {db : Db}, (∀ a ∈ bs, Listed db a) → (bs.map (·.id)).Nodup →
    (b ∈ plan cfg w now db bs ↔ Runs cfg w db b ∧ Reached w db bs b)
  | [], db, _, _ => by
    refine ⟨fun h => absurd h List.not_mem_nil, ?_⟩
    rintro ⟨-, pre, post, h, -⟩
    cases pre <;> cases h
  | a :: bs, db, hbs, hnodup => by
    have ha := hbs a List.mem_cons_self
    have hrest : ∀ x ∈ bs, Listed db x := fun x hx => hbs x (List.mem_cons_of_mem _ hx)
    rw [List.map_cons, List.nodup_cons] at hnodup
    have hruns : Runs cfg w db a ↔ fate cfg w now db a = .dispatched := (fate_dispatched ha).symm
    rw [plan_cons, reached_cons]
    cases hfate : fate cfg w now db a with
    | skipped =>
      have hnot : ¬ SettledAlone w db a := not_settledAlone ha fun c hc => by cases hfate.symm.trans hc
      rw [Fate.plan, mem_plan hrest hnodup.2]
      constructor
      · rintro ⟨hb, hr⟩
        exact ⟨hb, Or.inr ⟨hr, fun _ _ => hnot⟩⟩
      · rintro ⟨hb, rfl | ⟨hr, -⟩⟩
        · cases hfate.symm.trans (hruns.mp hb)
        · exact ⟨hb, hr⟩
    | dispatched =>
      have hnot : ¬ SettledAlone w db a := not_settledAlone ha fun c hc => by cases hfate.symm.trans hc
      rw [Fate.plan, List.mem_cons, mem_plan hrest hnodup.2]
      constructor
      · rintro (rfl | ⟨hb, hr⟩)
        · exact ⟨hruns.mpr hfate, Or.inl rfl⟩
        · exact ⟨hb, Or.inr ⟨hr, fun _ _ => hnot⟩⟩
      · rintro ⟨hb, rfl | ⟨hr, -⟩⟩
        · exact .inl rfl
        · exact .inr ⟨hb, hr⟩
    | settled c =>
      have hmark : ∀ x ∈ bs, Listed (markBuildDone w now db a c) x := fun x hx =>
        (hrest x hx).mark ha fun hid => hnodup.1 (hid ▸ List.mem_map_of_mem hx)
      rw [Fate.plan, mem_plan hmark hnodup.2, runs_markBuildDone ha, reached_markBuildDone]
      constructor
      · rintro ⟨⟨hb, hfail⟩, hr⟩
        refine ⟨hb, Or.inr ⟨hr, fun hiv hd h => ?_⟩⟩
        obtain ⟨c', hc', hs⟩ := (fate_succeeds ha).mpr (Or.inl h)
        cases hfate.symm.trans hc'
        exact hfail hiv hd hs
      · rintro ⟨hb, rfl | ⟨hr, hfirst⟩⟩
        · cases hfate.symm.trans (hruns.mp hb)
        · -- without a build of the derivation, a success is one that needed none
          refine ⟨⟨hb, fun hiv hd hs => ?_⟩, hr⟩
          rcases (fate_succeeds ha).mp ⟨c, hfate, hs⟩ with h | ⟨-, -, hbuilt⟩
          · exact hfirst hiv hd h
          · exact hb.through ⟨hiv, Or.inl (hd ▸ hbuilt)⟩

theorem listed_spec (cfg : Config) (w : World) (db : Db) :
    (∀ a ∈ listed cfg w db, Listed db a) ∧ ((listed cfg w db).map (·.id)).Nodup := by
  constructor
  · intro a ha
    obtain ⟨hrow, hpending, hdeps, -⟩ := Builds.mem_eligiblePending.mp (Builds.mem_listPending ha).1
    exact ⟨Db.get_of_mem hrow, hpending, hdeps⟩
  · have hkeys : (db.builds.rows.map fun b : Build => b.id).Nodup := db.builds.nodup
    refine List.Nodup.sublist ((List.take_sublist _ _).map _) ?_
    rw [((List.perm_insertionSort _ _).map _).nodup_iff]
    exact hkeys.sublist ((List.filter_sublist.trans List.filter_sublist).map _)

theorem World.supports_of_accepts (h : w.accepts b = true) : w.supports b = true := by
  have := Dispatch.VenueEnv.exists_counted_iff.mp (Dispatch.VenueEnv.counted_of_accepted h)
  simpa [World.supports, or_assoc] using this

/-- A pending build that could run now: dependencies and derivation are free,
no filter settles it, its jobset is not one at a time, and some venue has room. -/
structure Dispatchable (cfg : Config) (w : World) (db : Db) (b : Build) : Prop where
  mem : b ∈ db.builds.rows
  pending : b.status = .pending
  deps : BuildDependencies.allDepsCompleted b.id db = true
  untwinned : Builds.runningTwin db b.drvPath = false
  single : b.isAggregate = false
  through : ¬ ShortCircuited cfg w db b
  concurrent : ∀ j ∈ db.jobsetOf b, j.state ≠ .oneAtATime
  venue : w.accepts b = true

/-- `a` comes before `b` in the order of the poll's listing. -/
def Ahead (cfg : Config) (w : World) (db : Db) (a b : Build) : Prop :=
  Builds.pendingKey db (schedulableCapacity cfg (w.env .list)) a <
    Builds.pendingKey db (schedulableCapacity cfg (w.env .list)) b

instance (cfg : Config) (w : World) (db : Db) (a b : Build) : Decidable (Ahead cfg w db a b) :=
  inferInstanceAs (Decidable (_ < _))

/-- A build that some venue has room for, and that the filters let through, has
fewer builds ahead of it in the queue than the poll fetches, and none of its
derivation that is settled alone. -/
def Unblocked (cfg : Config) (w : World) (db : Db) : Prop :=
  ∃ b ∈ Builds.queue db, w.accepts b = true ∧ b.isAggregate = false ∧ ¬ ShortCircuited cfg w db b ∧ ¬ HeldBack db b ∧
    (Builds.queue db).countP (fun a => decide (Ahead cfg w db a b)) < fetchLimit cfg (w.env .list) ∧
    (isIntervalRebuild db b = false →
      ∀ a ∈ Builds.queue db, Ahead cfg w db a b → a.drvPath = b.drvPath → ¬ SettledAlone w db a)

theorem reached_listed_iff {db : Db} : Reached w db (listed cfg w db) b ↔ b ∈ Builds.queue db ∧
    (Builds.queue db).countP (fun a => decide (Ahead cfg w db a b)) < fetchLimit cfg (w.env .list) ∧
    (isIntervalRebuild db b = false →
      ∀ a ∈ Builds.queue db, Ahead cfg w db a b → a.drvPath = b.drvPath → ¬ SettledAlone w db a) := by
  have hlist := @Builds.listPending_eq_append_iff db (fetchLimit cfg (w.env .list))
    (schedulableCapacity cfg (w.env .list)) b
    fun a => isIntervalRebuild db b = false → a.drvPath = b.drvPath → ¬ SettledAlone w db a
  rw [Reached, listed]
  constructor
  · rintro ⟨pre, post, h, hpre⟩
    obtain ⟨hb, hcount, hahead⟩ := hlist.mp ⟨pre, post, h, fun a ha hiv => hpre hiv a ha⟩
    exact ⟨hb, hcount, fun hiv a ha hlt => hahead a ha hlt hiv⟩
  · rintro ⟨hb, hcount, hahead⟩
    obtain ⟨pre, post, h, hpre⟩ := hlist.mpr ⟨hb, hcount, fun a ha hlt hiv => hahead hiv a ha hlt⟩
    exact ⟨pre, post, h, fun hiv a ha => hpre a ha hiv⟩

/-- A build that needs `kvm`, and one that needs no feature. -/
def kvmBuild (id : Uuid) : Build :=
  { id := id, evaluationId := 1, drvPath := toString id, system := some "x86_64-linux", requiredFeatures := ["kvm"] }

def plainBuild : Build := { id := 0, evaluationId := 1, drvPath := "plain", system := some "x86_64-linux" }

/-- The plain build, and `n` that need `kvm`. -/
def mixed (n : ℕ) : List Build := plainBuild :: (List.range n).map fun i => kvmBuild (i + 1)

theorem consistent_mixed : Db.Consistent [{ id := 1 }] [{ id := 1, jobsetId := 1 }] (mixed 1) [] [] ∧
    Db.Consistent [{ id := 1 }] [{ id := 1, jobsetId := 1 }] (mixed 10) [] [] := by
  decide

/-- One agent with one slot and no features. -/
def plainAgent : World where
  venues := { pool := [{ machineId := 0, systems := ["x86_64-linux"] }] }
  evaluator := Dispatch.changeRequested

/-- A runner about to list these builds. -/
def listing (n : ℕ) (h : Db.Consistent [{ id := 1 }] [{ id := 1, jobsetId := 1 }] (mixed n) [] []) : State :=
  (State.start {} (.ofRows [{ id := 1 }] [{ id := 1, jobsetId := 1 }] (mixed n) [] [] h)).setPhase .list

theorem dispatchable_plainBuild :
    Dispatchable {} plainAgent (listing 1 consistent_mixed.1).db plainBuild ∧
      Dispatchable {} plainAgent (listing 10 consistent_mixed.2).db plainBuild := by
  constructor <;> constructor <;> decide

end Poll
end Circus.Runner
