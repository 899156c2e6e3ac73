/-
# A restart is not answered from an older failure

A worker that has found a build to fail for good writes twice: `complete`, then
`failed_paths_cache::insert`. An operator's `restart` writes twice as well: the
row goes back to pending, then the cache forgets the derivation. The loop looks
a derivation up in the cache and, if it is there, marks the build as a cached
failure by two more statements.

A failure from before the restart answers for the build in three ways: the
worker's insert comes after the invalidation, the loop looks the derivation up
before it, or the loop has already looked it up. If none of them is under way
at the restart and the loop waits for the invalidation, the build is not
marked, unless its derivation fails again.
-/
import Circus.Runner.Tasks

namespace Circus.Runner

open Lts

/-- The derivation a worker finds to fail for good. -/
def failing (s : State) : Action → Option String
  | .task t (.report (.failure _ _ _)) => (s.task t).bind fun task =>
    if task.build.retryCount < task.build.maxRetries then none else some task.build.drvPath
  | _ => none

/-- Before `failed_paths_cache::insert`. -/
def Phase.isCaching : Phase → Bool
  | cachingFailure _ => true
  | _ => false

/-- The build whose derivation the loop is about to look up in the cache. -/
def LoopPhase.lookedUp : LoopPhase → Option Build
  | cachedFailure b => some b
  | _ => none

/-- The loop is marking a build as a cached failure. -/
def LoopPhase.cachedAs : LoopPhase → Option Uuid
  | doneStart b c | doneComplete b c => if c.status = .cachedFailure then some b.id else none
  | _ => none

/-- No worker is about to cache a failure of the derivation and the loop is not marking the build. -/
def State.Unanswered (s : State) (k : Uuid) (d : String) : Prop :=
  (∀ t task, s.task t = some task → task.phase.isCaching = true → task.build.drvPath ≠ d) ∧
    s.loop.phase.cachedAs ≠ some k

instance (s : State) (k : Uuid) (d : String) : Decidable (s.Unanswered k d) := inferInstanceAs (Decidable (_ ∧ _))

/-- The loop does not look the derivation up between the two statements of a restart. -/
def WaitsForInvalidation (d : String) (s : State) : Action → Prop
  | .loop _ => ∀ b ∈ s.loop.phase.lookedUp, b.drvPath = d → d ∉ s.invalidations
  | _ => True

instance (d : String) (s : State) (a : Action) : Decidable (WaitsForInvalidation d s a) := by
  induction a using Action.casesOn <;> dsimp only [WaitsForInvalidation] <;> infer_instance

/-! ### Reports -/

section Report

variable {cfg : Config} {now : Time} {b : Build} {o : Outcome}

/-- Only a build that fails for good is cached. -/
theorem report_caches (h : (report cfg now b o).2.isCaching = true) :
    (∃ c e l, o = .failure c e l) ∧ ¬ b.retryCount < b.maxRetries := by
  cases o with
  | success =>
    rw [report] at h
    split_ifs at h <;> cases h
  | failure c e l =>
    rw [report] at h
    split_ifs at h with hr
    · cases h
    exact ⟨⟨c, e, l, rfl⟩, hr⟩
  | error | noVenue => cases h

/-- Every other report writes a success, a failure or another attempt. -/
theorem status_report_ne {db : Db} {k : Uuid} (ho : ∀ c e l, o = .failure c e l → b.retryCount < b.maxRetries)
    (hk : db.status k ≠ some .cachedFailure) : ((report cfg now b o).1 db).status k ≠ some .cachedFailure := by
  have hcomplete : ∀ st l out e, st ≠ .cachedFailure →
      (Builds.complete now b.id st l out e db).status k ≠ some .cachedFailure := fun st l out e hst =>
    status_updateBuild_ne (Build.toJob_complete now st l out e) (fun _ h => absurd h hst) hk
  cases o with
  | success l =>
    rw [report]
    split_ifs
    · exact hcomplete .failed l none _ (by decide)
    · exact hcomplete .succeeded l _ none (by decide)
  | failure c e l =>
    rw [report, if_pos (ho c e l rfl)]
    exact status_updateBuild_ne Build.toJob_retry (fun b h => by cases h) hk
  | error => exact hcomplete .failed none none _ (by decide)
  | noVenue =>
    refine status_updateBuild_ne Build.toJob_requeue (fun b h => ?_) hk
    unfold Build.requeue at h
    split_ifs at h
    exact h

end Report

section Steps

variable {cfg : Config} {s s' : State} {a : Action} {k : Uuid} {d : String}

theorem failing_of_report {t : ℕ} {task : Task} {o : Outcome} (ht : s.task t = some task)
    (ho : ∃ c e l, o = .failure c e l) (hr : ¬ task.build.retryCount < task.build.maxRetries) :
    failing s (.task t (.report o)) = some task.build.drvPath := by
  obtain ⟨c, e, l, rfl⟩ := ho
  rw [failing, ht, Option.bind_some, if_neg hr]

/-! ### What makes a build a cached failure -/

/-- A build becomes a cached failure because the loop marks it or because a worker exits so. -/
theorem cachedFailure_of_step (h : step cfg s a = some s') (hk : s.db.status k ≠ some .cachedFailure)
    (hk' : s'.db.status k = some .cachedFailure) :
    s.loop.phase.cachedAs = some k ∨
      ∃ t task, s.task t = some task ∧ task.build.id = k ∧ failing s a = some task.build.drvPath := by
  rcases step_status h k with heq | ⟨st, st', -, h', hm⟩
  · exact absurd (heq ▸ hk') hk
  · obtain rfl : st' = .cachedFailure := Option.some.inj (h'.symm.trans hk')
    generalize hq : BuildStatus.cachedFailure = q at hm
    cases hm with
    | claim | doneStart | requeue | retry | cancel | sweep | restart => cases hq
    | doneComplete env b c st _ hp hid =>
      left
      rw [hp, LoopPhase.cachedAs, if_pos hq.symm, hid]
    | complete t task o st st' ha ht hp hid =>
      right
      subst ha
      refine ⟨t, task, ht, hid, ?_⟩
      by_cases ho : (∃ c e l, o = .failure c e l) ∧ ¬ task.build.retryCount < task.build.maxRetries
      · exact failing_of_report ht ho.1 ho.2
      · -- the report's statement does not write the status
        exfalso
        have hretry : ∀ c e l, o = .failure c e l → task.build.retryCount < task.build.maxRetries :=
          fun c e l he => by_contra fun hr => ho ⟨⟨c, e, l, he⟩, hr⟩
        rw [(report_of_step h ht).1] at hk'
        exact status_report_ne hretry hk hk'

theorem cachedAs_firstFilter (iv : Bool) (b : Build) : (firstFilter iv b).cachedAs = none := by
  unfold firstFilter
  split_ifs <;> rfl

theorem cachedAs_afterFod (cfg : Config) (iv : Bool) (b : Build) : (afterFod cfg iv b).cachedAs = none := by
  unfold afterFod
  split_ifs <;> rfl

theorem cachedAs_sweepDone (s : State) (atBoot : Bool) : (s.sweepDone atBoot).loop.phase.cachedAs = none := by
  unfold State.sweepDone
  split_ifs <;> rfl

theorem cachedAs_of_loopStep {env : LoopEnv} (h : s.loopStep cfg env = some s') (hk : s'.loop.phase.cachedAs = some k) :
    s.loop.phase.cachedAs = some k ∨ ∃ b, s.loop.phase = .cachedFailure b ∧ b.id = k ∧
      FailedPathsCache.isCachedFailure b.drvPath s.db = true := by
  have hnone : s'.loop.phase.cachedAs ≠ none := by simp [hk]
  unfold State.loopStep at h
  split at h
  case h_9 b hp =>
    split_ifs at h with hc
    · cases h
      exact .inr ⟨b, hp, Option.some.inj hk, hc⟩
    · cases h
      exact absurd rfl hnone
  case h_14 b c hp =>
    cases h
    rw [hp]
    exact .inl hk
  case h_3 ids atBoot hp =>
    cases h
    exact absurd (cachedAs_sweepDone _ atBoot) hnone
  case h_5 hp =>
    split at h <;> cases h
    · exact absurd rfl hnone
    · exact absurd (cachedAs_firstFilter _ _) hnone
  case h_8 b iv hp =>
    simp only at h
    split_ifs at h <;> cases h
    all_goals first | exact absurd rfl hnone | exact absurd (cachedAs_afterFod cfg iv b) hnone
  all_goals
    repeat' split at h
    all_goals cases h
    all_goals exact absurd rfl hnone

theorem cachedAs_of_loopFail (h : s.loopFail cfg = some s') (hk : s'.loop.phase.cachedAs = some k) :
    s.loop.phase.cachedAs = some k := by
  have hnone : s'.loop.phase.cachedAs ≠ none := by simp [hk]
  unfold State.loopFail at h
  split at h
  case h_1 => cases h; exact absurd (cachedAs_sweepDone _ _) hnone
  case h_2 =>
    cases h
    split_ifs at hnone <;> exact absurd rfl hnone
  case h_3 =>
    split at h <;> cases h
    exact absurd (cachedAs_firstFilter _ _) hnone
  case h_11 hp =>
    cases h
    rw [hp]
    exact hk
  all_goals cases h
  all_goals exact absurd rfl hnone

/-- The loop marks a build it was marking, or whose derivation it has just found in the cache. -/
theorem cachedAs_of_step (h : step cfg s a = some s') (hk : s'.loop.phase.cachedAs = some k) :
    s.loop.phase.cachedAs = some k ∨ (∃ env, a = .loop env) ∧ ∃ b, s.loop.phase = .cachedFailure b ∧ b.id = k ∧
      FailedPathsCache.isCachedFailure b.drvPath s.db = true := by
  rcases step_loop h with ⟨-, ha⟩ | ⟨hl, -⟩
  · cases a with
    | loop env =>
      rcases cachedAs_of_loopStep h hk with hk | hb
      · exact .inl hk
      · exact .inr ⟨⟨env, rfl⟩, hb⟩
    | loopError => exact .inl (cachedAs_of_loopFail h hk)
    | _ => cases ha
  · exact .inl (hl ▸ hk)

/-- A worker caches a failure it has just reported or was about to cache. -/
theorem cachingFailure_of_step (h : step cfg s a = some s') {t : ℕ} {task' : Task} (ht : s'.task t = some task')
    (hp : task'.phase.isCaching = true) :
    ∃ task, s.task t = some task ∧ task.build.drvPath = task'.build.drvPath ∧
      (task.phase.isCaching = true ∨ failing s a = some task.build.drvPath) := by
  rcases task_of_step h ht with ⟨task, ht₀, hjob, -, ⟨heq, -⟩ | ⟨ev, rfl, hm⟩⟩ | ⟨_, b, -, -, -, rfl⟩
  · exact ⟨task, ht₀, by rw [hjob], .inl (heq ▸ hp)⟩
  · refine ⟨task, ht₀, by rw [hjob], .inr ?_⟩
    generalize s'.db = db, task'.phase = p at hm hp
    cases hm with
    | report =>
      obtain ⟨ho, hr⟩ := report_caches hp
      exact failing_of_report ht₀ ho hr
    | wait _ _ _ _ hw => cases p <;> cases hp; cases hw
    | finish | claim | fallback | giveBack | cacheFailure | reload | loadEvaluation | count | channels | promote
    | promoteFails => cases hp
  · cases hp

/-! ### The cache -/

theorem cache_start (free : Bool) (now : Time) (id : Uuid) (db : Db) :
    (Builds.start free now id db).2.failedPathsCache = db.failedPathsCache := by
  rcases Builds.start_cases free now id db with ⟨_, _, _, h⟩ | h <;> rw [h]
  rfl

theorem cache_report (cfg : Config) (now : Time) (b : Build) (o : Outcome) (db : Db) :
    ((report cfg now b o).1 db).failedPathsCache = db.failedPathsCache := by
  rcases report_cases cfg now b o with ⟨-, h⟩ | ⟨-, -, h⟩ | ⟨_, _, _, _, _, -, h, -⟩ <;> rw [h] <;> rfl

theorem cache_move {task : Task} {ev : TaskEvent} {db : Db} {p : Phase} (h : Move cfg s task ev db p) :
    db.failedPathsCache = s.db.failedPathsCache ∨
      ∃ st, task.phase = .cachingFailure st ∧
        db = FailedPathsCache.insert s.now task.build.drvPath st task.build.id s.db := by
  cases h with
  | wait _ _ _ _ _ hdb => rcases hdb with rfl | ⟨_, _, _, -, rfl⟩ <;> exact .inl rfl
  | claim free => exact .inl (cache_start free s.now task.build.id s.db)
  | report o => exact .inl (cache_report cfg s.now task.build o s.db)
  | cacheFailure _ st _ hp hdb =>
    rcases hdb with rfl | rfl
    · exact .inl rfl
    · exact .inr ⟨st, hp, rfl⟩
  | finish | fallback | giveBack | reload | loadEvaluation | count | channels | promote | promoteFails => exact .inl rfl

theorem cache_loop (h : LoopMove s s') :
    s'.db.failedPathsCache = s.db.failedPathsCache ∧ s'.invalidations = s.invalidations := by
  cases h with
  | quiet _ h => cases h <;> exact ⟨rfl, rfl⟩
  | dispatch =>
    unfold State.setPhase State.dispatch
    split <;> exact ⟨rfl, rfl⟩
  | doneStart b c free => exact ⟨cache_start free s.now b.id s.db, rfl⟩
  | list | sweep | doneComplete => exact ⟨rfl, rfl⟩

/-- **What a step can do to the cache.** A derivation in it was there, or a worker has just put it
there; and the next invalidation of it is still to come if it was. -/
theorem cached_of_step (h : step cfg s a = some s') (hd : FailedPathsCache.isCachedFailure d s'.db = true) :
    FailedPathsCache.isCachedFailure d s.db = true ∧ (d ∈ s.invalidations → d ∈ s'.invalidations) ∨
      ∃ t task, s.task t = some task ∧ task.phase.isCaching = true ∧ task.build.drvPath = d := by
  have hsame : s'.db.failedPathsCache = s.db.failedPathsCache →
      FailedPathsCache.isCachedFailure d s.db = true := fun he => by
    rw [FailedPathsCache.isCachedFailure, he] at hd
    exact hd
  cases step_cases h with
  | loop env _ hl =>
    obtain ⟨hc, hi⟩ := cache_loop hl
    exact .inl ⟨hsame hc, fun hm => hi ▸ hm⟩
  | loopError _ hq =>
    obtain ⟨hc, hi⟩ := cache_loop (.quiet _ hq)
    exact .inl ⟨hsame hc, fun hm => hi ▸ hm⟩
  | task t ev task _ ht hstep =>
    cases hstep with
    | move _ task' hk hm hts hf =>
      rcases cache_move hm with hc | ⟨st, hp, hdb⟩
      · exact .inl ⟨hsame hc, fun hm => hf.invalidations ▸ hm⟩
      · by_cases he : task.build.drvPath = d
        · exact .inr ⟨t, task, ht, by rw [hp]; rfl, he⟩
        · refine .inl ⟨?_, fun hm => hf.invalidations ▸ hm⟩
          rw [hdb, FailedPathsCache.isCachedFailure, FailedPathsCache.insert, Table.get_upsert,
            if_neg (Ne.symm he)] at hd
          exact hd
    | remove => exact .inl ⟨hd, id⟩
  | checker =>
    obtain ⟨_, _, _, hc⟩ := s.checkerStep_eq
    rw [hc] at hd ⊢
    exact .inl ⟨hd, id⟩
  | restart => exact .inl ⟨hd, List.mem_cons_of_mem _⟩
  | invalidate d' =>
    rw [FailedPathsCache.isCachedFailure, FailedPathsCache.invalidate, Table.get_delete] at hd
    obtain ⟨f, hf⟩ := Option.isSome_iff_exists.mp hd
    obtain ⟨hget, hne⟩ := Option.filter_eq_some_iff.mp hf
    have hfd : f.drvPath = d := Table.key_of_get hget
    refine .inl ⟨by rw [FailedPathsCache.isCachedFailure, hget]; rfl, fun hm => ?_⟩
    have hdd : d ≠ d' := by
      rintro rfl
      simp [hfd] at hne
    exact (List.mem_erase_of_ne hdd).mpr hm
  | cleanupExpired =>
    rw [FailedPathsCache.isCachedFailure, FailedPathsCache.cleanupExpired, Table.get_delete] at hd
    obtain ⟨f, hf⟩ := Option.isSome_iff_exists.mp hd
    obtain ⟨hget, -⟩ := Option.filter_eq_some_iff.mp hf
    exact .inl ⟨by rw [FailedPathsCache.isCachedFailure, hget]; rfl, id⟩
  | tick | checkerError | cancel | cancelSuperseded | drain => exact .inl ⟨hd, id⟩

/-! ### After the restart -/

/-- The build is not a cached failure and nobody is about to make it one; the derivation is in the
cache only until a restart's invalidation. -/
structure Forgotten (k : Uuid) (d : String) (s : State) : Prop where
  copies : Copies s
  job : (s.db.job k).map (·.drvPath) = some d
  status : s.db.status k ≠ some .cachedFailure
  unanswered : s.Unanswered k d
  cache : FailedPathsCache.isCachedFailure d s.db = true → d ∈ s.invalidations

theorem Forgotten.drvPath (hI : Forgotten k d s) {b : Build} (hb : IsCopy s.db b) (hk : b.id = k) : b.drvPath = d := by
  have := hI.job
  rw [← hk, hb] at this
  exact Option.some.inj this

theorem step_forgotten (hI : Forgotten k d s) (hf : failing s a ≠ some d) (hw : WaitsForInvalidation d s a)
    (h : step cfg s a = some s') : Forgotten k d s' where
  copies := step_copies hI.copies h
  job := by
    rw [(step_frame h).job k]
    exact hI.job
  status hk := by
    rcases cachedFailure_of_step h hI.status hk with hc | ⟨t, task, ht, hid, hfail⟩
    · exact hI.unanswered.2 hc
    · exact hf (hfail.trans (congrArg some (hI.drvPath (hI.copies.tasks t task ht) hid)))
  unanswered := by
    refine ⟨fun t task ht hp hd => ?_, fun hk => ?_⟩
    · obtain ⟨task₀, ht₀, hdrv, hcase⟩ := cachingFailure_of_step h ht hp
      rcases hcase with hp₀ | hfail
      · exact hI.unanswered.1 t task₀ ht₀ hp₀ (hdrv.trans hd)
      · exact hf (hfail.trans (congrArg some (hdrv.trans hd)))
    · rcases cachedAs_of_step h hk with hk | ⟨⟨env, rfl⟩, b, hp, hid, hc⟩
      · exact hI.unanswered.2 hk
      · -- the loop has found the derivation in the cache: its invalidation is still to come
        have hd := hI.drvPath (hI.copies.current b (by rw [hp]; rfl)) hid
        rw [hd] at hc
        exact hw b (by rw [hp]; rfl) hd (hI.cache hc)
  cache hd := by
    rcases cached_of_step h hd with ⟨hd, hi⟩ | ⟨t, task, ht, hp, he⟩
    · exact hi (hI.cache hd)
    · exact absurd he (hI.unanswered.1 t task ht hp)

/-- After its first statement. -/
theorem forgotten_restart {b : Build} (hc : Copies s) (hb : s.db.builds.get k = some b) (hu : s.Unanswered k b.drvPath)
    (h : step cfg s (.restart k) = some s') : Forgotten k b.drvPath s' := by
  have hframe := step_frame h
  cases step_cases h with
  | restart _ b' hb' hr =>
    obtain rfl : b = b' := Option.some.inj (hb.symm.trans hb')
    refine ⟨step_copies hc h, ?_, ?_, hu, fun _ => List.mem_cons_self⟩
    · rw [hframe.job k, Db.job, hb]
      rfl
    · rw [Db.status, Builds.restart, Db.get_updateBuild, if_pos rfl, hb]
      simp [Build.restart, hr]

/-- **A restart is not answered from an older failure**, if at the restart no worker is about to cache
one, the loop is not marking the build, and the loop does not look the derivation up before the
invalidation. -/
theorem restart_not_cached {s₀ s₁ s₂ : State} {as bs : List Action} {b : Build} (h₀ : Fresh cfg s₀)
    (hs : exec (step cfg) s₀ as = some s) (hb : s.db.builds.get k = some b)
    (hr : step cfg s (.restart k) = some s₁) (hu : s.Unanswered k b.drvPath) (hs₂ : exec (step cfg) s₁ bs = some s₂)
    (hno : Along (step cfg) (fun s a => failing s a ≠ some b.drvPath) s₁ bs)
    (hw : Along (step cfg) (WaitsForInvalidation b.drvPath) s₁ bs) : s₂.db.status k ≠ some .cachedFailure :=
  (exec_inv (fun _ _ _ hI hP h => step_forgotten hI hP.1 hP.2 h)
    (forgotten_restart (exec_copies h₀.copies hs) hb hu hr) (hno.and hw) hs₂).status

end Steps

/-- One build without retries. -/
def hopeless : Db :=
  .ofRows [{ id := 1 }] [{ id := 1, jobsetId := 1 }]
    [{ id := 1, evaluationId := 1, drvPath := "a.drv", maxRetries := 0 }] [] [] (by decide)

/-- The build fails for good; the worker has not cached that yet. -/
def failed : List Action := loops 12 ++ claims 0 ++ [.task 0 (.report (.failure (some 1) "" none))]

/-- The worker caches the failure and ends before the restart; the next poll dispatches the build. -/
theorem restart_not_cached_after_worker :
    ∃ s ∈ exec (step {}) (.start {} hopeless) (failed ++ [.task 0 .proceed, .task 0 .proceed, .task 0 .remove]),
      FailedPathsCache.isCachedFailure "a.drv" s.db = true ∧ s.Unanswered 1 "a.drv" ∧
      ∃ s₁ ∈ step {} s (.restart 1), ∃ s₂ ∈ exec (step {}) s₁ (.invalidate "a.drv" :: loops 11),
        s₂.db.status 1 = some .pending ∧ s₂.db.status 1 ≠ some .cachedFailure ∧ s₂.nextTask = 2 := by
  obtain ⟨s, hs, b, hb, hd, hc, hu, s₁, hr, s₂, hs₂, hst, hn, hno, hw⟩ : ∃ s ∈ exec (step {}) (.start {} hopeless)
      (failed ++ [.task 0 .proceed, .task 0 .proceed, .task 0 .remove]), ∃ b ∈ s.db.builds.get 1, b.drvPath = "a.drv" ∧
      FailedPathsCache.isCachedFailure "a.drv" s.db = true ∧ s.Unanswered 1 b.drvPath ∧
      ∃ s₁ ∈ step {} s (.restart 1), ∃ s₂ ∈ exec (step {}) s₁ (.invalidate "a.drv" :: loops 11),
        s₂.db.status 1 = some .pending ∧ s₂.nextTask = 2 ∧
        Along (step {}) (fun s a => failing s a ≠ some b.drvPath) s₁ (.invalidate "a.drv" :: loops 11) ∧
        Along (step {}) (WaitsForInvalidation b.drvPath) s₁ (.invalidate "a.drv" :: loops 11) := by
    decide +kernel
  exact ⟨s, hs, hc, hd ▸ hu, s₁, hr, s₂, hs₂, hst,
    restart_not_cached (fresh_start {} hopeless) hs hb hr hu hs₂ hno hw, hn⟩

/-- The worker caches the failure after the restart, or the loop looks the derivation up between the
restart's statements: nothing has failed since, and the build is a cached failure. -/
theorem restart_answered_from_cache : Fresh {} (.start {} hopeless) ∧
    (∃ s ∈ exec (step {}) (.start {} hopeless)
        (failed ++ [.restart 1, .invalidate "a.drv", .task 0 .proceed] ++ loops 9),
      s.db.status 1 = some .cachedFailure) ∧
    (∃ s ∈ exec (step {}) (.start {} hopeless)
        (failed ++ [.task 0 .proceed, .restart 1] ++ loops 9 ++ [.invalidate "a.drv"]),
      s.db.status 1 = some .cachedFailure) := by
  refine ⟨fresh_start {} hopeless, ?_⟩
  decide +kernel

end Circus.Runner
