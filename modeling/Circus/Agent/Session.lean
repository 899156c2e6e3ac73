/-
# The sessions of an agent

`crates/agent/src/session.rs` with the reconnect loop of `cli.rs`. A session is
one connection to the runner; it has a map from the builds it has accepted to
their cancellation tokens. `assign` spawns a build as a task of the process,
which goes on when the connection is lost, and `reconnect_forever` then begins
a session with an empty map. `shutdown` empties the map of the session as well,
while the builds it cancels are still there.

So the limit on jobs, which is checked against the map, is one on the process
as long as no session begins and no shutdown comes while a build is alive, and
then every build can be aborted.
-/
import Circus.Lts
import Circus.Models

namespace Circus.Agent

open Function (update)

/-- The state of an ephemeral session. -/
structure Lifecycle where
  completed : ℕ := 0
  accepted : ℕ := 0
  maxBuilds : Option ℕ := none
  draining : Bool := false

def Lifecycle.reserveBuild (l : Lifecycle) : Bool × Lifecycle :=
  if l.draining then (false, l)
  else
    match l.maxBuilds with
    | none => (true, l)
    | some max =>
      if max ≤ l.accepted then (false, { l with draining := true })
      else (true, { l with accepted := l.accepted + 1, draining := decide (max ≤ l.accepted + 1) })

structure Config where
  maxJobs : ℕ
  /-- The `max_builds` of an ephemeral agent. -/
  ephemeral : Option (Option ℕ) := none

/-- `BuilderInner`. -/
structure Session where
  /-- The cancellation tokens of the running builds. -/
  running : List (Uuid × ℕ) := []
  lifecycle : Option Lifecycle := none

/-- A build task, with the session that spawned it. -/
structure Task where
  session : ℕ
  buildId : Uuid
  token : ℕ
  deriving DecidableEq

def Task.entry (t : Task) : Uuid × ℕ := (t.buildId, t.token)

structure State where
  /-- The number of sessions so far, which is the number of the current one. -/
  started : ℕ := 0
  connected : Bool := false
  sessions : ℕ → Session := fun _ => {}
  tasks : List Task := []
  /-- The number of tokens so far. -/
  tokens : ℕ := 0
  cancelled : List ℕ := []

def State.current (s : State) : Session := s.sessions s.started

/-- `assign`, up to the task: the answer, and the session after it. -/
def Session.assign (cfg : Config) (s : Session) (b : Uuid) (token : ℕ) : Except String Unit × Session :=
  if s.lifecycle.any fun l => l.draining then (.error "agent draining; not accepting new builds", s)
  else if cfg.maxJobs ≤ s.running.length then (.error "agent at max_jobs; refusing assignment", s)
  else if b ∈ s.running.map Prod.fst then (.error ("build_id " ++ toString b ++ " is already running"), s)
  else
    match s.lifecycle with
    | none => (.ok (), { s with running := (b, token) :: s.running })
    | some l =>
      match l.reserveBuild with
      | (false, l) => (.error "agent reached max_builds; draining", { s with lifecycle := some l })
      | (true, l) => (.ok (), { running := (b, token) :: s.running, lifecycle := some l })

/-- The end of a build, in the session that spawned it. -/
def Session.finish (s : Session) (b : Uuid) : Session where
  running := s.running.filter fun e => e.1 ≠ b
  lifecycle := s.lifecycle.map fun l => { l with completed := l.completed + 1 }

inductive Action
  /-- `run_once` has registered. -/
  | connect
  /-- The connection is lost. -/
  | disconnect
  | assign (b : Uuid)
  | abort (b : Uuid)
  | shutdown
  /-- A build task ends. -/
  | finish (t : Task)
  /-- The monitor of an ephemeral session has reached a limit. -/
  | drain
  deriving DecidableEq

def step (cfg : Config) (s : State) : Action → Option State
  | .connect =>
    -- an ephemeral agent has one session
    if s.connected ∨ cfg.ephemeral.isSome ∧ s.started ≠ 0 then none
    else some { s with
      started := s.started + 1
      connected := true
      sessions := update s.sessions (s.started + 1)
        { lifecycle := cfg.ephemeral.map fun maxBuilds => { maxBuilds := maxBuilds } } }
  | .disconnect => if s.connected then some { s with connected := false } else none
  | .assign b =>
    if s.connected then
      match s.current.assign cfg b s.tokens with
      | (.ok _, session) => some { s with
          sessions := update s.sessions s.started session
          tasks := ⟨s.started, b, s.tokens⟩ :: s.tasks
          tokens := s.tokens + 1 }
      | (.error _, session) => some { s with sessions := update s.sessions s.started session }
    else none
  | .abort b =>
    if s.connected then
      some { s with cancelled := (s.current.running.lookup b).toList ++ s.cancelled }
    else none
  | .shutdown =>
    if s.connected then
      some { s with
        cancelled := s.current.running.map Prod.snd ++ s.cancelled
        sessions := update s.sessions s.started { s.current with running := [] } }
    else none
  | .finish t =>
    if t ∈ s.tasks then
      some { s with
        tasks := s.tasks.erase t
        sessions := update s.sessions t.session ((s.sessions t.session).finish t.buildId) }
    else none
  | .drain =>
    match s.current.lifecycle with
    | some l => some { s with
        sessions := update s.sessions s.started { s.current with lifecycle := some { l with draining := true } } }
    | none => none

/-! ### What a step does -/

/-- The effect of a step on tasks and maps. -/
inductive Effect (cfg : Config) (s : State) : Action → State → Prop
  /-- The map of the current session stays, and so do the tasks. -/
  | kept (a : Action) {s' : State} (hst : s'.started = s.started) (hr : s'.current.running = s.current.running)
      (ht : s'.tasks = s.tasks) : Effect cfg s a s'
  | connect {s' : State} (hr : s'.current.running = []) (ht : s'.tasks = s.tasks) : Effect cfg s .connect s'
  | assigned {b : Uuid} {s' : State} (hst : s'.started = s.started) (hlt : s.current.running.length < cfg.maxJobs)
      (hb : b ∉ s.current.running.map Prod.fst) (hr : s'.current.running = (b, s.tokens) :: s.current.running)
      (ht : s'.tasks = ⟨s.started, b, s.tokens⟩ :: s.tasks) : Effect cfg s (.assign b) s'
  | shutdown {s' : State} (hst : s'.started = s.started) (hr : s'.current.running = []) (ht : s'.tasks = s.tasks) :
      Effect cfg s .shutdown s'
  | finish {t : Task} {s' : State} (hm : t ∈ s.tasks) (hst : s'.started = s.started)
      (hr : t.session = s.started → s'.current.running = s.current.running.filter fun e => e.1 ≠ t.buildId)
      (ht : s'.tasks = s.tasks.erase t) : Effect cfg s (.finish t) s'

theorem Session.assign_ok {cfg : Config} {s s' : Session} {b : Uuid} {token : ℕ} {u : Unit}
    (h : s.assign cfg b token = (.ok u, s')) :
    s.running.length < cfg.maxJobs ∧ b ∉ s.running.map Prod.fst ∧ s'.running = (b, token) :: s.running := by
  unfold Session.assign at h
  split_ifs at h with hd hlt hb
  · cases (Prod.mk.inj h).1
  · cases (Prod.mk.inj h).1
  · cases (Prod.mk.inj h).1
  · refine ⟨Nat.not_le.mp hlt, hb, ?_⟩
    split at h
    next => rw [← (Prod.mk.inj h).2]
    next =>
      split at h
      next => cases (Prod.mk.inj h).1
      next => rw [← (Prod.mk.inj h).2]

theorem Session.assign_error {cfg : Config} {s s' : Session} {b : Uuid} {token : ℕ} {e : String}
    (h : s.assign cfg b token = (.error e, s')) : s'.running = s.running := by
  unfold Session.assign at h
  split_ifs at h with hd hlt hb
  · rw [← (Prod.mk.inj h).2]
  · rw [← (Prod.mk.inj h).2]
  · rw [← (Prod.mk.inj h).2]
  · split at h
    next => cases (Prod.mk.inj h).1
    next =>
      split at h
      next => rw [← (Prod.mk.inj h).2]
      next => cases (Prod.mk.inj h).1

/-- The map of a session after a change to it. -/
theorem running_update (sessions : ℕ → Session) (k : ℕ) (session : Session) :
    (update sessions k session k).running = session.running := by
  rw [Function.update_self]

theorem effect_of_step {cfg : Config} {s s' : State} {a : Action} (h : step cfg s a = some s') : Effect cfg s a s' := by
  cases a with
  | connect =>
    unfold step at h
    dsimp only at h
    split_ifs at h
    cases h
    exact .connect (running_update _ _ _) rfl
  | disconnect =>
    unfold step at h
    dsimp only at h
    split_ifs at h
    cases h
    exact .kept _ rfl rfl rfl
  | assign b =>
    unfold step at h
    dsimp only at h
    split_ifs at h
    split at h
    next session ha =>
      cases h
      obtain ⟨hlt, hb, hr⟩ := Session.assign_ok ha
      exact .assigned rfl hlt hb ((running_update _ _ _).trans hr) rfl
    next session ha =>
      cases h
      exact .kept _ rfl ((running_update _ _ _).trans (Session.assign_error ha)) rfl
  | abort =>
    unfold step at h
    dsimp only at h
    split_ifs at h
    cases h
    exact .kept _ rfl rfl rfl
  | shutdown =>
    unfold step at h
    dsimp only at h
    split_ifs at h
    cases h
    exact .shutdown rfl (running_update _ _ _) rfl
  | finish =>
    unfold step at h
    dsimp only at h
    split_ifs at h with hm
    cases h
    refine .finish hm rfl (fun hs => ?_) rfl
    unfold State.current
    rw [hs]
    exact running_update _ _ _
  | drain =>
    unfold step at h
    dsimp only at h
    split at h
    next l hl =>
      cases h
      exact .kept _ rfl (running_update _ _ _) rfl
    next => cases h

/-! ### The process -/

/-- No session begins and no shutdown comes while a build is alive. -/
def NoneAlive (s : State) : Action → Prop
  | .connect => s.tasks = []
  | .shutdown => s.tasks = []
  | _ => True

instance (s : State) (a : Action) : Decidable (NoneAlive s a) := by
  cases a <;> dsimp only [NoneAlive] <;> infer_instance

/-- The map of the current session has the tasks of the process. -/
structure Tracked (cfg : Config) (s : State) : Prop where
  running : s.current.running = s.tasks.map Task.entry
  session : ∀ t ∈ s.tasks, t.session = s.started
  nodup : (s.tasks.map Task.buildId).Nodup
  length_le : s.tasks.length ≤ cfg.maxJobs

/-- With one task for a build, taking out the task takes out the build. -/
theorem erase_eq_filter {tasks : List Task} {t : Task} (hm : t ∈ tasks) (hn : (tasks.map Task.buildId).Nodup) :
    tasks.erase t = tasks.filter fun t' => t'.buildId ≠ t.buildId := by
  rw [(List.Nodup.of_map _ hn).erase_eq_filter]
  refine List.filter_congr fun t' ht' => ?_
  by_cases he : t' = t
  · simp [he]
  · have hb : t'.buildId ≠ t.buildId := fun hb => he (List.inj_on_of_nodup_map hn ht' hm hb)
    simp [he, hb]

namespace Tracked

theorem step {cfg : Config} {s s' : State} {a : Action} (h : Tracked cfg s) (hg : NoneAlive s a)
    (he : Effect cfg s a s') : Tracked cfg s' := by
  cases he with
  | kept _ hst hr ht =>
    refine ⟨by rw [hr, ht, h.running], fun t hm => ?_, ht ▸ h.nodup, ht ▸ h.length_le⟩
    rw [hst]
    exact h.session t (ht ▸ hm)
  | connect hr ht | shutdown hst hr ht =>
    have hnil : s'.tasks = [] := ht.trans hg
    exact ⟨by rw [hr, hnil]; rfl, by simp [hnil], by simp [hnil], by simp [hnil]⟩
  | @assigned b _ hst hlt hb hr ht =>
    have hlen : s.current.running.length = s.tasks.length := by rw [h.running, List.length_map]
    have hkeys : s.current.running.map Prod.fst = s.tasks.map Task.buildId := by
      rw [h.running, List.map_map]
      rfl
    refine ⟨?_, fun t hm => ?_, ?_, ?_⟩
    · rw [hr, ht, h.running]
      rfl
    · rw [ht] at hm
      rw [hst]
      rcases List.mem_cons.mp hm with rfl | hm
      · rfl
      · exact h.session t hm
    · rw [ht, List.map_cons, List.nodup_cons]
      exact ⟨hkeys ▸ hb, h.nodup⟩
    · rw [ht, List.length_cons]
      omega
  | @finish t _ hm hst hr ht =>
    have herase := erase_eq_filter hm h.nodup
    refine ⟨?_, fun t' hm' => ?_, ?_, ?_⟩
    · rw [hr (h.session t hm), ht, herase, h.running, List.filter_map]
      rfl
    · rw [hst]
      exact h.session t' (List.mem_of_mem_erase (ht ▸ hm'))
    · rw [ht]
      exact h.nodup.sublist (List.erase_sublist.map _)
    · rw [ht]
      exact (List.length_erase_le).trans h.length_le

end Tracked

/-- The map finds the token of a task. -/
theorem lookup_entry {t : Task} : ∀ {tasks : List Task}, (tasks.map Task.buildId).Nodup → t ∈ tasks →
    (tasks.map Task.entry).lookup t.buildId = some t.token
  | t' :: tasks, hn, hm => by
    obtain ⟨hnot, hn⟩ := List.nodup_cons.mp hn
    rw [List.map_cons, Task.entry, List.lookup_cons]
    rcases List.mem_cons.mp hm with rfl | hm
    · rw [beq_self_eq_true]
    · have hne : t.buildId ≠ t'.buildId := fun he => hnot (he ▸ List.mem_map_of_mem hm)
      rw [beq_false_of_ne hne]
      exact lookup_entry hn hm

/-- **The jobs of an agent.** If no session begins and no shutdown comes while
a build is alive, the process has no more builds than jobs, and the map of the
current session finds the token of each: an abort cancels it. -/
theorem live_tasks_le_max_jobs {cfg : Config} {as : List Action} {s : State}
    (hal : Lts.Along (step cfg) NoneAlive {} as) (hrun : Lts.exec (step cfg) {} as = some s) :
    s.tasks.length ≤ cfg.maxJobs ∧ ∀ t ∈ s.tasks, s.current.running.lookup t.buildId = some t.token ∧
      ∀ s', step cfg s (.abort t.buildId) = some s' → t.token ∈ s'.cancelled := by
  have hinit : Tracked cfg {} := ⟨rfl, by simp, by simp, Nat.zero_le _⟩
  have hstep : ∀ s a s', Tracked cfg s → NoneAlive s a → step cfg s a = some s' → Tracked cfg s' :=
    fun _ _ _ h hg hs => h.step hg (effect_of_step hs)
  have h := Lts.exec_inv hstep hinit hal hrun
  refine ⟨h.length_le, fun t hm => ?_⟩
  have hlookup : s.current.running.lookup t.buildId = some t.token := h.running ▸ lookup_entry h.nodup hm
  refine ⟨hlookup, fun s' hs => ?_⟩
  unfold step at hs
  dsimp only at hs
  split_ifs at hs
  cases hs
  rw [hlookup]
  exact List.mem_append_left _ List.mem_cons_self

/-- Two sessions, the second begun after the build of the first. -/
theorem live_tasks_le_reconnecting : ∃ s ∈ Lts.exec (step { maxJobs := 1 }) {}
    [.connect, .assign 1, .disconnect, .finish ⟨1, 1, 0⟩, .connect, .assign 2],
    s.tasks = [⟨2, 2, 1⟩] ∧ s.tasks.length ≤ 1 ∧ s.current.running.lookup 2 = some 1 := by
  have hal : Lts.Along (step { maxJobs := 1 }) NoneAlive {}
      [.connect, .assign 1, .disconnect, .finish ⟨1, 1, 0⟩, .connect, .assign 2] := by decide
  have hrun : ∃ s ∈ Lts.exec (step { maxJobs := 1 }) {}
      [.connect, .assign 1, .disconnect, .finish ⟨1, 1, 0⟩, .connect, .assign 2], s.tasks = [⟨2, 2, 1⟩] := by decide
  obtain ⟨s, hs, ht⟩ := hrun
  obtain ⟨hlen, hlookup⟩ := live_tasks_le_max_jobs hal hs
  exact ⟨s, hs, ht, hlen, (hlookup ⟨2, 2, 1⟩ (by rw [ht]; exact List.mem_cons_self)).1⟩

/-- A build outlives its session: the next one takes a second build over the
limit, and cannot abort the first. After a shutdown the same happens in one
session. -/
theorem live_tasks_of_two_sessions :
    (∃ s ∈ Lts.exec (step { maxJobs := 1 }) {} [.connect, .assign 1, .disconnect, .connect, .assign 2],
      s.tasks.length = 2 ∧ ∃ t ∈ s.tasks, s.current.running.lookup t.buildId = none) ∧
    ∃ s ∈ Lts.exec (step { maxJobs := 1 }) {} [.connect, .assign 1, .shutdown, .assign 2],
      s.tasks.length = 2 ∧ ∃ t ∈ s.tasks, s.current.running.lookup t.buildId = none := by
  decide

end Circus.Agent
