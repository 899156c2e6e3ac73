/-
# Builds on agents

The queue runner (`Circus.Runner`) and the RPC server (`Circus.Rpc`) together. A
worker reserves a slot of an agent and claims its build; `run_on_agent` then
sends a `DispatchCommand` to the pump of the agent's connection and waits for
its answer. The command takes the slot guard along, and from then on the
dispatch is the server's: the pump takes it up, whether the connection is still
there or not, and it ends when the agent reports or is found to be gone.

The cancel checker cancels the worker's token, and the worker's future is
dropped with its end of the answer. The dispatch is not told, so the build stays
active for its agent and is uploaded as any other (`cancelled_uploaded`). The
row of a cancelled build keeps new dispatches away. So a cancelled build
publishes nothing more if no upload of it is under way when it is cancelled
(`Rpc.State.Quiet`) and the agents it is with wait with their upload calls for
the end of its dispatches.
-/
import Circus.Runner.Tasks
import Circus.Rpc.Quiet

namespace Circus.Remote

open Lts

/-! ### Workers and dispatches -/

/-- How far a worker is with an agent. -/
inductive Link
  /-- it holds a slot guard of the metadata of connection `k` -/
  | slot (k : ℕ)
  /-- its command is in the channel of the pump of `k` -/
  | sent (k : ℕ) (b : Uuid)
  /-- `dispatch_one` runs on `k` -/
  | underway (k : ℕ) (b : Uuid)
  /-- the answer is there -/
  | answered
  /-- the agent is gone -/
  | lost
  deriving DecidableEq

structure State where
  runner : Runner.State
  rpc : Rpc.State := {}
  /-- The links of the tasks; a task may be gone before its dispatch. -/
  links : AList fun _ : ℕ => Link := ∅

inductive Action
  /-- a second passes -/
  | tick
  | runner (a : Runner.Action)
  | rpc (a : Rpc.Action)
  /-- `reserve_venue` gives task `t` a slot of the agent of connection `k` -/
  | reserve (t k : ℕ)
  /-- `run_on_agent` sends the command of task `t` -/
  | send (t : ℕ)
  /-- the pump takes up the command of task `t` -/
  | receive (t : ℕ)
  /-- the dispatch of task `t` is over, by the agent's report or because it is gone -/
  | complete (t : ℕ) (reported : Bool)

/-- Steps of the server that a worker or a dispatch takes part in. -/
def shared : Rpc.Action → Bool
  | .tick | .acquire _ | .release _ | .dispatch _ _ | .finish _ _ => true
  | _ => false

namespace State

def link (s : State) (t : ℕ) : Option Link := s.links.lookup t

def setLink (s : State) (t : ℕ) (l : Link) : State := { s with links := s.links.insert t l }

/-- Task `t` waits for the answer to its command. -/
def waits (s : State) (t : ℕ) : Bool :=
  match s.link t with
  | some (.sent _ _) | some (.underway _ _) => true
  | _ => false

/-- What the worker can do while its build is with an agent. -/
def ready (s : State) (t : ℕ) : Runner.TaskEvent → Bool
  | .reserve (some .agent) => false
  | .agentLost => decide (s.link t = some .lost)
  | .report _ => (s.runner.task t).any fun task =>
      decide (task.venue ≠ some .agent ∨ s.link t = some .answered)
  | .error => !s.waits t
  | _ => true

/-- A slot guard that has not gone with a command is dropped with `run_build`. -/
def dropSlot (d : Rpc.Deployment) (s : State) (t : ℕ) : Option State :=
  match s.link t with
  | some (.slot k) =>
    if (s.runner.task t).any fun task => decide (task.phase = .returned) then
      (Rpc.step d s.rpc (.release k)).map fun rpc => { s with rpc := rpc, links := s.links.erase t }
    else some s
  | _ => some s

/-- The agent of connection `k` is in the pool and has a slot. -/
def hasSlot (s : State) (k : ℕ) : Bool :=
  (s.rpc.agents k).any fun a => decide (s.rpc.pool a.machineId = some k ∧ a.currentJobs < a.maxJobs)

end State

def step (cfg : Runner.Config) (d : Rpc.Deployment) (s : State) : Action → Option State
  | .tick => some { s with
      runner := { s.runner with now := s.runner.now + 1 }
      rpc := { s.rpc with now := s.rpc.now + 1 } }
  | .runner (.tick _) => none
  | .runner (.task t ev) =>
    if s.ready t ev then
      (Runner.step cfg s.runner (.task t ev)).bind fun r => { s with runner := r }.dropSlot d t
    else none
  | .runner a => (Runner.step cfg s.runner a).map fun r => { s with runner := r }
  | .rpc a => if shared a then none else (Rpc.step d s.rpc a).map fun rpc => { s with rpc := rpc }
  | .reserve t k =>
    if s.hasSlot k then
      (Runner.step cfg s.runner (.task t (.reserve (some .agent)))).bind fun r =>
        (Rpc.step d s.rpc (.acquire k)).map fun rpc => { s with runner := r, rpc := rpc }.setLink t (.slot k)
    else none
  | .send t =>
    match s.runner.task t, s.link t with
    | some task, some (.slot k) =>
      -- the guard keeps the metadata, so the channel is open
      if task.phase = .executing then some (s.setLink t (.sent k task.build.id)) else none
    | _, _ => none
  | .receive t =>
    match s.link t with
    | some (.sent k b) =>
      (Rpc.step d s.rpc (.dispatch k b)).map fun rpc => { s with rpc := rpc }.setLink t (.underway k b)
    | _ => none
  | .complete t reported =>
    match s.link t with
    | some (.underway k b) => (Rpc.step d s.rpc (.finish k b)).map fun rpc =>
        { s with rpc := rpc }.setLink t (if reported then .answered else .lost)
    | _ => none

/-- The runner and the server have just started. -/
def State.start (cfg : Runner.Config) (db : Db) : State := { runner := .start cfg db }

/-! ### What a step does -/

section Step

variable {cfg : Runner.Config} {d : Rpc.Deployment} {s s' : State} {a : Action} {b : Uuid}

theorem link_setLink (s : State) (t t' : ℕ) (l : Link) :
    (s.setLink t l).link t' = if t' = t then some l else s.link t' := by
  unfold State.link State.setLink
  split_ifs with h
  · rw [h, AList.lookup_insert]
  · rw [AList.lookup_insert_ne h]

theorem sent_of_setLink {t t' k : ℕ} {l : Link} (hl : ∀ k b, l ≠ .sent k b)
    (h : (s.setLink t l).link t' = some (.sent k b)) : s.link t' = some (.sent k b) := by
  rw [link_setLink] at h
  split_ifs at h
  · exact absurd (Option.some.inj h) (hl k b)
  · exact h

/-- The effect of a step on the runner, the server and the links. -/
inductive Effect (cfg : Runner.Config) (d : Rpc.Deployment) (s : State) : Action → State → Prop
  | tick (r : Runner.State) (rpc : Rpc.State) (hr : Runner.step cfg s.runner (.tick 1) = some r)
      (hrpc : Rpc.step d s.rpc .tick = some rpc) : Effect cfg d s .tick { s with runner := r, rpc := rpc }
  | runner (a : Runner.Action) (r : Runner.State) (hr : Runner.step cfg s.runner a = some r) :
      Effect cfg d s (.runner a) { s with runner := r }
  /-- a task ends that still has its slot guard -/
  | ended (t k : ℕ) (ev : Runner.TaskEvent) (r : Runner.State) (rpc : Rpc.State)
      (hr : Runner.step cfg s.runner (.task t ev) = some r) (hrpc : Rpc.step d s.rpc (.release k) = some rpc) :
      Effect cfg d s (.runner (.task t ev)) { s with runner := r, rpc := rpc, links := s.links.erase t }
  | rpc (a : Rpc.Action) (rpc : Rpc.State) (ha : shared a = false) (hrpc : Rpc.step d s.rpc a = some rpc) :
      Effect cfg d s (.rpc a) { s with rpc := rpc }
  | reserve (t k : ℕ) (r : Runner.State) (rpc : Rpc.State)
      (hr : Runner.step cfg s.runner (.task t (.reserve (some .agent))) = some r)
      (hrpc : Rpc.step d s.rpc (.acquire k) = some rpc) :
      Effect cfg d s (.reserve t k) ({ s with runner := r, rpc := rpc }.setLink t (.slot k))
  | send (t k : ℕ) (task : Runner.Task) (ht : s.runner.task t = some task) (hp : task.phase = .executing)
      (hl : s.link t = some (.slot k)) : Effect cfg d s (.send t) (s.setLink t (.sent k task.build.id))
  | receive (t k : ℕ) (b : Uuid) (rpc : Rpc.State) (hl : s.link t = some (.sent k b))
      (hrpc : Rpc.step d s.rpc (.dispatch k b) = some rpc) :
      Effect cfg d s (.receive t) ({ s with rpc := rpc }.setLink t (.underway k b))
  | complete (t k : ℕ) (b : Uuid) (reported : Bool) (rpc : Rpc.State) (hl : s.link t = some (.underway k b))
      (hrpc : Rpc.step d s.rpc (.finish k b) = some rpc) :
      Effect cfg d s (.complete t reported)
        ({ s with rpc := rpc }.setLink t (if reported then .answered else .lost))

theorem effect_task {t : ℕ} {ev : Runner.TaskEvent} {r : Runner.State}
    (hr : Runner.step cfg s.runner (.task t ev) = some r) (h : { s with runner := r }.dropSlot d t = some s') :
    Effect cfg d s (.runner (.task t ev)) s' := by
  unfold State.dropSlot at h
  split at h
  next k hl =>
    split_ifs at h
    · obtain ⟨rpc, hrpc, rfl⟩ := Option.map_eq_some_iff.mp h
      exact .ended t k ev r rpc hr hrpc
    · cases h
      exact .runner _ r hr
  next =>
    cases h
    exact .runner _ r hr

theorem effect_of_step (h : step cfg d s a = some s') : Effect cfg d s a s' := by
  cases a with
  | tick =>
    cases h
    exact .tick _ _ rfl rfl
  | runner a =>
    cases a with
    | tick => cases h
    | task =>
      simp only [step] at h
      split_ifs at h
      obtain ⟨r, hr, h⟩ := Option.bind_eq_some_iff.mp h
      exact effect_task hr h
    | loop | loopError | checker | checkerError | cancel | cancelSuperseded | restart | invalidate | cleanupExpired
    | drain =>
      simp only [step] at h
      obtain ⟨r, hr, rfl⟩ := Option.map_eq_some_iff.mp h
      exact .runner _ r hr
  | rpc a =>
    simp only [step] at h
    split_ifs at h with ha
    obtain ⟨rpc, hrpc, rfl⟩ := Option.map_eq_some_iff.mp h
    exact .rpc a rpc (Bool.eq_false_of_not_eq_true ha) hrpc
  | reserve t k =>
    simp only [step] at h
    split_ifs at h
    obtain ⟨r, hr, h⟩ := Option.bind_eq_some_iff.mp h
    obtain ⟨rpc, hrpc, rfl⟩ := Option.map_eq_some_iff.mp h
    exact .reserve t k r rpc hr hrpc
  | send t =>
    simp only [step] at h
    split at h
    next task k ht hl =>
      split_ifs at h with hp
      cases h
      exact .send t k task ht hp hl
    next => cases h
  | receive t =>
    simp only [step] at h
    split at h
    next k b hl =>
      obtain ⟨rpc, hrpc, rfl⟩ := Option.map_eq_some_iff.mp h
      exact .receive t k b rpc hl hrpc
    next => cases h
  | complete t reported =>
    simp only [step] at h
    split at h
    next k b hl =>
      obtain ⟨rpc, hrpc, rfl⟩ := Option.map_eq_some_iff.mp h
      exact .complete t k b reported rpc hl hrpc
    next => cases h

/-- The server takes a step of its own at most. -/
theorem rpc_of_effect (h : Effect cfg d s a s') : s'.rpc = s.rpc ∨ ∃ a', Rpc.step d s.rpc a' = some s'.rpc ∧
    (a = .rpc a' ∨ shared a' = true) ∧ ∀ k b, a' = .dispatch k b → ∃ t, s.link t = some (.sent k b) := by
  cases h with
  | runner | send => exact .inl rfl
  | tick _ _ _ hrpc | ended _ _ _ _ _ _ hrpc | reserve _ _ _ _ _ hrpc | complete _ _ _ _ _ _ hrpc =>
    exact .inr ⟨_, hrpc, .inr rfl, nofun⟩
  | rpc a _ ha hrpc =>
    refine .inr ⟨a, hrpc, .inl rfl, fun k b he => ?_⟩
    rw [he] at ha
    cases ha
  | receive t k b _ hl hrpc =>
    refine .inr ⟨_, hrpc, .inr rfl, fun k' b' he => ⟨t, ?_⟩⟩
    cases he
    exact hl

theorem runner_of_effect (h : Effect cfg d s a s') : s'.runner = s.runner ∨
    ∃ a', Runner.step cfg s.runner a' = some s'.runner ∧
      (a = .runner a' ∨ a' = .tick 1 ∨ ∃ t, a' = .task t (.reserve (some .agent))) := by
  cases h with
  | rpc | send | receive | complete => exact .inl rfl
  | tick _ _ hr => exact .inr ⟨_, hr, .inr (.inl rfl)⟩
  | runner a _ hr => exact .inr ⟨a, hr, .inl rfl⟩
  | ended _ _ _ _ _ hr => exact .inr ⟨_, hr, .inl rfl⟩
  | reserve t _ _ _ hr => exact .inr ⟨_, hr, .inr (.inr ⟨t, rfl⟩)⟩

/-- A command on its way has been, or is sent by a worker that executes its build. -/
theorem sent_of_effect (h : Effect cfg d s a s') {t k : ℕ} (hl : s'.link t = some (.sent k b)) :
    s.link t = some (.sent k b) ∨
      a = .send t ∧ ∃ task ∈ s.runner.task t, task.build.id = b ∧ task.phase = .executing := by
  cases h with
  | tick | runner | rpc => exact .inl hl
  | ended t₀ =>
    refine .inl ?_
    by_cases ht : t = t₀
    · rw [ht, State.link, AList.lookup_erase] at hl
      cases hl
    · rwa [State.link, AList.lookup_erase_ne ht] at hl
  | send t₀ _ task ht hp =>
    rw [link_setLink] at hl
    split_ifs at hl with he
    · obtain ⟨-, rfl⟩ := Link.sent.inj (Option.some.inj hl)
      exact .inr ⟨by rw [he], task, he ▸ ht, rfl, hp⟩
    · exact .inl hl
  | reserve _ _ r rpc =>
    exact .inl (sent_of_setLink (s := { s with runner := r, rpc := rpc }) (fun _ _ => Link.noConfusion) hl)
  | receive _ _ _ rpc =>
    exact .inl (sent_of_setLink (s := { s with rpc := rpc }) (fun _ _ => Link.noConfusion) hl)
  | complete _ _ _ reported rpc =>
    refine .inl (sent_of_setLink (s := { s with rpc := rpc }) (fun k b => ?_) hl)
    cases reported <;> nofun

/-- The server's sessions are those of a server. -/
theorem valid_of_exec {as : List Action} (h : exec (step cfg d) s as = some s') (hv : s.rpc.toSessions.Valid) :
    s'.rpc.toSessions.Valid := by
  have hstep : ∀ s a s', s.rpc.toSessions.Valid → True → step cfg d s a = some s' → s'.rpc.toSessions.Valid := by
    intro s a s' hv _ hs
    rcases rpc_of_effect (effect_of_step hs) with heq | ⟨a', hs, -⟩
    · exact heq ▸ hv
    · exact hv.step (Rpc.effect_of_step hs)
  exact exec_inv hstep hv (Along.of_mem fun _ _ _ => trivial) h

end Step

/-! ### Cancelled builds -/

/-- The build a step restarts. -/
def restarted : Action → Option Uuid
  | .runner (.restart id) => some id
  | _ => none

/-- The task whose worker goes on with a step. -/
def worker : Action → Option ℕ
  | .runner (.task _ .abort) => none
  | .runner (.task t _) | .send t => some t
  | _ => none

/-- The build that a call of an agent about an upload names. -/
def uploadOf : Action → Option Uuid
  | .rpc a => Rpc.uploadOf a
  | _ => none

theorem not_shared_of_upload {a : Rpc.Action} {b : Uuid} (h : Rpc.uploadOf a = some b) : shared a = false := by
  unfold Rpc.uploadOf at h
  split at h
  next => rfl
  next => rfl
  next => cases h

/-- The connections that the build is dispatched to, or to whose pump a command for it is on its way. -/
def State.dispatches (s : State) (b : Uuid) : List ℕ :=
  (s.rpc.flights.filterMap fun f => if f.2 = b then some f.1 else none) ++
    s.links.entries.filterMap fun e =>
      match e.2 with
      | .sent k b' => if b' = b then some k else none
      | _ => none

/-- The dispatches of the build to the connections `ks` are over. -/
def State.Ended (s : State) (b : Uuid) (ks : List ℕ) : Prop := ∀ k ∈ ks, (k, b) ∉ s.rpc.flights

instance (s : State) (b : Uuid) (ks : List ℕ) : Decidable (s.Ended b ks) :=
  inferInstanceAs (Decidable (∀ k ∈ ks, _))

/-- The build is not restarted, a worker that executes it with a cancelled token
does nothing but end, and upload calls about it wait for the end of its
dispatches to `ks`. -/
structure Stops (b : Uuid) (ks : List ℕ) (s : State) (a : Action) : Prop where
  restarted : restarted a ≠ some b
  worker : ∀ t ∈ worker a, ∀ task ∈ s.runner.task t, task.build.id = b → task.cancelled = true →
    task.phase ≠ .executing
  upload : uploadOf a = some b → s.Ended b ks

instance (b : Uuid) (ks : List ℕ) (s : State) (a : Action) : Decidable (Stops b ks s a) :=
  decidable_of_iff (_ ∧ (∀ t ∈ worker a, ∀ task ∈ s.runner.task t, _ → _ → _) ∧ (_ → _))
    ⟨fun h => ⟨h.1, h.2.1, h.2.2⟩, fun h => ⟨h.restarted, h.worker, h.upload⟩⟩

theorem mem_dispatches {s : State} {b : Uuid} {k : ℕ} :
    k ∈ s.dispatches b ↔ (k, b) ∈ s.rpc.flights ∨ ∃ t, s.link t = some (.sent k b) := by
  simp only [State.dispatches, List.mem_append, List.mem_filterMap]
  refine or_congr ⟨?_, fun h => ⟨(k, b), h, if_pos rfl⟩⟩ ⟨?_, ?_⟩
  · rintro ⟨⟨k', b'⟩, hf, he⟩
    split_ifs at he with hb
    cases he
    exact hb ▸ hf
  · rintro ⟨⟨t, l⟩, hl, he⟩
    split at he
    next k' b' hs =>
      split_ifs at he with hb
      cases he
      exact ⟨t, AList.mem_lookup_iff.mpr (by rw [← hb, ← hs]; exact hl)⟩
    next => cases he
  · rintro ⟨t, hl⟩
    exact ⟨⟨t, .sent k b⟩, AList.mem_lookup_iff.mp hl, if_pos rfl⟩

/-- Every worker that executes the build has a cancelled token. -/
def Tokens (b : Uuid) (s : Runner.State) : Prop :=
  ∀ t task, s.task t = some task → task.build.id = b → task.phase = .executing → task.cancelled = true

/-- No worker begins to execute a build that is over. -/
theorem Tokens.step {cfg : Runner.Config} {s s' : Runner.State} {a : Runner.Action} {b : Uuid} (h : Tokens b s)
    {st : BuildStatus} (hst : s.db.status b = some st) (hf : st.isFinished = true)
    (hs : Runner.step cfg s a = some s') : Tokens b s' := by
  intro t task' ht' hid hp
  have hc := Runner.step_task hs t
  rw [ht'] at hc
  generalize hx : some task' = x at hc
  cases hc with
  | same => exact h t task' hx.symm hid hp
  | remove => cases hx
  | spawn => cases hx; cases hp
  | cancel => cases hx; rfl
  | move task task'' ev ha ht hk hm =>
    cases hx
    rw [hk.id] at hid
    rcases (hp ▸ hm).to_executing with ⟨_, -, -, hpending, -⟩ | ⟨he, -⟩
    · rw [hid, hst] at hpending
      cases hpending
      cases hf
    · exact hk.cancelled.trans (h t task ht hid he)

/-- The build is over: its workers are to end, it is dispatched to no other
connection than `ks`, and no upload of it is under way. -/
structure Winding (b : Uuid) (ks : List ℕ) (s : State) : Prop where
  finished : ∃ st, s.runner.db.status b = some st ∧ st.isFinished = true
  tokens : Tokens b s.runner
  dispatches : s.dispatches b ⊆ ks
  quiet : s.rpc.Quiet b
  valid : s.rpc.toSessions.Valid

namespace Winding

variable {cfg : Runner.Config} {d : Rpc.Deployment} {s s' : State} {a : Action} {b : Uuid} {ks : List ℕ}

theorem not_flight (h : Winding b ks s) (he : s.Ended b ks) (k : ℕ) : (k, b) ∉ s.rpc.flights :=
  fun hf => he k (h.dispatches (mem_dispatches.mpr (.inl hf))) hf

theorem not_executing (h : Winding b ks s) (hw : Stops b ks s a) {t : ℕ} {task : Runner.Task}
    (ht : s.runner.task t = some task) (hid : task.build.id = b) (hp : task.phase = .executing) :
    worker a ≠ some t :=
  fun ha => hw.worker t ha task ht hid (h.tokens t task ht hid hp) hp

theorem step (h : Winding b ks s) (hw : Stops b ks s a) (he : Effect cfg d s a s') : Winding b ks s' where
  finished := by
    obtain ⟨st, hst, hf⟩ := h.finished
    rcases runner_of_effect he with heq | ⟨a', hs, ha⟩
    · exact ⟨st, heq ▸ hst, hf⟩
    · refine Runner.finished_of_step hs hst hf ?_ fun t task o ho ht hp hid => ?_
      · rintro rfl
        rcases ha with rfl | ha | ⟨t, ha⟩
        · exact hw.restarted rfl
        · cases ha
        · cases ha
      · rcases ha with rfl | ha | ⟨t, ha⟩
        · rw [ho] at hw
          exact h.not_executing hw ht hid hp rfl
        · rw [ha] at ho
          cases ho
        · rw [ha] at ho
          cases ho
  tokens := by
    obtain ⟨st, hst, hf⟩ := h.finished
    rcases runner_of_effect he with heq | ⟨a', hs, -⟩
    · exact heq ▸ h.tokens
    · exact h.tokens.step hst hf hs
  dispatches k hk := by
    rcases mem_dispatches.mp hk with hf | ⟨t, hl⟩
    · rcases rpc_of_effect he with heq | ⟨a', hs, -, ha⟩
      · exact h.dispatches (mem_dispatches.mpr (.inl (heq ▸ hf)))
      · rcases Rpc.flights_of_effect (Rpc.effect_of_step hs) hf with hf | hd
        · exact h.dispatches (mem_dispatches.mpr (.inl hf))
        · exact h.dispatches (mem_dispatches.mpr (.inr (ha k b hd)))
    · rcases sent_of_effect he hl with hl | ⟨rfl, task, ht, hid, hp⟩
      · exact h.dispatches (mem_dispatches.mpr (.inr ⟨t, hl⟩))
      · exact absurd rfl (h.not_executing hw ht hid hp)
  quiet := by
    rcases rpc_of_effect he with heq | ⟨a', hs, ha, -⟩
    · exact heq ▸ h.quiet
    · refine h.quiet.step h.valid (fun hb => h.not_flight (hw.upload ?_)) (Rpc.effect_of_step hs)
      rcases ha with rfl | ha
      · exact hb
      · rw [not_shared_of_upload hb] at ha
        cases ha
  valid := by
    rcases rpc_of_effect he with heq | ⟨a', hs, -⟩
    · exact heq ▸ h.valid
    · exact h.valid.step (Rpc.effect_of_step hs)

end Winding

/-- **A cancelled build publishes nothing more.** Let build `b` be cancelled, in
its row and in the tokens of the workers that execute it, while no upload of it
is under way; it may be with agents. As long as it is not restarted, its workers
do nothing but end and upload calls about it wait for the end of the dispatches
it has now, no narinfo is written for it; and once these dispatches are over,
both upload calls are refused for good. -/
theorem cancelled_publishes_nothing {cfg : Runner.Config} {d : Rpc.Deployment} {db : Db} {s₁ s : State}
    {as₁ as : List Action} {b : Uuid} (h₁ : exec (step cfg d) (.start cfg db) as₁ = some s₁)
    (hb : s₁.runner.db.status b = some .cancelled) (ht : Tokens b s₁.runner) (hq : s₁.rpc.Quiet b)
    (hal : Along (step cfg d) (Stops b (s₁.dispatches b)) s₁ as)
    (h : exec (step cfg d) s₁ as = some s) :
    (s.Ended b (s₁.dispatches b) →
      (∀ k m requests, ∃ e, Rpc.requestPresignedUrls d.toServerConfig s.rpc k m b requests = .error e) ∧
      ∀ k m info, ∃ e, Rpc.notifyUploadComplete d.toServerConfig s.rpc k m b info = .error e) ∧
    ∀ a m row, Rpc.written d s.rpc a ≠ some (m, b, row) := by
  have hw₁ : Winding b (s₁.dispatches b) s₁ :=
    ⟨⟨_, hb, rfl⟩, ht, List.Subset.refl _, hq, valid_of_exec h₁ .init⟩
  have hstep : ∀ s a s', Winding b (s₁.dispatches b) s → Stops b (s₁.dispatches b) s a → step cfg d s a = some s' →
      Winding b (s₁.dispatches b) s' :=
    fun _ _ _ h hw hs => h.step hw (effect_of_step hs)
  have hs : Winding b (s₁.dispatches b) s := exec_inv hstep hw₁ hal h
  refine ⟨fun he => ⟨?_, ?_⟩, hs.quiet.written_ne⟩
  · exact hs.quiet.request_refused hs.valid (hs.not_flight he)
  · exact hs.quiet.notify_refused hs.valid (hs.not_flight he)

/-- One pending build for x86_64-linux. -/
def agentBuild : Db :=
  .ofRows [{ id := 1 }] [{ id := 1, jobsetId := 1 }]
    [{ id := 5, evaluationId := 1, drvPath := "/nix/store/d.drv", system := some "x86_64-linux" }] [] [] (by decide)

/-- Machine 7 registers and is given build 5, by task 0. -/
def handedOver : List Action := .flatten [(Rpc.connectAs 0 7).map .rpc, (Runner.loops 12).map .runner,
  [.runner (.task 0 (.features none true)), .reserve 0 0, .runner (.task 0 (.claim true)), .send 0, .receive 0]]

/-- The build is cancelled, and the checker cancels the token of its task. -/
def cancels : List Action := [.runner (.cancel 5), .runner .checker, .runner .checker, .runner .checker]

/-- The worker's future is dropped. -/
def aborts : List Action := [.runner (.task 0 .abort), .runner (.task 0 .remove)]

/-- The build is cancelled as it should be: its status and the token of its task. -/
def State.Cancelled (s : State) : Prop :=
  s.runner.db.status 5 = some .cancelled ∧ ∀ task ∈ s.runner.task 0, task.cancelled = true

instance (s : State) : Decidable s.Cancelled :=
  inferInstanceAs (Decidable (_ ∧ ∀ task ∈ s.runner.task 0, task.cancelled = true))

/-- The agent uploads the output of build 5. -/
def uploads : List Action := [
  .rpc (.requestPresignedUrls 0 7 5 [Rpc.emptyOutput]),
  .rpc (.resume (.presigning 0 7 5 [Rpc.emptyOutput]) .outputsRead),
  .rpc (.put Rpc.emptyNarInfo.url Rpc.emptyObject),
  .rpc (.notifyUploadComplete 0 7 5 Rpc.emptyNarInfo),
  .rpc (.resume (.verifying 0 7 5 Rpc.emptyNarInfo) (.readBack [] 1))]

/-- Build 5 is cancelled while its agent executes it; the agent reports first and
asks for its URLs then. -/
theorem cancelled_publishes_nothing_reported :
    ∃ s₁ ∈ exec (step {} Rpc.smallDeployment) (.start {} agentBuild) (handedOver ++ cancels),
      s₁.Cancelled ∧ (0, 5) ∈ s₁.rpc.flights ∧
      ∃ s ∈ exec (step {} Rpc.smallDeployment) s₁
          (aborts ++ [.complete 0 true, .rpc (.requestPresignedUrls 0 7 5 [Rpc.emptyOutput])]),
        s.runner.task 0 = none ∧
        (∃ e, Rpc.requestPresignedUrls Rpc.smallDeployment.toServerConfig s.rpc 0 7 5 [Rpc.emptyOutput] = .error e) ∧
        ∀ a m row, Rpc.written Rpc.smallDeployment s.rpc a ≠ some (m, 5, row) := by
  obtain ⟨s₁, hs₁, hup, hc, hf, hcalls, htasks, s, hs, hal, hended, ht⟩ :
      ∃ s₁ ∈ exec (step {} Rpc.smallDeployment) (.start {} agentBuild) (handedOver ++ cancels),
        (∀ key, s₁.rpc.uploads key = none) ∧ s₁.Cancelled ∧ (0, 5) ∈ s₁.rpc.flights ∧ s₁.rpc.calls = [] ∧
        s₁.runner.tasks.keys = [0] ∧
        ∃ s ∈ exec (step {} Rpc.smallDeployment) s₁
            (aborts ++ [.complete 0 true, .rpc (.requestPresignedUrls 0 7 5 [Rpc.emptyOutput])]),
          Along (step {} Rpc.smallDeployment) (Stops 5 (s₁.dispatches 5)) s₁
            (aborts ++ [.complete 0 true, .rpc (.requestPresignedUrls 0 7 5 [Rpc.emptyOutput])]) ∧
          s.Ended 5 (s₁.dispatches 5) ∧ s.runner.task 0 = none :=
    ⟨_, rfl, fun _ => rfl, by decide +kernel⟩
  have hq : s₁.rpc.Quiet 5 := by
    refine ⟨fun hu => ?_, fun hc => ?_⟩
    · rw [hup] at hu
      cases hu
    · rw [hcalls] at hc
      cases hc
  have htok : Tokens 5 s₁.runner := by
    intro t task ht _ _
    have hk : t ∈ s₁.runner.tasks.keys := AList.mem_keys.mp (AList.lookup_isSome.mp (Option.isSome_of_eq_some ht))
    rw [htasks, List.mem_singleton] at hk
    exact hc.2 task (hk ▸ ht)
  obtain ⟨hrefused, hwritten⟩ := cancelled_publishes_nothing hs₁ hc.1 htok hq hal hs
  exact ⟨s₁, hs₁, hc, hf, s, hs, ht, (hrefused hended).1 0 7 _, hwritten⟩

/-- Build 5 is cancelled while its agent executes it. The worker ends, and the
agent gets its URLs, completes its upload and has the narinfo written. -/
theorem cancelled_uploaded :
    ∃ s₁ ∈ exec (step {} Rpc.smallDeployment) (.start {} agentBuild) (handedOver ++ cancels), s₁.Cancelled ∧
    ∃ s₂ ∈ exec (step {} Rpc.smallDeployment) s₁ aborts, s₂.runner.task 0 = none ∧
      (Rpc.requestPresignedUrls Rpc.smallDeployment.toServerConfig s₂.rpc 0 7 5 [Rpc.emptyOutput]).isOk = true ∧
    ∃ s₃ ∈ exec (step {} Rpc.smallDeployment) s₂ uploads, s₃.runner.db.status 5 = some .cancelled ∧
    ∃ row ∈ Rpc.written Rpc.smallDeployment s₃.rpc
      (.resume (.persisting 0 7 5 Rpc.emptyNarInfo Rpc.emptyUploaded) (.stored true)), row.2.1 = 5 := by
  decide +kernel

end Circus.Remote
