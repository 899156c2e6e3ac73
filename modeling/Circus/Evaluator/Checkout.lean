/-
# Working directories

Every evaluation of a project is checked out in one directory,
`work_dir/<project name>`, and tasks do not exclude each other there. Here the
evaluator gets its directories: a git operation (`fetch_and_checkout_commit`,
`clone_or_fetch`) runs on a blocking thread that writes the files of its
commit path by path, and goes on when the task that waits for it has timed out.
What `evaluate_legacy` reads is what the directory has while its task is in
the Nix run.

`reads_own_commit`: if a git operation begins in a directory only when no
other is under way there and no evaluation that is read from it is before its
end, every evaluation reads the tree of its own commit. Nothing in the
evaluator sees to that: two pending evaluations of one project are drained
at once (`reads_other_commit`).

A checkout writes the paths at which the directory differs from the commit
when it begins. What `clone` checks out before that is left out, since nobody
has the directory before.
-/
import Circus.Evaluator.Streams

namespace Circus.Evaluator

/-! ### The evaluations that are checked out -/

/-- The call of `evaluate_pending_eval`, which checks a given commit out. -/
def Flow.pending : Flow → Bool
  | drain | refs _ _ => true
  | single => false

/-- The evaluation that `evaluate_pending_eval` is at, from its claim to the end
of its Nix run. -/
def Phase.prepares : Phase → Option Uuid
  | claimed _ e => some e.id
  | hashing flow e => if flow.pending then some e.id else none
  | evaluating flow id => if flow.pending then some id else none
  | _ => none

/-- The checkout has returned. -/
def Phase.checkedOut : Phase → Bool
  | hashing _ _ | evaluating _ _ => true
  | _ => false

variable {id : Uuid}

theorem Phase.prepares_hashing {flow : Flow} {e : EvaluationRow}
    (h : (Phase.hashing flow e).prepares = some id) : (Phase.claimed flow e).prepares = some id := by
  by_cases hf : flow.pending = true
  · rwa [Phase.prepares, if_pos hf] at h
  · rw [Phase.prepares, if_neg hf] at h
    cases h

theorem Phase.onError_prepares {p : Phase} {message : String} (h : (p.onError message).prepares = some id) :
    p.prepares = some id ∧ p.checkedOut = true := by
  unfold Phase.onError at h
  split at h <;> first | exact ⟨h, rfl⟩ | cases h

variable {event : TaskEvent}

/-- A task comes to an evaluation by claiming it, and goes on from its checkout
by its own statements. -/
theorem Phase.prepares_of_leads {cfg : Config} {p p' : Phase} {m : Move}
    (hm : p.move cfg event = some m) (hl : m.Leads p') (h : p'.prepares = some id) :
    p.prepares = some id ∧ (p.checkedOut = true ∨ event = .next) ∨
      p.prepares = none ∧ (∀ jobset commit, p ≠ .fetched jobset commit) ∧ ∃ flow e, p' = .claimed flow e := by
  unfold Phase.move at hm
  split at hm <;> try first | cases hm | (split at hm <;> cases hm) | (split_ifs at hm <;> cases hm)
  all_goals try obtain ⟨x, rfl⟩ := hl
  all_goals try dsimp only at h
  all_goals try (repeat' split at h)
  all_goals first
    | exact .inl ⟨h, .inr rfl⟩
    | exact .inl ⟨Phase.prepares_hashing h, .inr rfl⟩
    | exact .inl ⟨(Phase.onError_prepares h).1, .inl (Phase.onError_prepares h).2⟩
    | exact .inr ⟨rfl, by simp, _, _, rfl⟩
    | (unfold Flow.next at h; split at h <;> cases h)
    | cases h

namespace Checkout

/-! ### The system -/

structure Config where
  evaluator : Evaluator.Config
  /-- What a commit has at a path. -/
  trees : String → String → Option String
  /-- The paths of all commits. -/
  paths : List String
  tracked : ∀ commit path, path ∉ paths → trees commit path = none
  /-- `flake_mode` of a jobset. -/
  flakeMode : Uuid → Bool

/-- A git operation on a thread of its own. -/
structure Op where
  projectId : Uuid
  commit : String
  /-- The paths it still has to write. -/
  todo : List String
  deriving DecidableEq

structure State where
  base : Evaluator.State
  /-- The working directories of the projects. -/
  files : Uuid → String → Option String := fun _ _ => none
  ops : List Op := []
  /-- The operation a task waits for or has waited for. -/
  threads : AList fun _ : ℕ => ℕ := ∅

namespace State

def op (s : State) (t : ℕ) : Option Op := (s.threads.lookup t).bind fun k => s.ops[k]?

/-- The operation of the task has returned. -/
def done (s : State) (t : ℕ) : Bool := (s.op t).any fun o => o.todo.isEmpty

/-- The task has to wait for its operation. -/
def awaits (s : State) : Evaluator.Action → Bool
  | .task t .next =>
    match s.base.phase t with
    | .claimed _ _ | .fetched _ _ => !s.done t
    | _ => false
  | _ => false

/-- The thread for a checkout of `commit`. -/
def begin (cfg : Config) (s : State) (projectId : Uuid) (commit : String) : State :=
  { s with ops := s.ops ++ [{
      projectId := projectId
      commit := commit
      todo := cfg.paths.filter fun path => decide (s.files projectId path ≠ cfg.trees commit path) }] }

/-- Task `t` waits for the operation that has just begun. -/
def await (s : State) (t : ℕ) : State := { s with threads := s.threads.insert t (s.ops.length - 1) }

/-- What goes with a step of the evaluator: `clone_or_fetch` checks out what it
resolves, and a task that is through with its evaluation forgets its thread. -/
def after (cfg : Config) (s : State) : Evaluator.Action → State
  | .task t _ =>
    match s.base.phase t with
    | .fetched jobset commit => (s.begin cfg jobset.projectId commit).await t
    | p => if p.prepares.isSome then s else { s with threads := s.threads.erase t }
  | _ => s

end State

inductive Action
  | base (a : Evaluator.Action)
  /-- `fetch_and_checkout_commit` is called. -/
  | checkout (t : ℕ)
  /-- Thread `k` writes its next path. -/
  | write (k : ℕ)
  /-- `discover_projects_without_jobsets` calls `clone_or_fetch`. -/
  | discover (projectId : Uuid) (commit : String)

def step (cfg : Config) (s : State) : Action → Option State
  | .base a =>
    if s.awaits a then none
    else (Evaluator.step cfg.evaluator s.base a).map fun b => ({ s with base := b } : State).after cfg a
  | .checkout t =>
    match s.base.phase t, s.threads.lookup t with
    | .claimed _ e, none => (s.base.db.jobsets.get e.jobsetId).map fun jobset =>
        (s.begin cfg jobset.projectId e.commitHash).await t
    | _, _ => none
  | .write k => s.ops[k]?.bind fun o =>
    match o.todo with
    | [] => none
    | path :: todo => some { s with
        files := Function.update s.files o.projectId
          (Function.update (s.files o.projectId) path (cfg.trees o.commit path))
        ops := s.ops.set k { o with todo := todo } }
  | .discover projectId commit => some (s.begin cfg projectId commit)

abbrev exec (cfg : Config) := Lts.exec (step cfg)

abbrev Along (cfg : Config) := Lts.Along (step cfg)

/-! ### The condition -/

namespace State

/-- The evaluation is of a jobset that is not a flake: `evaluate_legacy` reads
it from the directory. -/
def legacy (cfg : Config) (s : State) (id : Uuid) : Bool :=
  (s.base.db.evaluations.get id).any fun e => !cfg.flakeMode e.jobsetId

/-- The task reads, or is about to read, from the directory. -/
def reads (cfg : Config) (s : State) (t : ℕ) : Bool := (s.base.phase t).prepares.any (s.legacy cfg)

/-- No git operation is under way in the directory, and nobody reads from it. -/
def Free (cfg : Config) (s : State) (projectId : Uuid) : Prop :=
  (∀ o ∈ s.ops, o.projectId = projectId → o.todo = []) ∧
    ∀ x ∈ s.threads.entries, s.reads cfg x.1 = true → ∀ o ∈ s.op x.1, o.projectId ≠ projectId

instance (cfg : Config) (s : State) (projectId : Uuid) : Decidable (s.Free cfg projectId) :=
  inferInstanceAs (Decidable (_ ∧ _))

end State

/-- The directory in which the action begins a git operation. -/
def begins (s : State) : Action → Option Uuid
  | .base (.task t .next) =>
    match s.base.phase t with
    | .fetching jobset => if jobset.branchPattern.isSome ∨ jobset.tagPattern.isSome then none else some jobset.projectId
    | _ => none
  | .base _ => none
  | .checkout t =>
    match s.base.phase t with
    | .claimed _ e => (s.base.db.jobsets.get e.jobsetId).map (·.projectId)
    | _ => none
  | .write _ => none
  | .discover projectId _ => some projectId

/-- Git operations begin in free directories only. -/
def Isolated (cfg : Config) (s : State) (a : Action) : Prop := ∀ p ∈ begins s a, s.Free cfg p

instance (cfg : Config) (s : State) (a : Action) : Decidable (Isolated cfg s a) :=
  inferInstanceAs (Decidable (∀ p ∈ begins s a, s.Free cfg p))

/-! ### Directories under exclusive use -/

section Dirs

variable {cfg : Config} {files : Uuid → String → Option String} {ops : List Op} {held held' : ℕ → Prop}

variable (cfg) in
/-- The operations that are under way or `held` are alone in their directories,
and what they do not have to write any more is there. -/
structure Dirs (files : Uuid → String → Option String) (ops : List Op) (held : ℕ → Prop) : Prop where
  clean : ∀ p path, path ∉ cfg.paths → files p path = none
  written : ∀ k o, ops[k]? = some o → o.todo ≠ [] ∨ held k → ∀ path, path ∉ o.todo →
    files o.projectId path = cfg.trees o.commit path
  alone : ∀ k o k' o', ops[k]? = some o → ops[k']? = some o' → o.todo ≠ [] ∨ held k → o'.todo ≠ [] ∨ held k' →
    o.projectId = o'.projectId → k = k'

namespace Dirs

theorem mono (h : Dirs cfg files ops held) (hh : ∀ k, held' k → held k) : Dirs cfg files ops held' where
  clean := h.clean
  written k o hk hc := h.written k o hk (hc.imp_right (hh k))
  alone k o k' o' hk hk' hc hc' := h.alone k o k' o' hk hk' (hc.imp_right (hh k)) (hc'.imp_right (hh k'))

/-- An operation begins in a free directory. -/
theorem begin (h : Dirs cfg files ops held) {p : Uuid} (commit : String)
    (hfree : ∀ k o, ops[k]? = some o → o.projectId = p → o.todo = [] ∧ ¬ held k) :
    Dirs cfg files (ops ++ [⟨p, commit, cfg.paths.filter fun path => decide (files p path ≠ cfg.trees commit path)⟩])
      fun k => held k ∨ k = ops.length := by
  have hold : ∀ k o, ops[k]? = some o → o.todo ≠ [] ∨ held k ∨ k = ops.length → o.todo ≠ [] ∨ held k :=
    fun k o hk hc => by
      have := (List.getElem?_eq_some_iff.mp hk).1
      rcases hc with hc | hc | hc
      · exact .inl hc
      · exact .inr hc
      · omega
  have hnew : ∀ k o, ops[k]? = some o → o.todo ≠ [] ∨ held k ∨ k = ops.length → o.projectId ≠ p :=
    fun k o hk hc hp => by
      obtain ⟨htodo, hheld⟩ := hfree k o hk hp
      exact (hold k o hk hc).elim (fun h => h htodo) hheld
  have hcases : ∀ k o, (ops ++ [⟨p, commit, cfg.paths.filter fun path =>
      decide (files p path ≠ cfg.trees commit path)⟩])[k]? = some o → ops[k]? = some o ∨ k = ops.length ∧ o =
        ⟨p, commit, cfg.paths.filter fun path => decide (files p path ≠ cfg.trees commit path)⟩ := fun k o hk => by
    by_cases hlt : k < ops.length
    · rw [List.getElem?_append_left hlt] at hk
      exact .inl hk
    · rw [List.getElem?_append_right (not_lt.mp hlt), List.getElem?_singleton] at hk
      split_ifs at hk with hzero
      exact .inr ⟨by omega, (Option.some.inj hk).symm⟩
  refine ⟨h.clean, fun k o hk hc path hpath => ?_, fun k o k' o' hk hk' hc hc' hp => ?_⟩
  · rcases hcases k o hk with hk | ⟨-, rfl⟩
    · exact h.written k o hk (hold k o hk hc) path hpath
    · by_contra hne
      by_cases hm : path ∈ cfg.paths
      · exact hpath (List.mem_filter.mpr ⟨hm, by simpa using hne⟩)
      · exact hne ((h.clean p path hm).trans (cfg.tracked commit path hm).symm)
  · rcases hcases k o hk with hk | ⟨rfl, rfl⟩ <;> rcases hcases k' o' hk' with hk' | ⟨rfl, rfl⟩
    · exact h.alone k o k' o' hk hk' (hold k o hk hc) (hold k' o' hk' hc') hp
    · exact absurd hp (hnew k o hk hc)
    · exact absurd hp.symm (hnew k' o' hk' hc')
    · rfl

/-- A thread writes a path. -/
theorem write (h : Dirs cfg files ops held) {k : ℕ} {o : Op} {path : String} {todo : List String}
    (hk : ops[k]? = some o) (ho : o.todo = path :: todo) :
    Dirs cfg
      (Function.update files o.projectId (Function.update (files o.projectId) path (cfg.trees o.commit path)))
      (ops.set k { o with todo := todo }) held := by
  have hbusy : o.todo ≠ [] ∨ held k := .inl (by rw [ho]; exact List.cons_ne_nil _ _)
  have hlt := (List.getElem?_eq_some_iff.mp hk).1
  -- what is current after the write was so before
  have hold : ∀ k' o', (ops.set k { o with todo := todo })[k']? = some o' → o'.todo ≠ [] ∨ held k' →
      ∃ o₀, ops[k']? = some o₀ ∧ (o₀.todo ≠ [] ∨ held k') ∧ o₀.projectId = o'.projectId ∧
        (k' = k ∧ o' = { o with todo := todo } ∨ k' ≠ k ∧ o' = o₀) := fun k' o' hk' hc => by
    by_cases he : k' = k
    · subst he
      rw [List.getElem?_set_self hlt] at hk'
      cases hk'
      exact ⟨o, hk, hbusy, rfl, .inl ⟨rfl, rfl⟩⟩
    · rw [List.getElem?_set_ne (Ne.symm he)] at hk'
      exact ⟨o', hk', hc, rfl, .inr ⟨he, rfl⟩⟩
  refine ⟨fun p q hq => ?_, fun k' o' hk' hc q hq => ?_, fun k₁ o₁ k₂ o₂ hk₁ hk₂ hc₁ hc₂ hp => ?_⟩
  · by_cases hp : p = o.projectId
    · subst hp
      rw [Function.update_self]
      by_cases hpath : q = path
      · subst hpath
        rw [Function.update_self, cfg.tracked o.commit q hq]
      · rw [Function.update_of_ne hpath, h.clean _ q hq]
    · rw [Function.update_of_ne hp, h.clean p q hq]
  · obtain ⟨o₀, hk₀, hc₀, hp₀, ⟨rfl, rfl⟩ | ⟨hne, rfl⟩⟩ := hold k' o' hk' hc
    · show Function.update files o.projectId _ o.projectId q = _
      rw [Function.update_self]
      by_cases hpath : q = path
      · rw [hpath, Function.update_self]
      · rw [Function.update_of_ne hpath]
        exact h.written k' o hk hbusy q (by rw [ho]; simpa [hpath] using hq)
    · have hpne : o'.projectId ≠ o.projectId := fun hp => hne (h.alone k' o' k o hk₀ hk hc₀ hbusy hp)
      rw [Function.update_of_ne hpne]
      exact h.written k' o' hk₀ hc₀ q hq
  · obtain ⟨o₃, hk₃, hc₃, hp₃, -⟩ := hold k₁ o₁ hk₁ hc₁
    obtain ⟨o₄, hk₄, hc₄, hp₄, -⟩ := hold k₂ o₂ hk₂ hc₂
    exact h.alone k₁ o₃ k₂ o₄ hk₃ hk₄ hc₃ hc₄ (hp₃.trans (hp.trans hp₄.symm))

end Dirs

end Dirs

/-! ### Steps of the evaluator -/

section Base

variable {cfg : Evaluator.Config} {s s' : Evaluator.State} {a : Evaluator.Action}

/-- `clone_or_fetch` is called for a jobset without patterns. -/
theorem fetched_of_leads {p : Phase} {m : Move} {jobset : JobsetRow} {commit : String}
    (hm : p.move cfg event = some m) (hl : m.Leads (.fetched jobset commit)) :
    event = .next ∧ p = .fetching jobset ∧ ¬ (jobset.branchPattern.isSome ∨ jobset.tagPattern.isSome) := by
  have hnext : ∀ flow : Flow, Phase.fetched jobset commit ≠ flow.next := fun flow => by cases flow <;> simp [Flow.next]
  have herror : ∀ (p : Phase) message, Phase.fetched jobset commit ≠ p.onError message := fun p message => by
    unfold Phase.onError
    split <;> simp
  unfold Phase.move at hm
  split at hm <;> try first | cases hm | (split at hm <;> cases hm) | (split_ifs at hm <;> cases hm)
  all_goals try obtain ⟨x, hl⟩ := hl
  all_goals try dsimp only at hl
  all_goals try (repeat' split at hl)
  all_goals first
    | exact absurd hl (hnext _)
    | exact absurd hl (herror _ _)
    | cases hl
  all_goals exact ⟨rfl, rfl, ‹_›⟩

theorem fetched_of_step (h : Evaluator.step cfg s a = some s') {t : ℕ} {jobset : JobsetRow}
    {commit : String} (ha : a = .task t event) (hp : s'.phase t = .fetched jobset commit) :
    a = .task t .next ∧ s.phase t = .fetching jobset ∧
      ¬ (jobset.branchPattern.isSome ∨ jobset.tagPattern.isSome) := by
  cases phase_of_step h t with
  | moved event' m ha' hm hperf =>
    obtain ⟨rfl, hfetching⟩ := fetched_of_leads hm (hp ▸ hperf.leads)
    exact ⟨ha', hfetching⟩
  | kept hk hne => exact absurd ha (hne event)
  | delivered k d ha' | polled jobset ha' | drained id ha' => cases ha'.symm.trans ha

theorem prepares_of_step (h : Evaluator.step cfg s a = some s') {t : ℕ} (hp : (s'.phase t).prepares = some id) :
    (s.phase t).prepares = some id ∧
      (s'.phase t = s.phase t ∨ (s.phase t).checkedOut = true ∨ a = .task t .next) ∨
    (s.phase t).prepares = none ∧ (∀ jobset commit, s.phase t ≠ .fetched jobset commit) ∧
      ∃ flow e, s'.phase t = .claimed flow e := by
  cases phase_of_step h t with
  | kept hk => exact .inl ⟨hk ▸ hp, .inl hk⟩
  | moved event m ha hm hperf =>
    rcases Phase.prepares_of_leads hm hperf.leads hp with ⟨hp, hc | rfl⟩ | h
    · exact .inl ⟨hp, .inr (.inl hc)⟩
    · exact .inl ⟨hp, .inr (.inr ha)⟩
    · exact .inr h
  | delivered k d ha hd hs hp' | polled jobset ha hj hs hp' =>
    rw [hp'] at hp
    cases hp
  | drained id ha hs hp' =>
    rcases hp' with hp' | hp'
    · rw [hp'] at hp
      cases hp
    · rw [hp'] at hp
      cases hp

/-- A task that is not idle stays where it is, or takes a step. -/
theorem kept_or_moves (h : Evaluator.step cfg s a = some s') {t : ℕ} (hidle : s.phase t ≠ .idle) :
    s'.phase t = s.phase t ∧ (∀ event, a ≠ .task t event) ∨ ∃ event, a = .task t event := by
  cases phase_of_step h t with
  | kept hk ha => exact .inl ⟨hk, ha⟩
  | moved event m ha => exact .inr ⟨event, ha⟩
  | delivered k d ha hd hs | polled jobset ha hj hs | drained id ha hs => exact absurd hs hidle

end Base

/-- What goes with a step of the evaluator. -/
inductive After (cfg : Config) (s : State) (b : Evaluator.State) (a : Evaluator.Action) : State → Prop
  | kept (h : ∀ t event, a = .task t event → (b.phase t).prepares.isSome) : After cfg s b a { s with base := b }
  | forgot (t : ℕ) (event : TaskEvent) (ha : a = .task t event) (hp : (b.phase t).prepares = none) :
      After cfg s b a { s with base := b, threads := s.threads.erase t }
  | fetched (t : ℕ) (event : TaskEvent) (jobset : JobsetRow) (commit : String) (ha : a = .task t event)
      (hp : b.phase t = .fetched jobset commit) :
      After cfg s b a ((({ s with base := b } : State).begin cfg jobset.projectId commit).await t)

theorem after_of_step {cfg : Config} {s s' : State} {a : Evaluator.Action} (h : step cfg s (.base a) = some s') :
    s.awaits a = false ∧ ∃ b, Evaluator.step cfg.evaluator s.base a = some b ∧ After cfg s b a s' := by
  simp only [step] at h
  split_ifs at h with hw
  obtain ⟨b, hb, rfl⟩ := Option.map_eq_some_iff.mp h
  refine ⟨by simpa using hw, b, hb, ?_⟩
  cases a with
  | task t event =>
    simp only [State.after]
    split
    next jobset commit hp => exact .fetched t event jobset commit rfl hp
    next =>
      split_ifs with hp
      · exact .kept fun t' event' he => by
          injection he with h1
          exact h1 ▸ hp
      · exact .forgot t event rfl (Option.not_isSome_iff_eq_none.mp hp)
  | _ => exact .kept fun t event he => by cases he

/-! ### Threads and their tasks -/

/-- The tasks that have a thread are at a checkout or past one, of the commit of
their evaluation. -/
structure ThreadInv (s : State) : Prop where
  copies : CopiesOfRows s.base
  bound : ∀ t k, s.threads.lookup t = some k → k < s.ops.length
  used : ∀ t k, s.threads.lookup t = some k →
    (∃ jobset commit, s.base.phase t = .fetched jobset commit) ∨ (s.base.phase t).prepares.isSome
  commit : ∀ t o id, s.op t = some o → (s.base.phase t).prepares = some id →
    ∃ row, s.base.db.evaluations.get id = some row ∧ row.commitHash = o.commit
  finished : ∀ t id, (s.base.phase t).prepares = some id → (s.base.phase t).checkedOut = true → s.done t = true

/-- A thread that a reading task waits for. -/
def State.Held (cfg : Config) (s : State) (k : ℕ) : Prop :=
  ∃ t, s.threads.lookup t = some k ∧ s.reads cfg t = true

section Threads

variable {cfg : Config} {s s' : State} {a : Evaluator.Action} {b : Evaluator.State}

variable {t : ℕ}

theorem op_eq_some {o : Op} : s.op t = some o ↔ ∃ k, s.threads.lookup t = some k ∧ s.ops[k]? = some o := by
  simp [State.op, Option.bind_eq_some_iff]

/-- Threads do not change when another begins. -/
theorem op_begin (hI : ThreadInv s) (p : Uuid) (commit : String) (t : ℕ) : (s.begin cfg p commit).op t = s.op t := by
  unfold State.op State.begin
  cases hk : s.threads.lookup t with
  | none => simp
  | some k => simp [List.getElem?_append_left (hI.bound t k hk)]

theorem lookup_await (s : State) (t u : ℕ) : (s.await t).threads.lookup u =
    if u = t then some (s.ops.length - 1) else s.threads.lookup u := by
  unfold State.await
  split_ifs with h
  · rw [h, AList.lookup_insert]
  · rw [AList.lookup_insert_ne h]

theorem op_await (hI : ThreadInv s) (p : Uuid) (commit : String) (t u : ℕ) :
    ((s.begin cfg p commit).await t).op u = if u = t then
      some ⟨p, commit, cfg.paths.filter fun path => decide (s.files p path ≠ cfg.trees commit path)⟩ else s.op u := by
  unfold State.op
  rw [lookup_await]
  split_ifs with h
  · simp [State.await, State.begin]
  · exact op_begin hI p commit u

namespace ThreadInv

theorem idle_lookup (hI : ThreadInv s) (hidle : s.base.phase t = .idle) : s.threads.lookup t = none := by
  cases hk : s.threads.lookup t with
  | none => rfl
  | some k =>
    rcases hI.used t k hk with ⟨jobset, commit, hp⟩ | hp
    · rw [hidle] at hp
      cases hp
    · rw [hidle] at hp
      cases hp

/-- The row of an evaluation that is being prepared stays, with its jobset and
commit. -/
theorem row_of_step (hI : ThreadInv s) (h : Evaluator.step cfg.evaluator s.base a = some b) {o : Op}
    (ho : s.op t = some o) (hp : (b.phase t).prepares = some id) :
    (s.base.phase t).prepares = some id ∧ ∃ row row', s.base.db.evaluations.get id = some row ∧
      b.db.evaluations.get id = some row' ∧ row'.identity = row.identity ∧ row.commitHash = o.commit := by
  obtain ⟨k, hk, -⟩ := op_eq_some.mp ho
  rcases prepares_of_step h hp with ⟨hp, -⟩ | ⟨hnone, hfetched, -⟩
  · obtain ⟨row, hrow, hcommit⟩ := hI.commit t o id ho hp
    obtain ⟨row', hrow', hid⟩ := identity_of_effect (step_effect h) hrow
    exact ⟨hp, row, row', hrow, hrow', hid, hcommit⟩
  · rcases hI.used t k hk with ⟨jobset, commit, hp⟩ | hp
    · exact absurd hp (hfetched jobset commit)
    · rw [hnone] at hp
      cases hp

/-- A step of the evaluator, after which some tasks that prepare nothing forget
their threads. -/
theorem base (hI : ThreadInv s) (hw : s.awaits a = false) (h : Evaluator.step cfg.evaluator s.base a = some b)
    {threads : AList fun _ : ℕ => ℕ} (hsub : ∀ t k, threads.lookup t = some k → s.threads.lookup t = some k)
    (hsame : ∀ t, (b.phase t).prepares.isSome → threads.lookup t = s.threads.lookup t)
    (hmoved : ∀ t event, a = .task t event → (b.phase t).prepares.isSome ∨ threads.lookup t = none) :
    ThreadInv { s with base := b, threads := threads } where
  copies := hI.copies.step h
  bound t k hk := hI.bound t k (hsub t k hk)
  used t k hk := by
    have hidle : s.base.phase t ≠ .idle := fun hidle => by
      have := hsub t k hk
      rw [hI.idle_lookup hidle] at this
      cases this
    rcases kept_or_moves h hidle with ⟨hp, -⟩ | ⟨event, ha⟩
    · dsimp only
      rw [hp]
      exact hI.used t k (hsub t k hk)
    · rcases hmoved t event ha with hp | hnone
      · exact .inr hp
      · rw [show threads.lookup t = some k from hk] at hnone
        cases hnone
  commit t o id ho hp := by
    obtain ⟨k, hk, ho⟩ := op_eq_some.mp ho
    obtain ⟨-, row, row', -, hrow', hid, hcommit⟩ := hI.row_of_step h (op_eq_some.mpr ⟨k, hsub t k hk, ho⟩) hp
    exact ⟨row', hrow', (EvaluationRow.commitHash_of_identity hid).trans hcommit⟩
  finished t id hp hc := by
    have hop : ({ s with base := b, threads := threads } : State).op t = s.op t := by
      simp only [State.op, hsame t (Option.isSome_of_eq_some hp)]
    rw [State.done, hop]
    rcases prepares_of_step h hp with ⟨hp₀, hkept | hc₀ | rfl⟩ | ⟨-, -, flow, e, hp'⟩
    · exact hI.finished t id hp₀ (hkept ▸ hc)
    · exact hI.finished t id hp₀ hc₀
    · by_cases hc₀ : (s.base.phase t).checkedOut = true
      · exact hI.finished t id hp₀ hc₀
      · -- a claimed evaluation goes on when its checkout has returned
        unfold Phase.prepares at hp₀
        split at hp₀
        next flow e hphase =>
          show s.done t = true
          simpa [State.awaits, hphase] using hw
        next flow e hphase => exact absurd (by rw [hphase]; rfl) hc₀
        next flow i hphase => exact absurd (by rw [hphase]; rfl) hc₀
        next => cases hp₀
    · dsimp only at hc
      rw [hp'] at hc
      cases hc

/-- A git operation begins, and nobody waits for it. -/
theorem begin (hI : ThreadInv s) (p : Uuid) (commit : String) : ThreadInv (s.begin cfg p commit) where
  copies := hI.copies
  bound t k hk := (hI.bound t k hk).trans_le (by simp [State.begin])
  used := hI.used
  commit t o id ho := hI.commit t o id (op_begin hI p commit t ▸ ho)
  finished t id hp hc := by
    rw [State.done, op_begin hI]
    exact hI.finished t id hp hc

/-- Task `t` waits for the operation that begins. -/
theorem await (hI : ThreadInv s) {p : Uuid} {commit : String}
    (hused : (∃ jobset commit, s.base.phase t = .fetched jobset commit) ∨ (s.base.phase t).prepares.isSome)
    (hc : (s.base.phase t).checkedOut = false)
    (hcommit : ∀ id, (s.base.phase t).prepares = some id →
      ∃ row, s.base.db.evaluations.get id = some row ∧ row.commitHash = commit) :
    ThreadInv ((s.begin cfg p commit).await t) where
  copies := hI.copies
  bound u k hk := by
    rw [lookup_await] at hk
    split_ifs at hk
    · cases hk
      simp [State.begin, State.await]
    · exact (hI.bound u k hk).trans_le (by simp [State.begin, State.await])
  used u k hk := by
    rw [lookup_await] at hk
    split_ifs at hk with hu
    · rw [hu]
      exact hused
    · exact hI.used u k hk
  commit u o id ho hp := by
    rw [op_await hI] at ho
    split_ifs at ho with hu
    · cases ho
      rw [hu] at hp
      exact hcommit id hp
    · exact hI.commit u o id ho hp
  finished u id hp hcu := by
    have hu : u ≠ t := by
      rintro rfl
      rw [show (s.base.phase u).checkedOut = true from hcu] at hc
      cases hc
    rw [State.done, op_await hI, if_neg hu]
    exact hI.finished u id hp hcu

theorem write (hI : ThreadInv s) {files : Uuid → String → Option String} {k : ℕ} {o : Op} {todo : List String}
    (hk : s.ops[k]? = some o) (ho : o.todo ≠ []) :
    ThreadInv { s with files := files, ops := s.ops.set k { o with todo := todo } } := by
  have hlt := (List.getElem?_eq_some_iff.mp hk).1
  refine ⟨hI.copies, fun t k' hk' => by simpa using hI.bound t k' hk', hI.used, fun t o' id ho' => ?_,
    fun t id hp hc => ?_⟩
  · obtain ⟨k', hk', ho'⟩ := op_eq_some.mp ho'
    by_cases he : k' = k
    · subst he
      rw [List.getElem?_set_self hlt] at ho'
      cases ho'
      exact hI.commit t o id (op_eq_some.mpr ⟨k', hk', hk⟩)
    · rw [List.getElem?_set_ne (Ne.symm he)] at ho'
      exact hI.commit t o' id (op_eq_some.mpr ⟨k', hk', ho'⟩)
  · -- a thread that has returned is not the one that writes
    obtain ⟨o', ho', hdone⟩ := (Option.any_eq_true _ _).mp (hI.finished t id hp hc)
    obtain ⟨k', hk', hget⟩ := op_eq_some.mp ho'
    have he : k' ≠ k := by
      rintro rfl
      obtain rfl := Option.some.inj (hk.symm.trans hget)
      exact ho (by simpa using hdone)
    refine (Option.any_eq_true _ _).mpr ⟨o', op_eq_some.mpr ⟨k', hk', ?_⟩, hdone⟩
    rw [List.getElem?_set_ne (Ne.symm he)]
    exact hget

theorem lookup_erase_eq {threads : AList fun _ : ℕ => ℕ} {u k : ℕ} (h : (threads.erase t).lookup u = some k) :
    u ≠ t ∧ threads.lookup u = some k := by
  by_cases hu : u = t
  · rw [hu, AList.lookup_erase] at h
    cases h
  · rw [AList.lookup_erase_ne hu] at h
    exact ⟨hu, h⟩

/-- A step of the evaluator with what goes with it. -/
theorem after (hI : ThreadInv s) (hw : s.awaits a = false) (h : Evaluator.step cfg.evaluator s.base a = some b)
    (hafter : After cfg s b a s') : ThreadInv s' := by
  cases hafter with
  | kept hp => exact hI.base hw h (fun _ _ hk => hk) (fun _ _ => rfl) fun t event ha => .inl (hp t event ha)
  | forgot t event ha hp =>
    refine hI.base hw h (fun u k hk => (lookup_erase_eq hk).2) (fun u hu => ?_) fun u event' ha' => ?_
    · have hne : u ≠ t := by
        rintro rfl
        rw [hp] at hu
        cases hu
      exact AList.lookup_erase_ne hne
    · obtain rfl : t = u := by
        rw [ha] at ha'
        injection ha'
      exact .inr (AList.lookup_erase _ _)
  | fetched t event jobset commit ha hp =>
    have hphase : s.threads.lookup t = none := by
      have hfetching := (fetched_of_step h ha hp).2.1
      cases hk : s.threads.lookup t with
      | none => rfl
      | some k =>
        rcases hI.used t k hk with ⟨_, _, hused⟩ | hused
        · rw [hfetching] at hused
          cases hused
        · rw [hfetching] at hused
          cases hused
    have hI' : ThreadInv { s with base := b } :=
      hI.base hw h (fun _ _ hk => hk) (fun _ _ => rfl) fun u event' ha' => by
        obtain rfl : t = u := by
          rw [ha] at ha'
          injection ha'
        exact .inr hphase
    refine hI'.await (.inl ⟨jobset, commit, hp⟩) ?_ fun id hid => ?_
    · dsimp only
      rw [hp]
      rfl
    · dsimp only at hid
      rw [hp] at hid
      cases hid

theorem step {a : Action} (hI : ThreadInv s) (h : step cfg s a = some s') : ThreadInv s' := by
  cases a with
  | base =>
    obtain ⟨hw, b, hb, hafter⟩ := after_of_step h
    exact hI.after hw hb hafter
  | checkout t =>
    simp only [Checkout.step] at h
    split at h
    next flow e hp hk =>
      obtain ⟨jobset, hj, rfl⟩ := Option.map_eq_some_iff.mp h
      obtain ⟨row, hrow, hid⟩ := hI.copies t e (by rw [hp]; rfl)
      refine hI.await (.inr (by rw [hp]; rfl)) (by rw [hp]; rfl) fun id hprep => ?_
      rw [hp] at hprep
      cases hprep
      exact ⟨row, hrow, EvaluationRow.commitHash_of_identity hid⟩
    next => cases h
  | write k =>
    obtain ⟨o, hk, h⟩ := Option.bind_eq_some_iff.mp h
    split at h
    next => cases h
    next path todo ho =>
      cases h
      exact hI.write hk (by rw [ho]; exact List.cons_ne_nil _ _)
  | discover p commit =>
    cases h
    exact hI.begin p commit

end ThreadInv

/-! ### Readers -/

theorem reads_of_step (hI : ThreadInv s) (h : Evaluator.step cfg.evaluator s.base a = some b) {o : Op}
    {files : Uuid → String → Option String} {ops : List Op} {threads : AList fun _ : ℕ => ℕ}
    (ho : s.op t = some o) (hr : State.reads cfg ⟨b, files, ops, threads⟩ t = true) : s.reads cfg t = true := by
  obtain ⟨id, hp, hl⟩ := (Option.any_eq_true _ _).mp hr
  obtain ⟨hp₀, row, row', hrow, hrow', hid, -⟩ := hI.row_of_step h ho hp
  refine (Option.any_eq_true _ _).mpr ⟨id, hp₀, ?_⟩
  simp only [State.legacy, hrow', Option.any_some] at hl
  simpa only [State.legacy, hrow, Option.any_some, EvaluationRow.jobsetId_of_identity hid] using hl

theorem held_of_step (hI : ThreadInv s) (h : Evaluator.step cfg.evaluator s.base a = some b)
    {files : Uuid → String → Option String} {ops : List Op} {threads : AList fun _ : ℕ => ℕ} {k : ℕ}
    (hsub : ∀ t, threads.lookup t = some k → s.threads.lookup t = some k)
    (hk : State.Held cfg ⟨b, files, ops, threads⟩ k) : s.Held cfg k := by
  obtain ⟨t, hlookup, hr⟩ := hk
  have hk := hsub t hlookup
  have hop := op_eq_some.mpr ⟨k, hk, List.getElem?_eq_getElem (hI.bound t k hk)⟩
  exact ⟨t, hk, reads_of_step hI h hop hr⟩

/-- In a free directory nothing is under way or held. -/
theorem not_held_of_free {p : Uuid} (hfree : s.Free cfg p) (k : ℕ) (o : Op) (hk : s.ops[k]? = some o)
    (hp : o.projectId = p) : o.todo = [] ∧ ¬ s.Held cfg k := by
  refine ⟨hfree.1 o (List.mem_of_getElem? hk) hp, ?_⟩
  rintro ⟨t, ht, hr⟩
  exact hfree.2 ⟨t, k⟩ (AList.mem_lookup_iff.mp ht) hr o (op_eq_some.mpr ⟨k, ht, hk⟩) hp

variable (cfg) in
structure CheckoutInv (s : State) : Prop where
  threads : ThreadInv s
  dirs : Dirs cfg s.files s.ops (s.Held cfg)

namespace CheckoutInv

/-- A git operation for task `t` begins in a free directory. -/
theorem dirs_await (hI : CheckoutInv cfg s) {p : Uuid} (commit : String) (t : ℕ) (hfree : s.Free cfg p) :
    Dirs cfg s.files (s.begin cfg p commit).ops (((s.begin cfg p commit).await t).Held cfg) := by
  refine (hI.dirs.begin commit (not_held_of_free hfree)).mono ?_
  rintro k ⟨u, hu, hr⟩
  rw [lookup_await] at hu
  split_ifs at hu with h
  · cases hu
    exact .inr (by simp [State.begin])
  · exact .inl ⟨u, hu, hr⟩

theorem step {a : Action} (hI : CheckoutInv cfg s) (ha : Isolated cfg s a) (h : step cfg s a = some s') :
    CheckoutInv cfg s' := by
  refine ⟨hI.threads.step h, ?_⟩
  cases a with
  | base a =>
    obtain ⟨hw, b, hb, hafter⟩ := after_of_step h
    cases hafter with
    | kept => exact hI.dirs.mono fun k hk => held_of_step hI.threads hb (fun _ ht => ht) hk
    | forgot =>
      exact hI.dirs.mono fun k hk => held_of_step hI.threads hb (fun u hu => (ThreadInv.lookup_erase_eq hu).2) hk
    | fetched t event jobset commit hat hp =>
      obtain ⟨rfl, hfetching, hpatterns⟩ := fetched_of_step hb hat hp
      have hfree : s.Free cfg jobset.projectId := ha _ (by simp [begins, hfetching, hpatterns])
      refine (hI.dirs.begin commit (not_held_of_free hfree)).mono ?_
      rintro k ⟨u, hu, hr⟩
      rw [lookup_await] at hu
      split_ifs at hu with h
      · -- the new thread is for a poll
        rw [h, State.reads, show Phase.prepares _ = none from hp ▸ rfl] at hr
        cases hr
      · exact .inl (held_of_step hI.threads hb (fun _ ht => ht) ⟨u, hu, hr⟩)
  | checkout t =>
    simp only [Checkout.step] at h
    split at h
    next flow e hp hk =>
      obtain ⟨jobset, hj, rfl⟩ := Option.map_eq_some_iff.mp h
      refine hI.dirs_await e.commitHash t (ha jobset.projectId ?_)
      simp [begins, hp, hj]
    next => cases h
  | write k =>
    obtain ⟨o, hk, h⟩ := Option.bind_eq_some_iff.mp h
    split at h
    next => cases h
    next path todo ho =>
      cases h
      exact hI.dirs.write hk ho
  | discover p commit =>
    cases h
    exact (hI.dirs.begin commit (not_held_of_free (ha p rfl))).mono fun k hk => .inl hk

end CheckoutInv

theorem threadInv_of_idle (hidle : s.base.Idle) (hthreads : s.threads = ∅) : ThreadInv s where
  copies t e he := by
    rw [hidle t] at he
    cases he
  bound t k hk := by
    rw [hthreads] at hk
    cases hk
  used t k hk := by
    rw [hthreads] at hk
    cases hk
  commit t o id _ hp := by
    rw [hidle t] at hp
    cases hp
  finished t id hp := by
    rw [hidle t] at hp
    cases hp

/-- **Checkout isolation.** Start with no task at work and working directories
in which every file is tracked. In every run in which git operations begin in
free directories only: a non-flake evaluation that `fetch_and_checkout_commit`
has checked out has in its directory exactly the tree of its commit, at every
moment up to the end of its Nix run. -/
theorem reads_own_commit {s₀ : State} {as : List Action} (hidle : s₀.base.Idle) (hthreads : s₀.threads = ∅)
    (hops : s₀.ops = []) (hclean : ∀ p path, path ∉ cfg.paths → s₀.files p path = none)
    (hrun : Along cfg (Isolated cfg) s₀ as) (h : exec cfg s₀ as = some s) {t : ℕ} {id : Uuid} {e : EvaluationRow}
    (hp : (s.base.phase t).prepares = some id) (hc : (s.base.phase t).checkedOut = true)
    (he : s.base.db.evaluations.get id = some e) (hl : cfg.flakeMode e.jobsetId = false) :
    ∃ p, (s.op t).map (·.projectId) = some p ∧ ∀ path, s.files p path = cfg.trees e.commitHash path := by
  have hI₀ : CheckoutInv cfg s₀ :=
    ⟨threadInv_of_idle hidle hthreads, hclean, fun k o hk => by simp [hops] at hk, fun k o k' o' hk => by
      simp [hops] at hk⟩
  have hI : CheckoutInv cfg s := Lts.exec_inv (fun _ _ _ hI ha hs => hI.step ha hs) hI₀ hrun h
  obtain ⟨o, ho, htodo⟩ := (Option.any_eq_true _ _).mp (hI.threads.finished t id hp hc)
  obtain ⟨row, hrow, hcommit⟩ := hI.threads.commit t o id ho hp
  obtain rfl := Option.some.inj (he.symm.trans hrow)
  obtain ⟨k, hk, hget⟩ := op_eq_some.mp ho
  have htodo : o.todo = [] := by simpa using htodo
  have hreads : s.reads cfg t = true :=
    (Option.any_eq_true _ _).mpr ⟨id, hp, by simp [State.legacy, he, hl]⟩
  refine ⟨o.projectId, by rw [ho]; rfl, fun path => ?_⟩
  rw [hcommit]
  exact hI.dirs.written k o hget (.inr ⟨t, hk, hreads⟩) path (by rw [htodo]; exact List.not_mem_nil)

end Threads

/-- Every commit has one file, with its own name in it. -/
def ownName (commit path : String) : Option String := if path = "default.nix" then some commit else none

/-- Jobsets are not flakes. -/
def smallCheckout : Config := ⟨small, ownName, ["default.nix"], fun _ _ h => if_neg (by simpa using h), fun _ => false⟩

/-- A jobset that follows `main` and evaluates every push. -/
def everyPush : State := { base := withJobset { mainJobset with onlyBuildLatest := false } }

/-- Two commits are pushed, and have pending evaluations. -/
def twoPending : List Action :=
  [[Evaluator.Action.gitPush 0 "main" (some "a"), .gitPush 0 "main" (some "b"), .deliver 1 0, .deliver 2 1],
    nexts 1 2, nexts 2 2].flatten.map .base

/-- Task `t` takes up evaluation `id` and checks it out, on thread `k`. -/
def checksOut (t : ℕ) (id : Uuid) (k : ℕ) : List Action :=
  [.base (.drain t id), .base (.task t .next), .checkout t, .write k, .base (.task t .next), .base (.task t .next)]

/-- The first evaluation runs to its end, then the second is checked out. -/
def oneAfterTheOther : List Action :=
  [twoPending, checksOut 1 1 0, [.base (.task 1 (.failed false ""))], checksOut 2 2 1].flatten

theorem reads_own_commit_oneAfterTheOther : ∃ s ∈ exec smallCheckout everyPush oneAfterTheOther,
    ∃ p, (s.op 2).map (·.projectId) = some p ∧ ∀ path, s.files p path = ownName "b" path := by
  have hs : ∃ s ∈ exec smallCheckout everyPush oneAfterTheOther, ∃ e ∈ s.base.db.evaluations.get 2,
      (s.base.phase 2).prepares = some 2 ∧ (s.base.phase 2).checkedOut = true ∧ e.commitHash = "b" := by decide
  have hrun : Along smallCheckout (Isolated smallCheckout) everyPush oneAfterTheOther := by decide
  obtain ⟨s, h, e, he, hp, hc, hcommit⟩ := hs
  obtain ⟨p, hop, hfiles⟩ :=
    reads_own_commit (idle_withJobset _) rfl rfl (fun _ _ _ => rfl) hrun h hp hc he rfl
  exact ⟨s, h, p, hop, fun path => hcommit ▸ hfiles path⟩

/-- Both are taken up in one cycle: while the first is in its Nix run, its
directory has the files of the second. -/
theorem reads_other_commit :
    ∃ s ∈ exec smallCheckout everyPush [twoPending, checksOut 1 1 0, checksOut 2 2 1].flatten,
      ∃ e ∈ s.base.db.evaluations.get 1, e.commitHash = "a" ∧ (s.base.phase 1).prepares = some 1 ∧
        (s.base.phase 1).checkedOut = true ∧ (s.op 1).map (·.projectId) = some 0 ∧
        s.files 0 "default.nix" = some "b" ∧ ownName "a" "default.nix" = some "a" := by
  decide

end Checkout

end Circus.Evaluator
