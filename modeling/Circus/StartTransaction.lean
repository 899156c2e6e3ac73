/-
# `start` as a transaction

`start` is one statement, but not one step: under READ COMMITTED it takes its
snapshot when it begins and evaluates `NOT EXISTS (… running …)` there, then
tries the advisory lock of the derivation, then locks the target row and
checks that row, and only that row, against its latest version; what it wrote
is seen when it commits, which is also when both locks are released. The
other statements are one step each; those that would write a row `start` has
locked wait for it.

`one_running`: no two builds of one derivation are running, in any
interleaving in which a `start` that gets the advisory lock finds the answer
of its snapshot still true (`FreshAtLock`). The statement does not look
again, and `stale_snapshot_runs_twins` runs two builds of one derivation: the
second `start` begins before the first commits and gets the lock after it.

`exec_start` is the connection to the runner's model: run without
interruption, the four steps are `Builds.start`.
-/
import Circus.Lts
import Circus.Queries

namespace Circus.StartTransaction

open Lts

inductive Progress
  /-- the snapshot shows the build pending and no running twin -/
  | begun
  /-- the advisory lock is held -/
  | locked
  /-- the row is locked and updated, not committed -/
  | updated
  deriving DecidableEq, Repr

/-- A `start` on its way. -/
structure Txn where
  /-- The target row in the snapshot. -/
  build : Build
  /-- `NOW()`, the time the transaction began. -/
  now : Time
  progress : Progress := .begun

/-- The committed database and the transactions on their way. -/
structure State where
  db : Db
  txns : AList fun _ : ℕ => Txn := ∅

inductive Action
  | begin (t : ℕ) (id : Uuid) (now : Time)
  | lock (t : ℕ)
  | recheck (t : ℕ)
  | commit (t : ℕ)
  | rollback (t : ℕ)
  | complete (id : Uuid) (now : Time) (c : Completion)
  | requeue (id : Uuid)
  | retry (id : Uuid)
  | cancel (id : Uuid) (now : Time)
  | resetOrphaned (now olderThanSecs : Time) (excludedIds : List Uuid)
  | restart (id : Uuid)

namespace State

def txn (s : State) (t : ℕ) : Option Txn := s.txns.lookup t

/-- Transaction `t` goes on as `x`. -/
def setTxn (s : State) (t : ℕ) (x : Txn) : State := { s with txns := s.txns.insert t x }

/-- Transaction `t` is over, and its locks are released. -/
def endTxn (s : State) (t : ℕ) : State := { s with txns := s.txns.erase t }

/-- Some other transaction holds the advisory lock with this key. -/
def advisoryLocked (hash : String → ℤ) (s : State) (t : ℕ) (drvPath : String) : Bool :=
  s.txns.entries.any fun x => decide (x.1 ≠ t ∧ x.2.progress ≠ .begun ∧ hash x.2.build.drvPath = hash drvPath)

/-- Some other transaction has locked the row of build `id`. -/
def rowLocked (s : State) (t : ℕ) (id : Uuid) : Bool :=
  s.txns.entries.any fun x => decide (x.1 ≠ t ∧ x.2.progress = .updated ∧ x.2.build.id = id)

/-- Some transaction has locked the row of build `id`. -/
def blocked (s : State) (id : Uuid) : Bool :=
  s.txns.entries.any fun x => decide (x.2.progress = .updated ∧ x.2.build.id = id)

end State

/-- One step; `hash` is `hashtextextended(drv_path, 0)`. -/
def step (hash : String → ℤ) (s : State) : Action → Option State
  | .begin t id now =>
    if (s.txn t).isSome then none
    else match s.db.builds.get id with
      | none => some s
      | some b =>
        if b.status = .pending ∧ Builds.runningTwin s.db b.drvPath = false then
          some (s.setTxn t { build := b, now := now })
        else some s
  | .lock t => (s.txn t).bind fun x =>
    if x.progress = .begun then
      if s.advisoryLocked hash t x.build.drvPath then some (s.endTxn t)
      else some (s.setTxn t { x with progress := .locked })
    else none
  | .recheck t => (s.txn t).bind fun x =>
    if x.progress = .locked then
      -- SKIP LOCKED, then the target row as it is now
      if s.rowLocked t x.build.id = false ∧ s.db.status x.build.id = some .pending then
        some (s.setTxn t { x with progress := .updated })
      else some (s.endTxn t)
    else none
  | .commit t => (s.txn t).bind fun x =>
    if x.progress = .updated then
      some { s.endTxn t with db := s.db.updateBuild x.build.id (Build.claim x.now) (Build.toJob_claim x.now) }
    else none
  | .rollback t => (s.txn t).map fun _ => s.endTxn t
  | .complete id now c =>
    if s.blocked id then none
    else some { s with db := Builds.complete now id c.status c.logPath c.buildOutputPath c.errorMessage s.db }
  | .requeue id => some { s with db := Builds.requeue id s.db }
  | .retry id => if s.blocked id then none else some { s with db := Builds.retry id s.db }
  | .cancel id now => if s.blocked id then none else some { s with db := Builds.cancel now id s.db }
  | .resetOrphaned now secs ids => some { s with db := Builds.resetOrphaned now secs ids s.db }
  | .restart id => some { s with db := Builds.restart id s.db }

/-- A `start` that gets the advisory lock has not been overtaken: no build of
its derivation is running that was not in its snapshot. -/
def FreshAtLock (hash : String → ℤ) (s : State) : Action → Prop
  | .lock t => ∀ x ∈ s.txn t, s.advisoryLocked hash t x.build.drvPath = false →
      Builds.runningTwin s.db x.build.drvPath = false
  | _ => True

instance (hash : String → ℤ) (s : State) (a : Action) : Decidable (FreshAtLock hash s a) := by
  unfold FreshAtLock
  split <;> infer_instance

/-! ### Statements that start nothing -/

/-- No two builds of one derivation are running. -/
def OneRunning (db : Db) : Prop :=
  ∀ k k' b b', db.builds.get k = some b → db.builds.get k' = some b' → b.status = .running →
    b'.status = .running → b.drvPath = b'.drvPath → k = k'

/-- Whatever is running in `db'` was running in `db`. -/
structure StartsNothing (db db' : Db) : Prop where
  running : ∀ k b', db'.builds.get k = some b' → b'.status = .running →
    ∃ b, db.builds.get k = some b ∧ b.status = .running ∧ b.drvPath = b'.drvPath
  frame : db.Frame db'

theorem startsNothing_update (db : Db) (p : Build → Bool) (f : Build → Build) (hf : ∀ b, (f b).toJob = b.toJob)
    (hs : ∀ b, (f b).status = .running → b.status = .running) : StartsNothing db (db.updateBuilds p f hf) := by
  refine ⟨fun k b' hb' hr => ?_, db.frame_updateBuilds p f hf⟩
  rw [Db.get_updateBuilds, Option.map_eq_some_iff] at hb'
  obtain ⟨b, hb, rfl⟩ := hb'
  split_ifs at hr ⊢
  · exact ⟨b, hb, hs b hr, by rw [hf]⟩
  · exact ⟨b, hb, hr, rfl⟩

variable {db : Db}

theorem StartsNothing.oneRunning {db' : Db} (h : StartsNothing db db') (ho : OneRunning db) : OneRunning db' := by
  intro k k' b b' hb hb' hr hr' hd
  obtain ⟨b₀, hb₀, hr₀, hd₀⟩ := h.running k b hb hr
  obtain ⟨b₁, hb₁, hr₁, hd₁⟩ := h.running k' b' hb' hr'
  exact ho k k' b₀ b₁ hb₀ hb₁ hr₀ hr₁ (by rw [hd₀, hd₁, hd])

theorem StartsNothing.runningTwin {db' : Db} (h : StartsNothing db db') {d : String}
    (hd : Builds.runningTwin db d = false) : Builds.runningTwin db' d = false := by
  rw [Builds.runningTwin_eq_false] at hd ⊢
  intro k b' hb' hbd hr
  obtain ⟨b, hb, hr, hd'⟩ := h.running k b' hb' hr
  exact hd k b hb (hd'.trans hbd) hr

/-! ### What a step can do -/

inductive Step (hash : String → ℤ) (s : State) : Action → State → Prop
  | begin (t : ℕ) (b : Build) (now : Time) (ht : s.txn t = none) (hb : s.db.builds.get b.id = some b) :
      Step hash s (.begin t b.id now) (s.setTxn t { build := b, now := now })
  | lock (t : ℕ) (x : Txn) (hx : s.txn t = some x) (hl : s.advisoryLocked hash t x.build.drvPath = false) :
      Step hash s (.lock t) (s.setTxn t { x with progress := .locked })
  | recheck (t : ℕ) (x : Txn) (hx : s.txn t = some x) (hp : x.progress = .locked) :
      Step hash s (.recheck t) (s.setTxn t { x with progress := .updated })
  | commit (t : ℕ) (x : Txn) (hx : s.txn t = some x) (hp : x.progress = .updated) : Step hash s (.commit t)
      { s.endTxn t with db := s.db.updateBuild x.build.id (Build.claim x.now) (Build.toJob_claim x.now) }
  /-- a `start` that claims nothing -/
  | stay (a : Action) : Step hash s a s
  | stop (a : Action) (t : ℕ) : Step hash s a (s.endTxn t)
  | write (a : Action) (db : Db) (h : StartsNothing s.db db) : Step hash s a { s with db := db }

theorem step_cases {hash : String → ℤ} {s s' : State} {a : Action} (h : step hash s a = some s') :
    Step hash s a s' := by
  have hupd : ∀ (id : Uuid) (f : Build → Build) (hf : ∀ b, (f b).toJob = b.toJob),
      (∀ b, (f b).status = .running → b.status = .running) → StartsNothing s.db (s.db.updateBuild id f hf) :=
    fun id f hf => startsNothing_update s.db _ f hf
  cases a with
  | begin t id now =>
    simp only [step] at h
    split at h
    · cases h
    · rename_i ht
      split at h
      · cases h; exact .stay _
      · rename_i b hb
        split at h
        · cases h
          obtain rfl := Db.id_of_get hb
          exact .begin t b now (by simpa using ht) hb
        · cases h; exact .stay _
  | lock t =>
    obtain ⟨x, hx, h⟩ := Option.bind_eq_some_iff.mp h
    split at h
    · split at h
      · cases h; exact .stop _ t
      · rename_i hl
        cases h; exact .lock t x hx (by simpa using hl)
    · cases h
  | recheck t =>
    obtain ⟨x, hx, h⟩ := Option.bind_eq_some_iff.mp h
    split at h
    · rename_i hp
      split at h
      · cases h; exact .recheck t x hx hp
      · cases h; exact .stop _ t
    · cases h
  | commit t =>
    obtain ⟨x, hx, h⟩ := Option.bind_eq_some_iff.mp h
    split at h
    · rename_i hp
      cases h; exact .commit t x hx hp
    · cases h
  | rollback t =>
    obtain ⟨x, -, rfl⟩ := Option.map_eq_some_iff.mp h
    exact .stop _ t
  | complete id now c =>
    simp only [step] at h
    split at h <;> cases h
    refine .write _ _ (hupd id _ (Build.toJob_complete now c.status c.logPath c.buildOutputPath c.errorMessage) ?_)
    intro b hs
    have := c.finished
    rw [show c.status = .running from hs] at this
    cases this
  | requeue id =>
    cases h
    refine .write _ _ (hupd id _ Build.toJob_requeue fun b hs => ?_)
    unfold Build.requeue at hs
    split_ifs at hs
    exact hs
  | retry id =>
    simp only [step] at h
    split at h <;> cases h
    exact .write _ _ (hupd id _ Build.toJob_retry fun _ hs => by cases hs)
  | cancel id now =>
    simp only [step] at h
    split at h <;> cases h
    refine .write _ _ (hupd id _ (Build.toJob_cancel now) fun b hs => ?_)
    unfold Build.cancel at hs
    split_ifs at hs
    exact hs
  | resetOrphaned =>
    cases h
    exact .write _ _ (startsNothing_update s.db _ _ Build.toJob_resetOrphaned fun _ hs => by cases hs)
  | restart id =>
    cases h
    refine .write _ _ (hupd id _ Build.toJob_restart fun b hs => ?_)
    unfold Build.restart at hs
    split_ifs at hs
    exact hs

/-! ### The invariant -/

structure Inv (hash : String → ℤ) (s : State) : Prop where
  one : OneRunning s.db
  /-- the advisory lock is exclusive -/
  lock : ∀ t t' x x', s.txn t = some x → s.txn t' = some x' → x.progress ≠ .begun → x'.progress ≠ .begun →
    hash x.build.drvPath = hash x'.build.drvPath → t = t'
  /-- under it, nothing of the derivation is running -/
  clear : ∀ t x, s.txn t = some x → x.progress ≠ .begun → Builds.runningTwin s.db x.build.drvPath = false
  job : ∀ t x, s.txn t = some x → s.db.job x.build.id = some x.build.toJob

theorem inv_init {hash : String → ℤ} (h : OneRunning db) : Inv hash { db := db } := by
  refine ⟨h, ?_, ?_, ?_⟩ <;> simp [State.txn]

section Step

variable {hash : String → ℤ} {s s' : State} {a : Action}

theorem txn_setTxn (s : State) (t : ℕ) (x : Txn) (t' : ℕ) :
    (s.setTxn t x).txn t' = if t' = t then some x else s.txn t' := by
  unfold State.txn State.setTxn
  by_cases h : t' = t
  · subst h; simp
  · rw [AList.lookup_insert_ne h, if_neg h]

theorem txn_endTxn (s : State) (t t' : ℕ) : (s.endTxn t).txn t' = if t' = t then none else s.txn t' := by
  unfold State.txn State.endTxn
  by_cases h : t' = t
  · subst h; simp
  · rw [AList.lookup_erase_ne h, if_neg h]

theorem any_txn {p : ℕ → Txn → Bool} :
    (s.txns.entries.any fun x => p x.1 x.2) = true ↔ ∃ t x, s.txn t = some x ∧ p t x = true := by
  rw [List.any_eq_true]
  exact ⟨fun ⟨x, hx, hp⟩ => ⟨x.1, x.2, AList.mem_lookup_iff.mpr hx, hp⟩,
    fun ⟨t, x, hx, hp⟩ => ⟨⟨t, x⟩, AList.mem_lookup_iff.mp hx, hp⟩⟩

variable {t : ℕ}

theorem advisoryLocked_iff {d : String} : s.advisoryLocked hash t d = true ↔
    ∃ t' x, s.txn t' = some x ∧ t' ≠ t ∧ x.progress ≠ .begun ∧ hash x.build.drvPath = hash d := by
  unfold State.advisoryLocked
  rw [any_txn (p := fun t' x => decide (t' ≠ t ∧ x.progress ≠ .begun ∧ hash x.build.drvPath = hash d))]
  simp only [decide_eq_true_eq]

theorem rowLocked_iff {id : Uuid} : s.rowLocked t id = true ↔
    ∃ t' x, s.txn t' = some x ∧ t' ≠ t ∧ x.progress = .updated ∧ x.build.id = id := by
  unfold State.rowLocked
  rw [any_txn (p := fun t' x => decide (t' ≠ t ∧ x.progress = .updated ∧ x.build.id = id))]
  simp only [decide_eq_true_eq]

variable {x : Txn}

theorem not_advisoryLocked {d : String} (h : s.advisoryLocked hash t d = false) {t' : ℕ}
    (hx : s.txn t' = some x) (hp : x.progress ≠ .begun) (hd : hash x.build.drvPath = hash d) : t' = t := by
  by_contra hne
  rw [advisoryLocked_iff.mpr ⟨t', x, hx, hne, hp, hd⟩] at h
  cases h

theorem Inv.endTxn (hI : Inv hash s) (t : ℕ) : Inv hash (s.endTxn t) := by
  have ht : ∀ {t' x}, (s.endTxn t).txn t' = some x → s.txn t' = some x := by
    intro t' x h
    rw [txn_endTxn] at h
    split_ifs at h
    exact h
  exact ⟨hI.one, fun t t' x x' h h' => hI.lock t t' x x' (ht h) (ht h'), fun t x h => hI.clear t x (ht h),
    fun t x h => hI.job t x (ht h)⟩

/-- Transaction `t` goes on with its lock: it had it, or it gets it now. -/
theorem Inv.setTxn (hI : Inv hash s) (hj : s.db.job x.build.id = some x.build.toJob)
    (hl : x.progress ≠ .begun → Builds.runningTwin s.db x.build.drvPath = false ∧
      ∀ t' x', s.txn t' = some x' → x'.progress ≠ .begun → hash x'.build.drvPath = hash x.build.drvPath → t' = t) :
    Inv hash (s.setTxn t x) := by
  have ht : ∀ {t' x'}, (s.setTxn t x).txn t' = some x' → t' = t ∧ x' = x ∨ t' ≠ t ∧ s.txn t' = some x' := by
    intro t' x' h
    rw [txn_setTxn] at h
    split_ifs at h with hc
    · exact .inl ⟨hc, by cases h; rfl⟩
    · exact .inr ⟨hc, h⟩
  constructor
  · exact hI.one
  · intro t₁ t₂ x₁ x₂ h₁ h₂ hp₁ hp₂ hh
    rcases ht h₁ with ⟨rfl, rfl⟩ | ⟨-, g₁⟩ <;> rcases ht h₂ with ⟨rfl, rfl⟩ | ⟨-, g₂⟩
    · rfl
    · exact ((hl hp₁).2 t₂ x₂ g₂ hp₂ hh.symm).symm
    · exact (hl hp₂).2 t₁ x₁ g₁ hp₁ hh
    · exact hI.lock t₁ t₂ x₁ x₂ g₁ g₂ hp₁ hp₂ hh
  · intro t₁ x₁ h₁ hp₁
    rcases ht h₁ with ⟨-, rfl⟩ | ⟨-, h₁⟩
    · exact (hl hp₁).1
    · exact hI.clear t₁ x₁ h₁ hp₁
  · intro t₁ x₁ h₁
    rcases ht h₁ with ⟨-, rfl⟩ | ⟨-, h₁⟩
    · exact hj
    · exact hI.job t₁ x₁ h₁

theorem Inv.write (hI : Inv hash s) {db : Db} (h : StartsNothing s.db db) : Inv hash { s with db := db } :=
  ⟨h.oneRunning hI.one, hI.lock, fun t x hx hp => h.runningTwin (hI.clear t x hx hp),
    fun t x hx => (h.frame.job _).trans (hI.job t x hx)⟩

/-- The rows after a commit: the target's, and those from before. -/
theorem row_commit {id k : Uuid} {now : Time} {b : Build}
    (h : (s.db.updateBuild id (Build.claim now) (Build.toJob_claim now)).builds.get k = some b) :
    k = id ∧ s.db.job k = some b.toJob ∨ k ≠ id ∧ s.db.builds.get k = some b := by
  have hj := (s.db.frame_updateBuild id _ (Build.toJob_claim now)).job k
  rw [Db.job, h] at hj
  rw [Db.get_updateBuild] at h
  split_ifs at h with hk
  · exact .inl ⟨hk, hj.symm⟩
  · exact .inr ⟨hk, h⟩

theorem Inv.commit (hI : Inv hash s) (hx : s.txn t = some x) (hp : x.progress = .updated) :
    Inv hash { s.endTxn t with
      db := s.db.updateBuild x.build.id (Build.claim x.now) (Build.toJob_claim x.now) } := by
  have hpb : x.progress ≠ .begun := by rw [hp]; simp
  have hclear := Builds.runningTwin_eq_false.mp (hI.clear t x hx hpb)
  have hjob : ∀ {k} {b : Build}, k = x.build.id → s.db.job k = some b.toJob → b.drvPath = x.build.drvPath := by
    rintro k b rfl hj
    have := hj.symm.trans (hI.job t x hx)
    simp only [Option.some.injEq] at this
    rw [this]
  have hend := hI.endTxn t
  constructor
  · intro k k' b b' hb hb' hr hr' hd
    rcases row_commit hb with ⟨hk, hj⟩ | ⟨hk, hb⟩ <;> rcases row_commit hb' with ⟨hk', hj'⟩ | ⟨hk', hb'⟩
    · exact hk.trans hk'.symm
    · exact absurd hr' (hclear k' b' hb' (hd.symm.trans (hjob hk hj)))
    · exact absurd hr (hclear k b hb (hd.trans (hjob hk' hj')))
    · exact hI.one k k' b b' hb hb' hr hr' hd
  · exact hend.lock
  · intro t' x' hx' hp'
    rw [Builds.runningTwin_eq_false]
    intro k b hb hd hr
    rcases row_commit hb with ⟨hk, hj⟩ | ⟨hk, hb⟩
    · -- another lock holder has another derivation
      have hxt : (s.endTxn t).txn t' = some x' := hx'
      rw [txn_endTxn] at hxt
      split_ifs at hxt with htt
      exact htt (hI.lock t' t x' x hxt hx hp' hpb (by rw [← hd, hjob hk hj]))
    · exact Builds.runningTwin_eq_false.mp (hend.clear t' x' hx' hp') k b hb hd hr
  · intro t' x' hx'
    exact ((s.db.frame_updateBuild _ _ (Build.toJob_claim x.now)).job _).trans (hend.job t' x' hx')

theorem step_inv (hI : Inv hash s) (hG : FreshAtLock hash s a) (h : step hash s a = some s') : Inv hash s' := by
  cases step_cases h with
  | begin t b now ht hb =>
    exact hI.setTxn (by simp [Db.job, hb]) fun hp => absurd rfl hp
  | lock t x hx hl =>
    exact hI.setTxn (hI.job t x hx) fun _ => ⟨hG x hx hl, fun t' x' hx' hp' hh => not_advisoryLocked hl hx' hp' hh⟩
  | recheck t x hx hp =>
    have hpb : x.progress ≠ .begun := by rw [hp]; simp
    exact hI.setTxn (hI.job t x hx) fun _ => ⟨hI.clear t x hx hpb, fun t' x' hx' hp' hh =>
      hI.lock t' t x' x hx' hx hp' hpb hh⟩
  | commit t x hx hp => exact hI.commit hx hp
  | stay => exact hI
  | stop _ t => exact hI.endTxn t
  | write _ db hw => exact hI.write hw

end Step

/-- **At most one running build per derivation**, in every state of a run in
which no `start` gets the lock after its snapshot has gone stale. -/
theorem one_running {hash : String → ℤ} {db : Db} {as : List Action} {s : State} (h₀ : OneRunning db)
    (hG : Along (step hash) (FreshAtLock hash) { db := db } as) (h : exec (step hash) { db := db } as = some s) :
    OneRunning s.db :=
  (exec_inv (fun _ _ _ hI hG h => step_inv hI hG h) (inv_init h₀) hG h).one

/-! ### Without interruption -/

section Atomic

variable {hash : String → ℤ} {s : State}

/-- A transaction's own progress does not change which locks others hold. -/
theorem advisoryLocked_setTxn (t : ℕ) (x : Txn) (d : String) :
    (s.setTxn t x).advisoryLocked hash t d = s.advisoryLocked hash t d := by
  rw [Bool.eq_iff_iff, advisoryLocked_iff, advisoryLocked_iff]
  constructor <;> rintro ⟨t', x', hx, hne, h⟩ <;> refine ⟨t', x', ?_, hne, h⟩
  · rwa [txn_setTxn, if_neg hne] at hx
  · rwa [txn_setTxn, if_neg hne]

theorem rowLocked_setTxn (t : ℕ) (x : Txn) (id : Uuid) : (s.setTxn t x).rowLocked t id = s.rowLocked t id := by
  rw [Bool.eq_iff_iff, rowLocked_iff, rowLocked_iff]
  constructor <;> rintro ⟨t', x', hx, hne, h⟩ <;> refine ⟨t', x', ?_, hne, h⟩
  · rwa [txn_setTxn, if_neg hne] at hx
  · rwa [txn_setTxn, if_neg hne]

/-- The locks a `start` of `b` asks for are to be had. -/
def State.free (hash : String → ℤ) (s : State) (t : ℕ) (b : Build) : Bool :=
  !s.advisoryLocked hash t b.drvPath && !s.rowLocked t b.id

variable {t : ℕ} {x : Txn}

theorem step_lock (hash : String → ℤ) (hx : s.txn t = some x) (hp : x.progress = .begun) :
    step hash s (.lock t) = some (if s.advisoryLocked hash t x.build.drvPath then s.endTxn t
      else s.setTxn t { x with progress := .locked }) := by
  simp only [step, hx, Option.bind_some, if_pos hp]
  split_ifs <;> rfl

theorem step_recheck (hash : String → ℤ) (hx : s.txn t = some x) (hp : x.progress = .locked)
    (hs : s.db.status x.build.id = some .pending) : step hash s (.recheck t) =
    some (if s.rowLocked t x.build.id then s.endTxn t else s.setTxn t { x with progress := .updated }) := by
  simp only [step, hx, Option.bind_some, if_pos hp, hs, and_true]
  cases s.rowLocked t x.build.id <;> rfl

theorem step_commit (hx : s.txn t = some x) (hp : x.progress = .updated) :
    step hash s (.commit t) = some { s.endTxn t with
      db := s.db.updateBuild x.build.id (Build.claim x.now) (Build.toJob_claim x.now) } := by
  simp only [step, hx, Option.bind_some, if_pos hp]

/-- A transaction that began in `s` and is over leaves the others. -/
theorem txn_endTxn_of_others (ht : s.txn t = none) {s₁ : State} (h₁ : ∀ t', t' ≠ t → s₁.txn t' = s.txn t')
    (t' : ℕ) : (s₁.endTxn t).txn t' = s.txn t' := by
  rw [txn_endTxn]
  split_ifs with h
  · rw [h, ht]
  · exact h₁ t' h

/-- **Run without interruption, the transaction is the statement**: it begins,
comes to its end, at one of its steps, and leaves the database `Builds.start`
leaves. -/
theorem exec_start {t : ℕ} {b : Build} (now : Time) (ht : s.txn t = none) (hb : s.db.builds.get b.id = some b) :
    ∃ rest s', rest <+: [.lock t, .recheck t, .commit t] ∧
      exec (step hash) s (.begin t b.id now :: rest) = some s' ∧ (∀ t', s'.txn t' = s.txn t') ∧
      s'.db = (Builds.start (s.free hash t b) now b.id s.db).2 := by
  have hx : ∀ (s : State) (x : Txn), (s.setTxn t x).txn t = some x := fun s x => by rw [txn_setTxn, if_pos rfl]
  have hset : ∀ (s₁ : State) (x : Txn), (∀ t', t' ≠ t → s₁.txn t' = s.txn t') →
      ∀ t', t' ≠ t → (s₁.setTxn t x).txn t' = s.txn t' := fun s₁ x h₁ t' hne => by
    rw [txn_setTxn, if_neg hne, h₁ t' hne]
  rw [Builds.start_db _ now hb]
  by_cases hq : b.status = .pending ∧ Builds.runningTwin s.db b.drvPath = false
  · have hbegin : step hash s (.begin t b.id now) = some (s.setTxn t { build := b, now := now }) := by
      simp [step, ht, hb, hq]
    have hlock := step_lock hash (hx s { build := b, now := now }) rfl
    rw [advisoryLocked_setTxn] at hlock
    by_cases hl : s.advisoryLocked hash t b.drvPath = true
    · rw [if_pos hl] at hlock
      refine ⟨[.lock t], _, ⟨[.recheck t, .commit t], rfl⟩,
        (exec_cons _).mpr ⟨_, hbegin, (exec_cons _).mpr ⟨_, hlock, rfl⟩⟩,
        txn_endTxn_of_others ht (hset s _ fun _ _ => rfl), ?_⟩
      simp [State.free, hl, Builds.startable, State.endTxn, State.setTxn]
    · rw [if_neg hl] at hlock
      have hcheck := step_recheck hash
        (hx (s.setTxn t { build := b, now := now }) { build := b, now := now, progress := .locked }) rfl
        (Db.status_eq_some.mpr ⟨b, hb, hq.1⟩)
      rw [rowLocked_setTxn, rowLocked_setTxn] at hcheck
      by_cases hr : s.rowLocked t b.id = true
      · rw [if_pos hr] at hcheck
        refine ⟨[.lock t, .recheck t], _, ⟨[.commit t], rfl⟩, (exec_cons _).mpr ⟨_, hbegin,
          (exec_cons _).mpr ⟨_, hlock, (exec_cons _).mpr ⟨_, hcheck, rfl⟩⟩⟩,
          txn_endTxn_of_others ht (hset _ _ (hset s _ fun _ _ => rfl)), ?_⟩
        simp [State.free, hr, Builds.startable, State.endTxn, State.setTxn]
      · rw [if_neg hr] at hcheck
        refine ⟨_, _, List.prefix_rfl, (exec_cons _).mpr ⟨_, hbegin, (exec_cons _).mpr ⟨_, hlock,
          (exec_cons _).mpr ⟨_, hcheck, (exec_cons _).mpr ⟨_, step_commit (hx _ _) rfl, rfl⟩⟩⟩⟩,
          txn_endTxn_of_others ht (hset _ _ (hset _ _ (hset s _ fun _ _ => rfl))), ?_⟩
        rw [if_pos]
        · rfl
        · exact Builds.startable_iff.mpr ⟨hq.1, by simp [State.free, hl, hr], hq.2⟩
  · refine ⟨[], s, List.nil_prefix, by simp [exec, step, ht, hb, hq], fun _ => rfl, ?_⟩
    rw [if_neg]
    rw [Builds.startable_iff]
    exact fun h => hq ⟨h.1, h.2.2⟩

end Atomic

/-! ### Two builds of one derivation -/

/-- Two pending builds of one derivation. -/
def twins : Db :=
  .ofRows [{ id := 1 }] [{ id := 1, jobsetId := 1 }]
    [{ id := 1, evaluationId := 1, drvPath := "a.drv" }, { id := 2, evaluationId := 1, drvPath := "a.drv" }] [] []
    (by decide)

theorem exec_start_twins : ∃ rest s', exec (step fun d => d.length) { db := twins } (.begin 0 1 0 :: rest) = some s' ∧
    s'.txn 0 = none ∧ s'.db.status 1 = some .running := by
  obtain ⟨rest, s', -, hs, htxn, hdb⟩ := @exec_start (fun d => d.length) { db := twins } 0
    { id := 1, evaluationId := 1, drvPath := "a.drv" } 0 rfl rfl
  exact ⟨rest, s', hs, htxn 0, by rw [hdb]; decide⟩

theorem oneRunning_of_pending {db : Db} (h : ∀ b ∈ db.builds.rows, b.status = .pending) : OneRunning db := by
  intro k k' b b' hb _ hr
  rw [h b (Table.mem_of_get hb)] at hr
  cases hr

/-- The second `start` begins while the first holds the lock, and finds it
taken; a third begins once the first build has finished. -/
def inTurn : List Action :=
  [.begin 0 1 0, .lock 0, .begin 1 2 0, .lock 1, .recheck 0, .commit 0,
    .begin 2 2 1, .complete 1 2 (succeededBy none none), .begin 3 2 3, .lock 3, .recheck 3, .commit 3]

theorem one_running_inTurn : ∃ s ∈ exec (step fun d => d.length) { db := twins } inTurn,
    s.db.status 1 = some .succeeded ∧ s.db.status 2 = some .running ∧ OneRunning s.db := by
  obtain ⟨s, hs, h1, h2⟩ : ∃ s ∈ exec (step fun d => d.length) { db := twins } inTurn,
      s.db.status 1 = some .succeeded ∧ s.db.status 2 = some .running := by decide
  exact ⟨s, hs, h1, h2, one_running (oneRunning_of_pending (by decide)) (by decide) hs⟩

/-- The second `start` takes its snapshot before the first commits, and the
lock after. -/
theorem stale_snapshot_runs_twins : OneRunning twins ∧
    ∃ s ∈ exec (step fun d => d.length) { db := twins }
      [.begin 0 1 0, .begin 1 2 0, .lock 0, .recheck 0, .commit 0, .lock 1, .recheck 1, .commit 1],
      s.db.status 1 = some .running ∧ s.db.status 2 = some .running :=
  ⟨oneRunning_of_pending (by decide), by decide⟩

end Circus.StartTransaction
