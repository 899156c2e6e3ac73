/-
# Connections, agents and slots

What holds of the sessions in every run: an open connection with metadata is
registered as the machine of it, the pool points to open connections, every
slot guard and dispatch belongs to metadata that counts it, and a build is
active only where it has been dispatched.

The count of an agent belongs to its metadata, which is its connection's. A
machine that registers again has two counts while the guards of the first are
alive. That no machine has more guards than jobs holds when a slot is taken
only while all guards of its machine belong to the same connection.
-/
import Circus.Rpc.Server

namespace Circus.Rpc

open Function (update)

theorem update_eq_some {α β : Type} [DecidableEq α] {f : α → Option β} {k k' : α} {v : Option β} {x : β} :
    update f k v k' = some x ↔ k' = k ∧ v = some x ∨ k' ≠ k ∧ f k' = some x := by
  by_cases hk : k' = k
  · subst hk
    simp
  · simp [hk]

theorem isSome_update {α β : Type} [DecidableEq α] {f : α → Option β} {k k' : α} {x : β} (h : (f k').isSome = true) :
    (update f k (some x) k').isSome = true := by
  by_cases hk : k' = k
  · simp [hk]
  · simpa [hk] using h

namespace Sessions

/-- The live slot guards of the metadata of a connection. -/
def guards (s : Sessions) (k : ℕ) : ℕ := s.reserved.count k + (s.flights.map Prod.fst).count k

/-- What holds in every run. -/
structure Valid (s : Sessions) : Prop where
  connection_lt : ∀ {k conn}, s.connections k = some conn → k < s.accepted
  agent_lt : ∀ {k a}, s.agents k = some a → k < s.accepted
  agent : ∀ {k a conn}, s.agents k = some a → s.connections k = some conn →
    conn.registered = some a.machineId ∧ conn.registering = none
  registering : ∀ {k conn info authKind}, s.connections k = some conn → conn.registering = some (info, authKind) →
    conn.registered = some info.machineId
  pool : ∀ {m k}, s.pool m = some k → s.machine k = some m ∧ (s.connections k).isSome = true
  reserved : ∀ {k}, k ∈ s.reserved → (s.agents k).isSome = true
  flight : ∀ {k b}, (k, b) ∈ s.flights → (s.agents k).isSome = true
  active : ∀ {k a b}, s.agents k = some a → b ∈ a.activeBuilds → (k, b) ∈ s.flights
  currentJobs : ∀ {k a}, s.agents k = some a → a.currentJobs = s.guards k
  currentJobs_le : ∀ {k a}, s.agents k = some a → a.currentJobs ≤ a.maxJobs

theorem Valid.init : Valid {} where
  connection_lt h := by cases h
  agent_lt h := by cases h
  agent h := by cases h
  registering h := by cases h
  pool h := by cases h
  reserved h := by cases h
  flight h := by cases h
  active h := by cases h
  currentJobs h := by cases h
  currentJobs_le h := by cases h

variable {s : Sessions} {k : ℕ}

variable {k' : ℕ} {f : AgentMeta → AgentMeta}

theorem modifyAgent_eq_some {a' : AgentMeta} :
    s.modifyAgent k f k' = some a' ↔ ∃ a, s.agents k' = some a ∧ (if k' = k then f a else a) = a' := by
  unfold modifyAgent
  by_cases hk : k' = k
  · subst hk
    simp
  · simp [hk]

theorem isSome_modifyAgent :
    (s.modifyAgent k f k').isSome = (s.agents k').isSome := by
  unfold modifyAgent
  by_cases hk : k' = k
  · subst hk
    simp
  · simp [hk]

theorem machine_modifyAgent
    (hf : ∀ a, (f a).machineId = a.machineId) : (s.modifyAgent k f k').map (fun a => a.machineId) = s.machine k' := by
  unfold modifyAgent machine
  by_cases hk : k' = k
  · subst hk
    simp [Function.comp_def, hf]
  · simp [hk]

/-- A change to one agent, and to its guards and dispatches with it. -/
theorem Valid.modify (h : s.Valid) {reserved : List ℕ}
    {flights : List (ℕ × Uuid)} (hid : ∀ a, (f a).machineId = a.machineId) (hmax : ∀ a, (f a).maxJobs = a.maxJobs)
    (hres : ∀ k' ∈ reserved, (s.agents k').isSome = true)
    (hflight : ∀ k' b, (k', b) ∈ flights → (s.agents k').isSome = true)
    (hkept : ∀ k' b, k' ≠ k → (k', b) ∈ s.flights → (k', b) ∈ flights)
    (hactive : ∀ a b, s.agents k = some a → b ∈ (f a).activeBuilds → (k, b) ∈ flights)
    (hothers : ∀ k', k' ≠ k → reserved.count k' + (flights.map Prod.fst).count k' = s.guards k')
    (hcount : ∀ a, s.agents k = some a → (f a).currentJobs = reserved.count k + (flights.map Prod.fst).count k)
    (hle : ∀ a, s.agents k = some a → (f a).currentJobs ≤ a.maxJobs) :
    Valid { s with agents := s.modifyAgent k f, reserved := reserved, flights := flights } where
  connection_lt := h.connection_lt
  agent_lt ha := by
    obtain ⟨a, ha, -⟩ := modifyAgent_eq_some.mp ha
    exact h.agent_lt ha
  agent ha hc := by
    obtain ⟨a, ha₀, rfl⟩ := modifyAgent_eq_some.mp ha
    have := h.agent ha₀ hc
    split_ifs
    · rwa [hid]
    · exact this
  registering := h.registering
  pool hp := ⟨(machine_modifyAgent hid).trans (h.pool hp).1, (h.pool hp).2⟩
  reserved hk := isSome_modifyAgent.trans (hres _ hk)
  flight hb := isSome_modifyAgent.trans (hflight _ _ hb)
  active ha hb := by
    obtain ⟨a, ha₀, rfl⟩ := modifyAgent_eq_some.mp ha
    split_ifs at hb with hk
    · exact hk ▸ hactive a _ (hk ▸ ha₀) hb
    · exact hkept _ _ hk (h.active ha₀ hb)
  currentJobs {k'} _ ha := by
    obtain ⟨a, ha₀, rfl⟩ := modifyAgent_eq_some.mp ha
    change _ = reserved.count k' + (flights.map Prod.fst).count k'
    split_ifs with hk
    · exact hk ▸ hcount a (hk ▸ ha₀)
    · rw [hothers k' hk, h.currentJobs ha₀]
  currentJobs_le ha := by
    obtain ⟨a, ha₀, rfl⟩ := modifyAgent_eq_some.mp ha
    split_ifs with hk
    · rw [hmax]
      exact hle a (hk ▸ ha₀)
    · exact h.currentJobs_le ha₀

variable {conn : Connection}

/-- A change to an open connection that keeps what it is registered as, or to
one without metadata. -/
theorem Valid.connection (h : s.Valid) {conn' : Connection}
    (hk : s.connections k = some conn)
    (hagent : ∀ a, s.agents k = some a → conn'.registered = some a.machineId ∧ conn'.registering = none)
    (hreg : ∀ info authKind, conn'.registering = some (info, authKind) → conn'.registered = some info.machineId) :
    Valid { s with connections := update s.connections k (some conn') } where
  connection_lt hc := by
    rcases update_eq_some.mp hc with ⟨rfl, -⟩ | ⟨-, hc⟩
    · exact h.connection_lt hk
    · exact h.connection_lt hc
  agent_lt := h.agent_lt
  agent ha hc := by
    rcases update_eq_some.mp hc with ⟨rfl, he⟩ | ⟨-, hc⟩
    · exact Option.some.inj he ▸ hagent _ ha
    · exact h.agent ha hc
  registering hc hr := by
    rcases update_eq_some.mp hc with ⟨rfl, he⟩ | ⟨-, hc⟩
    · cases he
      exact hreg _ _ hr
    · exact h.registering hc hr
  pool hp := ⟨(h.pool hp).1, isSome_update (h.pool hp).2⟩
  __ := h

/-- A connection that is registering has no metadata, guards or dispatches. -/
theorem Valid.agents_of_registering (h : s.Valid) {r : AgentInfo × AuthKind}
    (hk : s.connections k = some conn) (hr : conn.registering = some r) : s.agents k = none := by
  refine Option.eq_none_iff_forall_ne_some.mpr fun a ha => ?_
  rw [(h.agent ha hk).2] at hr
  cases hr

theorem Valid.agents_of_unregistered (h : s.Valid)
    (hk : s.connections k = some conn) (hn : conn.registered = none) : s.agents k = none := by
  refine Option.eq_none_iff_forall_ne_some.mpr fun a ha => ?_
  rw [(h.agent ha hk).1] at hn
  cases hn

theorem Valid.guards_eq_zero (h : s.Valid) (hk : s.agents k = none) : s.guards k = 0 := by
  have hres : k ∉ s.reserved := fun hm => by simpa [hk] using h.reserved hm
  have hflight : k ∉ s.flights.map Prod.fst := fun hm => by
    obtain ⟨⟨k', b⟩, hf, rfl⟩ := List.mem_map.mp hm
    simpa [hk] using h.flight hf
  rw [guards, List.count_eq_zero.mpr hres, List.count_eq_zero.mpr hflight]

/-- The metadata of a connection that had none. -/
theorem Valid.insert (h : s.Valid) {a : AgentMeta}
    (hk : s.connections k = some conn) (hn : s.agents k = none) (hr : conn.registered = some a.machineId)
    (hr' : conn.registering = none) (hj : a.currentJobs = 0) (hb : a.activeBuilds = ∅) :
    Valid { s with agents := update s.agents k (some a), pool := update s.pool a.machineId (some k) } where
  connection_lt := h.connection_lt
  agent_lt ha := by
    rcases update_eq_some.mp ha with ⟨rfl, -⟩ | ⟨-, ha⟩
    · exact h.connection_lt hk
    · exact h.agent_lt ha
  agent ha hc := by
    rcases update_eq_some.mp ha with ⟨rfl, he⟩ | ⟨-, ha⟩
    · cases he
      obtain rfl := Option.some.inj (hk.symm.trans hc)
      exact ⟨hr, hr'⟩
    · exact h.agent ha hc
  registering := h.registering
  pool {m k'} hp := by
    rcases update_eq_some.mp hp with ⟨rfl, he⟩ | ⟨-, hp⟩
    · cases he
      simp [machine, hk]
    · obtain ⟨hm, hc⟩ := h.pool hp
      have hkk : k' ≠ k := by
        rintro rfl
        rw [machine, hn] at hm
        cases hm
      exact ⟨by simpa [machine, hkk] using hm, hc⟩
  reserved hm := isSome_update (h.reserved hm)
  flight hm := isSome_update (h.flight hm)
  active ha hm := by
    rcases update_eq_some.mp ha with ⟨rfl, he⟩ | ⟨-, ha⟩
    · cases he
      rw [hb] at hm
      cases hm
    · exact h.active ha hm
  currentJobs ha := by
    rcases update_eq_some.mp ha with ⟨rfl, he⟩ | ⟨-, ha⟩
    · cases he
      exact hj.trans (h.guards_eq_zero hn).symm
    · exact h.currentJobs ha
  currentJobs_le ha := by
    rcases update_eq_some.mp ha with ⟨rfl, he⟩ | ⟨-, ha⟩
    · cases he
      exact hj ▸ Nat.zero_le _
    · exact h.currentJobs_le ha

theorem removeIfConnection_eq_some {pool : Uuid → Option ℕ} {m m' : Uuid} :
    removeIfConnection pool m k m' = some k' ↔ pool m' = some k' ∧ (m' = m → k' ≠ k) := by
  unfold removeIfConnection
  by_cases hm : m' = m
  · subst hm
    split_ifs with hp
    · simp [hp, eq_comm]
    · refine ⟨fun h => ⟨h, fun _ hk => hp (hk ▸ h)⟩, fun h => h.1⟩
  · split_ifs with hp <;> simp [hm]

theorem Valid.disconnect (h : s.Valid) (hk : s.connections k = some conn) :
    Valid { s with
      connections := update s.connections k none
      pool := conn.registered.elim s.pool fun m => removeIfConnection s.pool m k } where
  connection_lt hc := by
    rcases update_eq_some.mp hc with ⟨-, hc⟩ | ⟨-, hc⟩
    · cases hc
    · exact h.connection_lt hc
  agent_lt := h.agent_lt
  agent ha hc := by
    rcases update_eq_some.mp hc with ⟨-, hc⟩ | ⟨-, hc⟩
    · cases hc
    · exact h.agent ha hc
  registering hc hr := by
    rcases update_eq_some.mp hc with ⟨-, hc⟩ | ⟨-, hc⟩
    · cases hc
    · exact h.registering hc hr
  pool {m k'} hp := by
    -- what the pool had for the machine, and not for this connection
    have hold : s.pool m = some k' ∧ k' ≠ k := by
      have hreg : s.pool m = some k' → k' = k → conn.registered = some m := fun hp hkk => by
        obtain ⟨a, ha, rfl⟩ := Option.map_eq_some_iff.mp (h.pool hp).1
        exact (h.agent (hkk ▸ ha) hk).1
      cases hr : conn.registered with
      | none =>
        rw [hr] at hp hreg
        exact ⟨hp, fun hkk => by cases hreg hp hkk⟩
      | some =>
        rw [hr] at hp hreg
        obtain ⟨hp, hne⟩ := removeIfConnection_eq_some.mp hp
        exact ⟨hp, fun hkk => hne (Option.some.inj (hreg hp hkk)).symm hkk⟩
    refine ⟨(h.pool hold.1).1, ?_⟩
    simpa [hold.2] using (h.pool hold.1).2
  __ := h

theorem Valid.accept (h : s.Valid) (peerCert : PeerCertIdentity) :
    Valid { s with
      accepted := s.accepted + 1
      connections := update s.connections s.accepted (some { peerCert := peerCert }) } where
  connection_lt hc := by
    rcases update_eq_some.mp hc with ⟨rfl, -⟩ | ⟨-, hc⟩
    · exact Nat.lt_succ_self _
    · exact (h.connection_lt hc).trans (Nat.lt_succ_self _)
  agent_lt ha := (h.agent_lt ha).trans (Nat.lt_succ_self _)
  agent ha hc := by
    rcases update_eq_some.mp hc with ⟨rfl, -⟩ | ⟨-, hc⟩
    · exact absurd (h.agent_lt ha) (lt_irrefl _)
    · exact h.agent ha hc
  registering hc hr := by
    rcases update_eq_some.mp hc with ⟨-, hc⟩ | ⟨-, hc⟩
    · cases hc
      cases hr
    · exact h.registering hc hr
  pool hp := ⟨(h.pool hp).1, isSome_update (h.pool hp).2⟩
  __ := h

variable {b : Uuid}

theorem count_map_fst_erase {flights : List (ℕ × Uuid)} (h : (k, b) ∈ flights) (k' : ℕ) :
    ((flights.erase (k, b)).map Prod.fst).count k' = (flights.map Prod.fst).count k' - if k' = k then 1 else 0 := by
  have hperm := (List.perm_cons_erase h).map Prod.fst
  rw [hperm.count_eq, List.map_cons, List.count_cons]
  by_cases hk : k' = k
  · simp [hk]
  · simp [hk, Ne.symm hk]

theorem Valid.acquire (h : s.Valid) {a : AgentMeta} (ha : s.agents k = some a)
    (hlt : a.currentJobs < a.maxJobs) :
    Valid { s with agents := s.modifyAgent k AgentMeta.acquire, reserved := k :: s.reserved } := by
  refine h.modify (fun _ => rfl) (fun _ => rfl) (fun k' hm => ?_) (fun _ _ => h.flight) (fun _ _ _ hf => hf)
    (fun _ _ ha' hb => h.active ha' hb) (fun k' hk => ?_) (fun a' ha' => ?_) fun a' ha' => ?_
  · rcases List.mem_cons.mp hm with rfl | hm
    · simp [ha]
    · exact h.reserved hm
  · rw [List.count_cons_of_ne (Ne.symm hk), guards]
  · have hjobs : a'.currentJobs = s.guards k := h.currentJobs ha'
    rw [guards] at hjobs
    change a'.currentJobs + 1 = _
    rw [List.count_cons_self]
    omega
  · rw [ha] at ha'
    cases ha'
    exact hlt

theorem Valid.release (h : s.Valid) (hk : k ∈ s.reserved) :
    Valid { s with agents := s.modifyAgent k AgentMeta.release, reserved := s.reserved.erase k } := by
  refine h.modify (fun _ => rfl) (fun _ => rfl) (fun _ hm => h.reserved (List.mem_of_mem_erase hm))
    (fun _ _ => h.flight) (fun _ _ _ hf => hf) (fun _ _ ha' hb => h.active ha' hb) (fun k' hk' => ?_)
    (fun a' ha' => ?_) fun a' ha' => (Nat.sub_le _ _).trans (h.currentJobs_le ha')
  · rw [List.count_erase_of_ne hk', guards]
  · have hjobs : a'.currentJobs = s.guards k := h.currentJobs ha'
    have hpos := List.count_pos_iff.mpr hk
    rw [guards] at hjobs
    change a'.currentJobs - 1 = _
    rw [List.count_erase_self]
    omega

/-- The guard of a dispatch goes from those that wait to those in flight. -/
theorem Valid.dispatch (h : s.Valid) (hk : k ∈ s.reserved) :
    Valid { s with
      agents := s.modifyAgent k (AgentMeta.dispatch b)
      reserved := s.reserved.erase k
      flights := (k, b) :: s.flights } := by
  refine h.modify (fun _ => rfl) (fun _ => rfl) (fun _ hm => h.reserved (List.mem_of_mem_erase hm))
    (fun k' b' hm => ?_) (fun _ _ _ hf => List.mem_cons_of_mem _ hf) (fun a' b' ha' hb => ?_) (fun k' hk' => ?_)
    (fun a' ha' => ?_) fun a' ha' => show a'.currentJobs ≤ a'.maxJobs from h.currentJobs_le ha'
  · rcases List.mem_cons.mp hm with hm | hm
    · obtain ⟨rfl, -⟩ := Prod.mk.inj hm
      exact h.reserved hk
    · exact h.flight hm
  · rcases Finset.mem_insert.mp hb with rfl | hb
    · exact List.mem_cons_self
    · exact List.mem_cons_of_mem _ (h.active ha' hb)
  · rw [List.count_erase_of_ne hk', List.map_cons, List.count_cons_of_ne (Ne.symm hk'), guards]
  · have hjobs : a'.currentJobs = s.guards k := h.currentJobs ha'
    have hpos := List.count_pos_iff.mpr hk
    rw [guards] at hjobs
    change a'.currentJobs = _
    rw [List.count_erase_self, List.map_cons, List.count_cons_self]
    omega

theorem Valid.finish (h : s.Valid) (hf : (k, b) ∈ s.flights) :
    Valid { s with agents := s.modifyAgent k (AgentMeta.finish b), flights := s.flights.erase (k, b) } := by
  refine h.modify (fun _ => rfl) (fun _ => rfl) (fun _ => h.reserved)
    (fun _ _ hm => h.flight (List.mem_of_mem_erase hm)) (fun k' b' hk' hf' => ?_) (fun a' b' ha' hb => ?_)
    (fun k' hk' => ?_) (fun a' ha' => ?_) fun a' ha' => (Nat.sub_le _ _).trans (h.currentJobs_le ha')
  · exact (List.mem_erase_of_ne fun hc => hk' (Prod.mk.inj hc).1).mpr hf'
  · obtain ⟨hne, hb⟩ := Finset.mem_erase.mp hb
    exact (List.mem_erase_of_ne fun hc => hne (Prod.mk.inj hc).2).mpr (h.active ha' hb)
  · rw [count_map_fst_erase hf, if_neg hk', guards, Nat.sub_zero]
  · have hjobs : a'.currentJobs = s.guards k := h.currentJobs ha'
    have hpos : 0 < (s.flights.map Prod.fst).count k := List.count_pos_iff.mpr (List.mem_map.mpr ⟨_, hf, rfl⟩)
    rw [guards] at hjobs
    change a'.currentJobs - 1 = _
    rw [count_map_fst_erase hf, if_pos rfl]
    omega

/-- **Every step keeps the sessions valid.** -/
theorem Valid.step {d : Deployment} {s s' : State} {a : Action} (h : s.toSessions.Valid) (he : Effect d s a s') :
    s'.toSessions.Valid := by
  cases he with
  | same | tick | started | presigned | verified | persisted | dropped | put => exact h
  | accept peerCert => exact h.accept peerCert
  | register hk hn =>
    refine h.connection hk (fun a ha => ?_) fun info authKind hr => ?_
    · rw [h.agents_of_unregistered hk hn] at ha
      cases ha
    · obtain ⟨rfl, -⟩ := Prod.mk.inj (Option.some.inj hr)
      rfl
  | @registered k conn info authKind hk hr =>
    have hn := h.agents_of_registering hk hr
    have hreg : conn.registered = some info.machineId := h.registering hk hr
    have hconn : Valid { s.toSessions with
        connections := update s.connections k (some { conn with registering := none }) } := by
      refine h.connection hk (fun a ha => ?_) fun _ _ hr => by cases hr
      rw [hn] at ha
      cases ha
    exact hconn.insert (Function.update_self _ _ _) hn hreg rfl rfl rfl
  | unregistered hk hr =>
    refine h.connection hk (fun a ha => ?_) fun _ _ hr => by cases hr
    rw [h.agents_of_registering hk hr] at ha
    cases ha
  | disconnect hk => exact h.disconnect hk
  | acquire ha hlt => exact h.acquire ha hlt
  | release hk => exact h.release hk
  | dispatch hk => exact h.dispatch hk
  | finish hf => exact h.finish hf

end Sessions

/-- The sessions are valid wherever a run ends. -/
theorem sessions_valid {d : Deployment} {as : List Action} {s : State}
    (h : Lts.exec (step d) {} as = some s) : s.toSessions.Valid := by
  have hstep : ∀ s a s', s.toSessions.Valid → True → step d s a = some s' → s'.toSessions.Valid :=
    fun _ _ _ h _ hs => h.step (effect_of_step hs)
  exact Lts.exec_inv hstep Sessions.Valid.init (Lts.Along.of_mem fun _ _ _ => trivial) h

/-! ### The jobs of a machine -/

namespace Sessions

/-- The connection of every live slot guard. -/
def allGuards (s : Sessions) : List ℕ := s.reserved ++ s.flights.map Prod.fst

/-- The live slot guards over all metadata of a machine. -/
def liveGuards (s : Sessions) (m : Uuid) : ℕ := s.allGuards.countP fun k => decide (s.machine k = some m)

variable {s : Sessions}

theorem liveGuards_le {s' : Sessions} (hm : ∀ k ∈ s'.allGuards, s'.machine k = s.machine k)
    (hsub : s'.allGuards.Subperm s.allGuards) (m : Uuid) : s'.liveGuards m ≤ s.liveGuards m := by
  unfold liveGuards
  rw [List.countP_congr fun k hk => by rw [hm k hk]]
  exact hsub.countP_le _

theorem isSome_of_mem_allGuards (h : s.Valid) {k : ℕ} (hk : k ∈ s.allGuards) :
    (s.agents k).isSome = true := by
  rcases List.mem_append.mp hk with hk | hk
  · exact h.reserved hk
  · obtain ⟨⟨k', b⟩, hf, rfl⟩ := List.mem_map.mp hk
    exact h.flight hf

/-- A slot is taken only while every guard of its machine is of the same metadata. -/
def OneMeta (s : Sessions) : Action → Prop
  | .acquire k => ∀ k' ∈ s.allGuards, s.machine k' = s.machine k → k' = k
  | _ => True

instance (s : Sessions) (a : Action) : Decidable (s.OneMeta a) := by
  cases a <;> dsimp only [OneMeta] <;> infer_instance

/-- A slot that is taken is one guard more of its machine. -/
theorem liveGuards_acquire (s : Sessions) (k : ℕ) (m : Uuid) :
    liveGuards { s with agents := s.modifyAgent k AgentMeta.acquire, reserved := k :: s.reserved } m =
      s.liveGuards m + if s.machine k = some m then 1 else 0 := by
  have hmach : ∀ k', machine { s with agents := s.modifyAgent k AgentMeta.acquire, reserved := k :: s.reserved } k' =
      s.machine k' := fun k' => machine_modifyAgent fun _ => rfl
  simp only [liveGuards, allGuards, hmach, List.cons_append, List.countP_cons, decide_eq_true_eq]

variable {m : Uuid}

/-- Where all guards of a machine are of one metadata, that metadata counts them. -/
theorem liveGuards_eq {k : ℕ} (hk : s.machine k = some m)
    (h : ∀ k' ∈ s.allGuards, s.machine k' = s.machine k → k' = k) : s.liveGuards m = s.guards k := by
  unfold liveGuards guards
  rw [← List.count_append, List.count, ← allGuards]
  refine List.countP_congr fun k' hk' => ?_
  rw [decide_eq_true_eq, beq_iff_eq]
  refine ⟨fun hm => h k' hk' (hm.trans hk.symm), ?_⟩
  rintro rfl
  exact hk

/-- Only `try_acquire_slot` makes a guard. -/
theorem liveGuards_of_effect {d : Deployment} {s s' : State} {a : Action} (h : s.toSessions.Valid)
    (he : Effect d s a s') (ha : ∀ k, a ≠ .acquire k) (m : Uuid) : s'.liveGuards m ≤ s.liveGuards m := by
  cases he with
  | same | tick | started | presigned | verified | persisted | dropped | put | accept | register | unregistered
  | disconnect => exact le_rfl
  | acquire => exact absurd rfl (ha _)
  | @registered k conn info authKind hk hr =>
    refine liveGuards_le (fun k' hk' => ?_) ?_ m
    · have hkk : k' ≠ k := by
        rintro rfl
        have := isSome_of_mem_allGuards h hk'
        rw [h.agents_of_registering hk hr] at this
        cases this
      simp [machine, hkk]
    · exact List.Subperm.refl _
  | release =>
    refine liveGuards_le (fun _ _ => ?_) ?_ m
    · exact machine_modifyAgent (f := AgentMeta.release) fun _ => rfl
    · exact (List.erase_sublist.append_right _).subperm
  | @dispatch k b hk =>
    refine liveGuards_le (fun _ _ => ?_) ?_ m
    · exact machine_modifyAgent (f := AgentMeta.dispatch b) fun _ => rfl
    · have hmove : (s.reserved.erase k ++ k :: s.flights.map Prod.fst).Perm s.allGuards :=
        List.perm_middle.trans ((List.perm_cons_erase hk).symm.append_right _)
      exact hmove.subperm
  | @finish k b hf =>
    refine liveGuards_le (fun _ _ => ?_) ?_ m
    · exact machine_modifyAgent (f := AgentMeta.finish b) fun _ => rfl
    · exact ((List.erase_sublist.map _).append_left _).subperm

/-- Machine `m` has registered with `j` jobs, whenever it has. -/
structure Jobs (m : Uuid) (j : ℕ) (s : Sessions) : Prop where
  agent : ∀ {k a}, s.agents k = some a → a.machineId = m → a.maxJobs = j
  registering : ∀ {k conn info authKind}, s.connections k = some conn → conn.registering = some (info, authKind) →
    info.machineId = m → info.maxJobs = j

variable {j : ℕ}

theorem Jobs.modify (h : s.Jobs m j) {k : ℕ} {f : AgentMeta → AgentMeta}
    (hid : ∀ a, (f a).machineId = a.machineId) (hmax : ∀ a, (f a).maxJobs = a.maxJobs) (reserved : List ℕ)
    (flights : List (ℕ × Uuid)) :
    Jobs m j { s with agents := s.modifyAgent k f, reserved := reserved, flights := flights } where
  agent ha hm := by
    obtain ⟨a, ha₀, rfl⟩ := modifyAgent_eq_some.mp ha
    split_ifs at hm ⊢
    · rw [hmax]
      exact h.agent ha₀ ((hid a).symm.trans hm)
    · exact h.agent ha₀ hm
  registering := h.registering

/-- The registration of a connection changes. -/
theorem registering_of_update (h : s.Jobs m j) {k : ℕ} {conn : Option Connection}
    (hreg : ∀ c info authKind, conn = some c → c.registering = some (info, authKind) → info.machineId = m →
      info.maxJobs = j) {k' : ℕ} {c : Connection} {info : AgentInfo} {authKind : AuthKind}
    (hc : update s.connections k conn k' = some c) (hr : c.registering = some (info, authKind))
    (hm : info.machineId = m) : info.maxJobs = j := by
  rcases update_eq_some.mp hc with ⟨-, hc⟩ | ⟨-, hc⟩
  · exact hreg _ _ _ hc hr hm
  · exact h.registering hc hr hm

theorem Jobs.step {d : Deployment} {s s' : State} {a : Action} (h : s.toSessions.Jobs m j)
    (hj : ∀ k info, a = .register k info → info.machineId = m → info.maxJobs = j) (he : Effect d s a s') :
    s'.toSessions.Jobs m j := by
  cases he with
  | same | tick | started | presigned | verified | persisted | dropped | put => exact h
  | accept =>
    refine ⟨h.agent, registering_of_update h fun c info authKind hc hr => ?_⟩
    cases hc
    cases hr
  | register =>
    refine ⟨h.agent, registering_of_update h fun c info authKind hc hr hm => ?_⟩
    cases hc
    obtain ⟨rfl, -⟩ := Prod.mk.inj (Option.some.inj hr)
    exact hj _ _ rfl hm
  | @registered k conn info authKind hk hr =>
    refine ⟨fun ha hm => ?_, registering_of_update h fun c info authKind hc hr => ?_⟩
    · rcases update_eq_some.mp ha with ⟨-, ha⟩ | ⟨-, ha⟩
      · cases ha
        exact h.registering hk hr hm
      · exact h.agent ha hm
    · cases hc
      cases hr
  | unregistered hk hr =>
    refine ⟨h.agent, registering_of_update h fun c info authKind hc hr => ?_⟩
    cases hc
    cases hr
  | disconnect =>
    refine ⟨h.agent, registering_of_update h fun c info authKind hc => ?_⟩
    cases hc
  | acquire => exact h.modify (f := AgentMeta.acquire) (fun _ => rfl) (fun _ => rfl) _ _
  | release => exact h.modify (f := AgentMeta.release) (fun _ => rfl) (fun _ => rfl) _ _
  | @dispatch k b hk => exact h.modify (f := AgentMeta.dispatch b) (fun _ => rfl) (fun _ => rfl) _ _
  | @finish k b hf => exact h.modify (f := AgentMeta.finish b) (fun _ => rfl) (fun _ => rfl) _ _

end Sessions

/-- The bound, and what it rests on. -/
structure Bounded (m : Uuid) (j : ℕ) (s : State) : Prop where
  valid : s.toSessions.Valid
  jobs : s.toSessions.Jobs m j
  le : s.liveGuards m ≤ j

theorem Bounded.step {d : Deployment} {m : Uuid} {j : ℕ} {s s' : State} {a : Action} (h : Bounded m j s)
    (hj : ∀ k info, a = .register k info → info.machineId = m → info.maxJobs = j) (hg : s.OneMeta a)
    (he : Effect d s a s') : Bounded m j s' := by
  have hv := h.valid.step he
  have hjobs := h.jobs.step hj he
  refine ⟨hv, hjobs, ?_⟩
  by_cases ha : ∃ k, a = .acquire k
  · obtain ⟨k, rfl⟩ := ha
    cases he with
    | same => exact h.le
    | started hs => cases hs
    | dropped => exact h.le
    | @acquire _ a ha hlt =>
      have hnew := Sessions.liveGuards_acquire s.toSessions k m
      split_ifs at hnew with hm
      · -- all guards of the machine are of this metadata, which counts one more
        have hcount := h.valid.currentJobs ha
        have hmax : a.maxJobs = j := h.jobs.agent ha (Option.some.inj ((congrArg _ ha).symm.trans hm))
        rw [← Sessions.liveGuards_eq hm hg] at hcount
        change Sessions.liveGuards _ m ≤ j
        rw [hnew]
        omega
      · exact hnew.le.trans h.le
  · exact (Sessions.liveGuards_of_effect h.valid he (fun k hk => ha ⟨k, hk⟩) m).trans h.le

/-- **The jobs of a machine.** If a machine always registers with the same
number of jobs, and slots are taken only while every guard of the machine is
of the same metadata, the machine has no more guards than jobs; and a
connection that has been replaced does not take the current one out of the
pool when it closes. -/
theorem live_guards_le_max_jobs {d : Deployment} {as : List Action} {s : State} {m : Uuid} {j : ℕ}
    (hjobs : ∀ k info, .register k info ∈ as → info.machineId = m → info.maxJobs = j)
    (hal : Lts.Along (step d) (fun s a => s.OneMeta a) {} as) (hrun : Lts.exec (step d) {} as = some s) :
    s.liveGuards m ≤ j ∧ ∀ k k' s', s.pool m = some k' → k ≠ k' → step d s (.disconnect k) = some s' →
      s'.pool m = some k' := by
  have hinit : Bounded m j {} := ⟨.init, ⟨(by cases ·), (by cases ·)⟩, Nat.zero_le _⟩
  have hreg : Lts.Along (step d) (fun _ a => ∀ k info, a = .register k info → info.machineId = m → info.maxJobs = j) {}
      as := Lts.Along.of_mem fun a ha _ k info he => hjobs k info (he ▸ ha)
  have hstep : ∀ s a s', Bounded m j s → (s.OneMeta a ∧ ∀ k info, a = .register k info → info.machineId = m →
      info.maxJobs = j) → step d s a = some s' → Bounded m j s' :=
    fun _ _ _ h hP hs => h.step hP.2 hP.1 (effect_of_step hs)
  refine ⟨(Lts.exec_inv hstep hinit (hal.and hreg) hrun).le, fun k k' s' hp hne hs => ?_⟩
  cases effect_of_step hs with
  | same => exact hp
  | started hstart => cases hstart
  | dropped => exact hp
  | @disconnect _ conn hk =>
    cases hr : conn.registered with
    | none => exact hp
    | some => exact Sessions.removeIfConnection_eq_some.mpr ⟨hp, fun _ => hne.symm⟩

/-- A machine with one job, whose guard is dropped before it registers again. -/
def reconnecting : List Action :=
  .flatten [connectAs 0 7, [.acquire 0, .release 0], connectAs 1 7, [.acquire 1]]

theorem live_guards_le_reconnecting : ∃ s ∈ Lts.exec (step smallDeployment) {} reconnecting,
    1 ∈ s.allGuards ∧ s.liveGuards 7 ≤ 1 := by
  have hal : Lts.Along (step smallDeployment) (fun s a => s.OneMeta a) {} reconnecting := by decide
  have hrun : ∃ s ∈ Lts.exec (step smallDeployment) {} reconnecting, 1 ∈ s.allGuards := by decide
  obtain ⟨s, hs, h1⟩ := hrun
  refine ⟨s, hs, h1, (live_guards_le_max_jobs (fun k info h _ => ?_) hal hs).1⟩
  have hinfo : k = 0 ∧ info = smallAgent 7 ∨ k = 1 ∧ info = smallAgent 7 := by
    simpa [reconnecting, connectAs] using h
  rcases hinfo with ⟨-, rfl⟩ | ⟨-, rfl⟩ <;> rfl

theorem sessions_valid_reconnecting :
    ∃ s ∈ Lts.exec (step smallDeployment) {} reconnecting, s.reserved = [1] ∧ s.toSessions.Valid :=
  ⟨_, rfl, by decide, @sessions_valid smallDeployment reconnecting _ rfl⟩

/-- The guard of the first connection is alive when the second gets its count. -/
theorem guards_of_two_connections : ∃ s ∈ Lts.exec (step smallDeployment) {}
    (.flatten [connectAs 0 7, [.acquire 0], connectAs 1 7, [.acquire 1]]),
    (smallAgent 7).maxJobs = 1 ∧ s.liveGuards 7 = 2 := by
  decide

end Circus.Rpc
