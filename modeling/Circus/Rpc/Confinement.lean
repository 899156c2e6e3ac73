/-
# Calls reach the builds of their own connection

`request_presigned_urls`, `notify_upload_complete` and `fetch_drv_closure`
look the agent up in the pool, by the machine the connection is registered as.
The pool, and the uploads that are expected, are keyed by machine and not by
connection. So a call is about a dispatch of its own connection if a machine
has one connection at a time: it registers again only when no other connection
is registered as it and nothing that an earlier one was given is in flight.
And since a call is checked before it waits, the dispatch has to outlast it.
-/
import Circus.Rpc.Sessions

namespace Circus.Rpc

open Function (update)

/-- A registration that is accepted finds no other connection of the machine
and no dispatch to it; a dispatch does not end under a call. -/
def OneConnection (d : Deployment) (s : State) : Action → Prop
  | .register k info => (∃ conn ∈ s.connections k, (register d.toServerConfig conn info).isOk = true) →
      (∀ k' < s.accepted, s.registered k' ≠ some info.machineId) ∧
        ∀ f ∈ s.flights, s.machine f.1 ≠ some info.machineId
  | .finish k b => ∀ c ∈ s.calls, c.connection = k → c.buildId ≠ b
  | _ => True

instance (d : Deployment) (s : State) (a : Action) : Decidable (OneConnection d s a) := by
  induction a using Action.casesOn <;> dsimp only [OneConnection] <;> infer_instance

/-- What is known of uploads and calls in such runs. -/
structure Confined (s : State) : Prop where
  valid : s.toSessions.Valid
  /-- A machine has one connection. -/
  one : ∀ {k k' m}, s.registered k = some m → s.registered k' = some m → k = k'
  /-- What is expected belongs to a dispatch of the connection of its machine. -/
  upload : ∀ {key}, (s.uploads key).isSome = true → ∃ k, (k, key.buildId) ∈ s.flights ∧
    s.machine k = some key.machineId ∧ ∀ k', s.registered k' = some key.machineId → k' = k
  call : ∀ {c}, c ∈ s.calls → s.registered c.connection = some c.machineId ∧ (c.connection, c.buildId) ∈ s.flights

namespace Sessions

variable {s : Sessions}

variable {k : ℕ} {m : Uuid}

theorem registered_eq_some :
    s.registered k = some m ↔ ∃ conn, s.connections k = some conn ∧ conn.registered = some m :=
  Option.bind_eq_some_iff

/-- Who is registered after one connection has changed. -/
theorem registered_update {s' : Sessions} {k' : ℕ} {conn : Option Connection}
    (h : s'.connections = update s.connections k conn) :
    s'.registered k' = if k' = k then conn.bind fun c => c.registered else s.registered k' := by
  rw [registered, h]
  split_ifs with hk
  · rw [hk, Function.update_self]
  · rw [Function.update_of_ne hk, registered]

/-- An agent with an open connection is registered as its machine. -/
theorem Valid.registered_of_machine (h : s.Valid) (hm : s.machine k = some m)
    (hk : (s.connections k).isSome = true) : s.registered k = some m := by
  obtain ⟨a, ha, rfl⟩ := Option.map_eq_some_iff.mp hm
  obtain ⟨conn, hc⟩ := Option.isSome_iff_exists.mp hk
  exact registered_eq_some.mpr ⟨conn, hc, (h.agent ha hc).1⟩

theorem Valid.machine_of_registered (h : s.Valid) (hr : s.registered k = some m)
    (hk : (s.agents k).isSome = true) : s.machine k = some m := by
  obtain ⟨conn, hc, hr⟩ := registered_eq_some.mp hr
  obtain ⟨a, ha⟩ := Option.isSome_iff_exists.mp hk
  rw [(h.agent ha hc).1] at hr
  rw [machine, ha]
  exact hr

theorem isActive_iff {b : Uuid} :
    s.isActive m b = true ↔ ∃ k a, s.pool m = some k ∧ s.agents k = some a ∧ b ∈ a.activeBuilds := by
  simp only [isActive, Option.any_eq_true, Option.bind_eq_some_iff, decide_eq_true_eq]
  constructor
  · rintro ⟨a, ⟨k, hk, ha⟩, hb⟩
    exact ⟨k, a, hk, ha, hb⟩
  · rintro ⟨k, a, hk, ha, hb⟩
    exact ⟨a, ⟨k, hk, ha⟩, hb⟩

end Sessions

variable {b : Uuid}

/-- What the URLs of one request add to the expected uploads. -/
theorem grant_eq_some {cfg : ServerConfig} {now : Time} {m : Uuid} {outputs : List String} {key : UploadKey}
    {upload : ExpectedUpload} : ∀ {requests : List PresignedNarRequest}
    {acc : (UploadKey → Option ExpectedUpload) × List (String × Time)},
    (grant cfg now m b outputs requests acc).1 key = some upload → acc.1 key = some upload ∨
      ∃ r ∈ requests, key = ⟨m, b, r.storePath⟩ ∧ ∃ url, presignOne cfg outputs r = .ok (url, upload)
  | [], _, h => .inl h
  | r :: requests, (uploads, issued), h => by
    unfold grant at h
    split at h
    next =>
      rcases grant_eq_some h with h | ⟨r', hr', h⟩
      · exact .inl h
      · exact .inr ⟨r', List.mem_cons_of_mem _ hr', h⟩
    next url upload' hp =>
      rcases grant_eq_some h with h | ⟨r', hr', h⟩
      · rcases update_eq_some.mp h with ⟨rfl, he⟩ | ⟨-, h⟩
        · exact .inr ⟨r, List.mem_cons_self, rfl, url, Option.some.inj he ▸ hp⟩
        · exact .inl h
      · exact .inr ⟨r', List.mem_cons_of_mem _ hr', h⟩

namespace Confined

variable {s : State}

variable {k : ℕ}

/-- The connection that is registered as the machine of an active build has
been given the build. -/
theorem flight_of_isActive (h : Confined s) {m : Uuid} (hr : s.registered k = some m)
    (ha : s.isActive m b = true) : (k, b) ∈ s.flights := by
  obtain ⟨k', a, hp, ha, hb⟩ := Sessions.isActive_iff.mp ha
  obtain ⟨hm, hc⟩ := h.valid.pool hp
  have hk : k' = k := h.one (h.valid.registered_of_machine hm hc) hr
  exact hk ▸ h.valid.active ha hb

variable {s' : State}

/-- One connection changes: it is registered as nothing that it was not, and
its calls are gone unless it is registered as before. -/
theorem of_connection (h : Confined s) (hv : s'.toSessions.Valid) {conn : Option Connection}
    (hconn : s'.connections = update s.connections k conn)
    (hreg : ∀ m, (conn.bind fun c => c.registered) = some m → s.registered k = some m)
    (hmach : ∀ k m, s.machine k = some m → s'.machine k = some m) (hup : s'.uploads = s.uploads)
    (hfl : s'.flights = s.flights)
    (hcalls : ∀ c ∈ s'.calls, c ∈ s.calls ∧
      (c.connection = k → (conn.bind fun c => c.registered) = s.registered k)) : Confined s' := by
  have hold : ∀ k', s'.registered k' = if k' = k then conn.bind fun c => c.registered else s.registered k' :=
    fun k' => Sessions.registered_update hconn
  have hsub : ∀ {k' m}, s'.registered k' = some m → s.registered k' = some m := fun {k' m} hr => by
    rw [hold] at hr
    split_ifs at hr with hk
    · exact hk ▸ hreg m hr
    · exact hr
  refine ⟨hv, fun hr hr' => h.one (hsub hr) (hsub hr'), fun hu => ?_, fun {c} hc => ?_⟩
  · obtain ⟨k', hf, hm, hone⟩ := h.upload (hup ▸ hu)
    exact ⟨k', hfl ▸ hf, hmach _ _ hm, fun k'' hr => hone k'' (hsub hr)⟩
  · obtain ⟨hc, hsame⟩ := hcalls c hc
    refine ⟨?_, hfl ▸ (h.call hc).2⟩
    rw [← (h.call hc).1, hold]
    split_ifs with hk
    · rw [hsame hk, hk]
    · rfl

/-- One agent changes, and at most gets more dispatches. -/
theorem of_agent (h : Confined s) (hv : s'.toSessions.Valid) (hconn : s'.connections = s.connections)
    (hmach : ∀ k, s'.machine k = s.machine k) (hup : s'.uploads = s.uploads) (hfl : s.flights ⊆ s'.flights)
    (hcalls : s'.calls = s.calls) : Confined s' := by
  have hreg : ∀ k, s'.registered k = s.registered k := fun k => by
    rw [Sessions.registered, hconn]
    rfl
  refine ⟨hv, fun hr hr' => h.one (hreg _ ▸ hr) (hreg _ ▸ hr'), fun hu => ?_, fun hc => ?_⟩
  · obtain ⟨k, hf, hm, hone⟩ := h.upload (hup ▸ hu)
    exact ⟨k, hfl hf, (hmach k).trans hm, fun k' hr => hone k' (hreg k' ▸ hr)⟩
  · obtain ⟨hr, hf⟩ := h.call (hcalls ▸ hc)
    exact ⟨(hreg _).trans hr, hfl hf⟩

/-- The calls of a connection that is registering. -/
theorem connection_ne (h : Confined s) {c : Call} (hc : c ∈ s.calls) (hk : s.agents k = none) :
    c.connection ≠ k := by
  rintro rfl
  have := h.valid.flight (h.call hc).2
  rw [hk] at this
  cases this

/-- A connection registers as a machine of which there is nothing. -/
theorem register (h : Confined s) (hv : s'.toSessions.Valid) {conn : Connection} {m : Uuid}
    (hnone : s.registered k = none) (hm : conn.registered = some m)
    (hs : s' = { s with connections := update s.connections k (some conn) })
    (hother : ∀ k', s.registered k' ≠ some m) (hflight : ∀ f ∈ s.flights, s.machine f.1 ≠ some m) : Confined s' := by
  have hold : ∀ k', s'.registered k' = if k' = k then some m else s.registered k' := fun k' => by
    rw [Sessions.registered_update (congrArg (fun s : State => s.connections) hs), Option.bind_some, hm]
  subst hs
  refine ⟨hv, fun {k₁ k₂ m'} hr hr' => ?_, fun {key} hu => ?_, fun {c} hc => ?_⟩
  · rw [hold] at hr hr'
    split_ifs at hr hr' with h₁ h₂ h₂
    · rw [h₁, h₂]
    · exact absurd (hr'.trans hr.symm) (hother k₂)
    · exact absurd (hr.trans hr'.symm) (hother k₁)
    · exact h.one hr hr'
  · obtain ⟨k₀, hf, hm₀, hone⟩ := h.upload hu
    refine ⟨k₀, hf, hm₀, fun k' hr => ?_⟩
    rw [hold] at hr
    split_ifs at hr with hk
    · exact absurd (hm₀.trans hr.symm) (hflight _ hf)
    · exact hone k' hr
  · obtain ⟨hr, hf⟩ := h.call hc
    refine ⟨?_, hf⟩
    have hk : c.connection ≠ k := fun hk => by
      rw [hk, hnone] at hr
      cases hr
    rw [hold, if_neg hk, hr]

/-- A dispatch ends, and with it the uploads it expects; no call is about it. -/
theorem finish (h : Confined s) (hf : (k, b) ∈ s.flights)
    (hcalls : ∀ c ∈ s.calls, c.connection = k → c.buildId ≠ b) {agents : ℕ → Option AgentMeta}
    (hmach : ∀ k', (agents k').map (fun a => a.machineId) = s.machine k') (hv : s'.toSessions.Valid)
    (hs : s' = { s with
      agents := agents, flights := s.flights.erase (k, b)
      uploads := (s.machine k).elim s.uploads fun m => forgetUploadsFor s.uploads m b }) : Confined s' := by
  subst hs
  refine ⟨hv, h.one, fun {key} hu => ?_, fun {c} hc => ?_⟩
  · obtain ⟨a, ha⟩ := Option.isSome_iff_exists.mp (h.valid.flight hf)
    have hk : s.machine k = some a.machineId := by
      rw [Sessions.machine, ha]
      rfl
    have hkept : (forgetUploadsFor s.uploads a.machineId b key).isSome = true := by
      simpa only [hk, Option.elim_some] using hu
    unfold forgetUploadsFor at hkept
    split_ifs at hkept with hkey
    · cases hkept
    · obtain ⟨k', hf', hm, hone⟩ := h.upload hkept
      refine ⟨k', (List.mem_erase_of_ne fun he => hkey ?_).mpr hf', (hmach k').trans hm, hone⟩
      obtain ⟨rfl, hb⟩ := Prod.mk.inj he
      exact ⟨(Option.some.inj (hk.symm.trans hm)).symm, hb⟩
  · obtain ⟨hr, hf'⟩ := h.call hc
    exact ⟨hr, (List.mem_erase_of_ne fun he => hcalls c hc (Prod.mk.inj he).1 (Prod.mk.inj he).2).mpr hf'⟩

theorem step {d : Deployment} {a : Action} (h : Confined s) (hg : OneConnection d s a)
    (he : Effect d s a s') : Confined s' := by
  have hv := h.valid.step he
  cases he with
  | same => exact h
  | tick | put => exact ⟨h.valid, h.one, h.upload, h.call⟩
  | dropped => exact ⟨h.valid, h.one, h.upload, fun hc' => h.call (List.mem_of_mem_erase hc')⟩
  | accept =>
    refine h.of_connection hv rfl (fun m hm => ?_) (fun _ _ hm => hm) rfl rfl fun c hc => ⟨hc, fun hk => ?_⟩
    · cases hm
    · obtain ⟨conn, hconn, -⟩ := Sessions.registered_eq_some.mp (h.call hc).1
      exact absurd hk (h.valid.connection_lt hconn).ne
  | @register k conn info authKind hk hn hi =>
    have hok : (Rpc.register d.toServerConfig conn info).isOk = true := by
      simp [Rpc.register, hi, hn, ensure, bind, Except.bind, pure, Except.pure, Except.isOk, Except.toBool]
    obtain ⟨hother, hflight⟩ := hg ⟨conn, hk, hok⟩
    have hnone : s.registered k = none := by
      rw [Sessions.registered, hk]
      exact hn
    refine h.register hv hnone rfl rfl (fun k' hr => ?_) hflight
    obtain ⟨c, hc, -⟩ := Sessions.registered_eq_some.mp hr
    exact hother k' (h.valid.connection_lt hc) hr
  | @registered k conn info authKind hk hr =>
    have hsame : conn.registered = s.registered k := by
      rw [Sessions.registered, hk]
      rfl
    refine h.of_connection hv rfl (fun m hm => hsame ▸ hm) (fun k' m hm => ?_) rfl rfl fun c hc => ⟨hc, fun _ => hsame⟩
    have hkk : k' ≠ k := by
      rintro rfl
      rw [Sessions.machine, h.valid.agents_of_registering hk hr] at hm
      cases hm
    rw [← hm]
    simp [Sessions.machine, hkk]
  | @unregistered k conn info authKind hk hr =>
    refine h.of_connection hv rfl (fun m hm => ?_) (fun _ _ hm => hm) rfl rfl fun c hc => ⟨hc, fun hkk => ?_⟩
    · cases hm
    · exact absurd hkk (h.connection_ne hc (h.valid.agents_of_registering hk hr))
  | disconnect =>
    refine h.of_connection hv rfl (fun m hm => ?_) (fun _ _ hm => hm) rfl rfl fun c hc => ?_
    · cases hm
    · obtain ⟨hc, hkk⟩ := List.mem_filter.mp hc
      exact ⟨hc, fun he => absurd he (of_decide_eq_true hkk)⟩
  | acquire
  | release => exact h.of_agent hv rfl (fun _ => Sessions.machine_modifyAgent fun _ => rfl) rfl (List.Subset.refl _) rfl
  | dispatch =>
    exact h.of_agent hv rfl (fun _ => Sessions.machine_modifyAgent fun _ => rfl) rfl (List.subset_cons_self _ _) rfl
  | @finish k b hf =>
    have hmach : ∀ k', (s.modifyAgent k (AgentMeta.finish b) k').map (fun a => a.machineId) = s.machine k' :=
      fun _ => Sessions.machine_modifyAgent fun _ => rfl
    exact h.finish hf hg hmach hv rfl
  | started hs =>
    refine ⟨h.valid, h.one, h.upload, fun {c} hc => ?_⟩
    rcases List.mem_cons.mp hc with rfl | hc
    · cases hs with
      | presigning hr ha | fetching hr ha => exact ⟨hr, h.flight_of_isActive hr ha⟩
      | verifying hi hr hu =>
        obtain ⟨k, hf, -, hone⟩ := h.upload (Option.isSome_iff_exists.mpr ⟨_, hu⟩)
        exact ⟨hr, hone _ hr ▸ hf⟩
    · exact h.call hc
  | presigned hc =>
    refine ⟨h.valid, h.one, fun {key} hu => ?_, fun hc' => h.call (List.mem_of_mem_erase hc')⟩
    obtain ⟨upload, hu⟩ := Option.isSome_iff_exists.mp hu
    rcases grant_eq_some hu with hu | ⟨r, -, rfl, -⟩
    · exact h.upload (Option.isSome_iff_exists.mpr ⟨_, hu⟩)
    · obtain ⟨hr, hf⟩ := h.call hc
      exact ⟨_, hf, h.valid.machine_of_registered hr (h.valid.flight hf), fun k' hr' => h.one hr' hr⟩
  | verified hc =>
    refine ⟨h.valid, h.one, h.upload, fun {c} hc' => ?_⟩
    rcases List.mem_cons.mp hc' with rfl | hc'
    · exact ⟨(h.call hc).1, (h.call hc).2⟩
    · exact h.call (List.mem_of_mem_erase hc')
  | persisted =>
    refine ⟨h.valid, h.one, fun {key} hu => ?_, fun hc' => h.call (List.mem_of_mem_erase hc')⟩
    obtain ⟨upload, hu⟩ := Option.isSome_iff_exists.mp hu
    rcases update_eq_some.mp hu with ⟨-, he⟩ | ⟨-, hu⟩
    · cases he
    · exact h.upload (Option.isSome_iff_exists.mpr ⟨_, hu⟩)

end Confined

variable {d : Deployment} {k : ℕ}

theorem mem_calls_of_succeeded {s s' : State} {a : Action}
    (hs : step d s a = some s') (h : succeeded d s a = some (k, b)) :
    ∃ c ∈ s.calls, c.connection = k ∧ c.buildId = b := by
  have hmem : ∀ c o, step d s (.resume c o) = some s' → c ∈ s.calls := fun c o hs => by
    by_contra hc
    simp [step, hc] at hs
  unfold succeeded at h
  split at h
  next k' m b' requests =>
    split_ifs at h
    obtain ⟨rfl, rfl⟩ := Prod.mk.inj (Option.some.inj h)
    exact ⟨_, hmem _ _ hs, rfl, rfl⟩
  next k' m b' info v signed =>
    split_ifs at h
    obtain ⟨rfl, rfl⟩ := Prod.mk.inj (Option.some.inj h)
    exact ⟨_, hmem _ _ hs, rfl, rfl⟩
  next k' m b' =>
    obtain ⟨rfl, rfl⟩ := Prod.mk.inj (Option.some.inj h)
    exact ⟨_, hmem _ _ hs, rfl, rfl⟩
  next => cases h

/-- A dispatch in flight has been made. -/
theorem flights_of_effect {s s' : State} {a : Action} (he : Effect d s a s')
    (h : (k, b) ∈ s'.flights) : (k, b) ∈ s.flights ∨ a = .dispatch k b := by
  cases he with
  | dispatch =>
    rcases List.mem_cons.mp h with h | h
    · obtain ⟨rfl, rfl⟩ := Prod.mk.inj h
      exact .inr rfl
    · exact .inl h
  | finish => exact .inl (List.mem_of_mem_erase h)
  | _ => exact .inl h

theorem dispatch_of_flight {as : List Action} {s : State}
    (hrun : Lts.exec (step d) {} as = some s) (h : (k, b) ∈ s.flights) : .dispatch k b ∈ as := by
  let Inv : List (State × Action) → State → Prop := fun past s =>
    ∀ k b, (k, b) ∈ s.flights → ∃ s₀, (s₀, .dispatch k b) ∈ past
  have hstep : ∀ past s a s', Inv past s → True → step d s a = some s' → Inv (past ++ [(s, a)]) s' := by
    intro past s a s' hi _ hs k b hf
    rcases flights_of_effect (effect_of_step hs) hf with hf | rfl
    · obtain ⟨s₀, hp⟩ := hi k b hf
      exact ⟨s₀, List.mem_append_left _ hp⟩
    · exact ⟨s, List.mem_append_right _ List.mem_cons_self⟩
  have hinit : Inv [] {} := fun _ _ hf => absurd hf List.not_mem_nil
  obtain ⟨s₀, hp⟩ := Lts.exec_trail_inv hstep hinit (Lts.Along.of_mem fun _ _ _ => trivial) hrun k b h
  exact Lts.mem_of_mem_trail hp

/-- **Calls reach the builds of their own connection.** Where a machine has one
connection at a time and a dispatch outlasts the calls about it, a call on
connection `k` about build `b` succeeds only if `b` has been dispatched over
`k` and is still in flight there. -/
theorem call_of_own_dispatch {d : Deployment} {as : List Action} {s s' : State} {a : Action} {k : ℕ} {b : Uuid}
    (hal : Lts.Along (step d) (OneConnection d) {} as) (hrun : Lts.exec (step d) {} as = some s)
    (hs : step d s a = some s') (hsucc : succeeded d s a = some (k, b)) :
    .dispatch k b ∈ as ∧ (k, b) ∈ s.flights := by
  have hinit : Confined {} := ⟨.init, (by cases ·), (by cases ·), (by cases ·)⟩
  have hstep : ∀ s a s', Confined s → OneConnection d s a → step d s a = some s' → Confined s' :=
    fun _ _ _ h hg hs => h.step hg (effect_of_step hs)
  have hconf : Confined s := Lts.exec_inv hstep hinit hal hrun
  obtain ⟨c, hc, rfl, rfl⟩ := mem_calls_of_succeeded hs hsucc
  have hf := (hconf.call hc).2
  exact ⟨dispatch_of_flight hrun hf, hf⟩

/-- A machine that is given build 5 and asks for the derivation. -/
def fetching : List Action := .flatten [connectAs 0 7, [.acquire 0, .dispatch 0 5, .fetchDrvClosure 0 7 5]]

theorem call_of_own_dispatch_fetching : ∃ s ∈ Lts.exec (step smallDeployment) {} fetching,
    succeeded smallDeployment s (.resume (.fetching 0 7 5) .exported) = some (0, 5) ∧ (0, 5) ∈ s.flights := by
  have hal : Lts.Along (step smallDeployment) (OneConnection smallDeployment) {} fetching := by decide
  have hrun : ∃ s ∈ Lts.exec (step smallDeployment) {} fetching,
      (step smallDeployment s (.resume (.fetching 0 7 5) .exported)).isSome = true ∧
      succeeded smallDeployment s (.resume (.fetching 0 7 5) .exported) = some (0, 5) := by decide
  obtain ⟨s, hs, hstep, hsucc⟩ := hrun
  obtain ⟨s', hs'⟩ := Option.isSome_iff_exists.mp hstep
  exact ⟨s, hs, hsucc, (call_of_own_dispatch hal hs hs' hsucc).2⟩

/-- The output of a build of `smallDeployment`, with the hash of an empty NAR. -/
def emptyOutput : PresignedNarRequest where
  storePath := "/nix/store/o"
  narHash := "sha256:0000000000000000000000000000000000000000000000000000"
  narSize := 0

/-- The narinfo of that output. -/
def emptyNarInfo : NarInfo where
  storePath := emptyOutput.storePath
  narHash := emptyOutput.narHash
  narSize := 0
  compression := "zstd"
  url := "nar/0000000000000000000000000000000000000000000000000000.nar.zst"

/-- What is read back of an object that decompresses to the empty NAR. -/
def emptyUploaded : UploadedNar where
  narHash := emptyOutput.narHash
  narSize := 0
  fileHash := "sha256:0000000000000000000000000000000000000000000000000000000000000000"
  fileSize := 1

/-- The compressed stream of `emptyNarInfo`. -/
def emptyObject : Object := ⟨[0], by decide⟩

/-- The machine registers again on connection 1 and is given build 5 there. -/
def staleConnection : List Action := .flatten [connectAs 0 7, connectAs 1 7,
  [.acquire 1, .dispatch 1 5, .requestPresignedUrls 0 7 5 [emptyOutput], .fetchDrvClosure 0 7 5]]

/-- It is given the build on connection 0, uploads the output and registers again. -/
def newConnection : List Action := .flatten [connectAs 0 7,
  [.acquire 0, .dispatch 0 5, .requestPresignedUrls 0 7 5 [emptyOutput],
    .resume (.presigning 0 7 5 [emptyOutput]) .outputsRead, .put emptyNarInfo.url emptyObject],
  connectAs 1 7,
  [.notifyUploadComplete 1 7 5 emptyNarInfo, .resume (.verifying 1 7 5 emptyNarInfo) (.readBack [] 1)]]

/-- The dispatch ends after `request_presigned_urls` has been checked. -/
def finishedDispatch : List Action := .flatten [connectAs 0 7,
  [.acquire 0, .dispatch 0 5, .requestPresignedUrls 0 7 5 [emptyOutput], .finish 0 5]]

/-- The step is taken and a call about `b` on connection `k` succeeds with it,
though `b` is not in flight there. -/
def SucceedsElsewhere (as : List Action) (a : Action) (k : ℕ) (b : Uuid) : Prop :=
  ∃ s ∈ Lts.exec (step smallDeployment) {} as, (step smallDeployment s a).isSome = true ∧
    succeeded smallDeployment s a = some (k, b) ∧ (k, b) ∉ s.flights

/-- Connection 0 gets URLs and the derivation of a build that was dispatched
over connection 1; connection 1 completes an upload of connection 0; URLs come
for a dispatch that is over. -/
theorem calls_of_other_connections :
    SucceedsElsewhere staleConnection (.resume (.presigning 0 7 5 [emptyOutput]) .outputsRead) 0 5 ∧
    SucceedsElsewhere staleConnection (.resume (.fetching 0 7 5) .exported) 0 5 ∧
    SucceedsElsewhere newConnection (.resume (.persisting 1 7 5 emptyNarInfo emptyUploaded) (.stored true)) 1 5 ∧
    SucceedsElsewhere finishedDispatch (.resume (.presigning 0 7 5 [emptyOutput]) .outputsRead) 0 5 := by
  unfold SucceedsElsewhere
  decide +kernel

end Circus.Rpc
