/-
# The RPC server

`RunnerImpl` of `crates/queue-runner/src/rpc/server.rs` with the `AgentPool`
of `rpc/pool.rs` and the dispatch pump, as a system of steps. A connection has
a slot for the machine it is registered as. The metadata of an agent belongs
to the connection that registered it and outlives it, since slot guards and
dispatches hold on to it; the pool has one connection for a machine, and a new
registration takes the place of the old.

A handler runs up to its first `await` at once. What it then waits for is a
step of its own: until then it is a `Call` of its connection, and goes when
the connection does. A handler that fails leaves the state as it is.

Objects are put under a key by whoever has a presigned URL for it that has not
expired. `flights` are the dispatches under way and `reserved` the slot guards
that wait for one.
-/
import Circus.Lts
import Circus.Cache.NarInfo
import Circus.Rpc.UploadVerify

namespace Circus.Rpc

open Nix
open Function (update)

/-- The server, and what it asks of others. -/
structure Deployment extends ServerConfig where
  codec : Codec
  /-- The derivation of a build, by `repo::builds::get`. -/
  drvPath : Uuid → Except String String
  /-- `try_read_drv_outputs`, at a time. -/
  drvOutputs : Time → String → Except String (List String)
  /-- `project_id_for_build`. -/
  projectIdForBuild : Uuid → Except String (Option Uuid)

structure Connection where
  peerCert : PeerCertIdentity := {}
  /-- `registered_machine`. -/
  registered : Option Uuid := none
  /-- A registration that waits for its `builder_sessions` row. -/
  registering : Option (AgentInfo × AuthKind) := none

structure AgentMeta where
  machineId : Uuid
  authKind : AuthKind
  maxJobs : ℕ
  currentJobs : ℕ := 0
  activeBuilds : Finset Uuid := ∅

/-- A call that waits, with its connection, machine and build. -/
inductive Call
  | presigning (k : ℕ) (m b : Uuid) (requests : List PresignedNarRequest)
  | verifying (k : ℕ) (m b : Uuid) (info : NarInfo)
  | persisting (k : ℕ) (m b : Uuid) (info : NarInfo) (verified : UploadedNar)
  | fetching (k : ℕ) (m b : Uuid)
  deriving DecidableEq

namespace Call

def connection : Call → ℕ
  | presigning k .. | verifying k .. | persisting k .. | fetching k .. => k

def machineId : Call → Uuid
  | presigning _ m .. | verifying _ m .. | persisting _ m .. | fetching _ m _ => m

def buildId : Call → Uuid
  | presigning _ _ b _ | verifying _ _ b _ | persisting _ _ b .. | fetching _ _ b => b

end Call

/-- Connections, agents and dispatches. -/
structure Sessions where
  /-- The number of connections so far. -/
  accepted : ℕ := 0
  /-- The open connections. -/
  connections : ℕ → Option Connection := fun _ => none
  /-- The metadata that a connection has registered. -/
  agents : ℕ → Option AgentMeta := fun _ => none
  /-- The pool: the connection of a machine. -/
  pool : Uuid → Option ℕ := fun _ => none
  reserved : List ℕ := []
  flights : List (ℕ × Uuid) := []

namespace Sessions

/-- The machine the connection is registered as. -/
def registered (s : Sessions) (k : ℕ) : Option Uuid := (s.connections k).bind fun c => c.registered

/-- The machine of the metadata of a connection. -/
def machine (s : Sessions) (k : ℕ) : Option Uuid := (s.agents k).map fun a => a.machineId

/-- The build is active for the agent that is in the pool for the machine. -/
def isActive (s : Sessions) (m b : Uuid) : Bool :=
  ((s.pool m).bind s.agents).any fun a => decide (b ∈ a.activeBuilds)

/-- A change to the metadata of a connection. -/
def modifyAgent (s : Sessions) (k : ℕ) (f : AgentMeta → AgentMeta) : ℕ → Option AgentMeta :=
  update s.agents k ((s.agents k).map f)

end Sessions

structure State extends Sessions where
  now : Time := 0
  /-- `active_uploads`. -/
  uploads : UploadKey → Option ExpectedUpload := fun _ => none
  calls : List Call := []
  /-- The presigned URLs: the key of the object and when the URL expires. -/
  issued : List (String × Time) := []
  objects : String → Option Object := fun _ => none
  narinfos : Cache.Db := .empty

/-! ### Registration and dispatch -/

/-- `register`, up to its `await`. -/
def register (cfg : ServerConfig) (conn : Connection) (info : AgentInfo) : Except String Connection := do
  let authKind ← checkAgentInfo cfg conn.peerCert info
  ensure (conn.registered = none) "connection is already registered"
  return { conn with registered := some info.machineId, registering := some (info, authKind) }

/-- `AgentMeta::new`. -/
def newAgent (info : AgentInfo) (authKind : AuthKind) : AgentMeta :=
  { machineId := info.machineId, authKind := authKind, maxJobs := info.maxJobs }

def removeIfConnection (pool : Uuid → Option ℕ) (m : Uuid) (k : ℕ) : Uuid → Option ℕ :=
  if pool m = some k then update pool m none else pool

def forgetUploadsFor (uploads : UploadKey → Option ExpectedUpload) (m b : Uuid) : UploadKey → Option ExpectedUpload :=
  fun key => if key.machineId = m ∧ key.buildId = b then none else uploads key

/-! ### Calls of an agent -/

/-- The machine is the connection's, and the build active for it. -/
def authorise (s : State) (k : ℕ) (m b : Uuid) : Except String Unit := do
  ensure (s.registered k = some m) "machine_id does not match registered session"
  ensure ((s.pool m).isSome = true) "registered agent is not in the live pool"
  ensure (s.isActive m b = true) "build_id is not active for this agent"

/-- `request_presigned_urls`, up to its `await`. -/
def requestPresignedUrls (cfg : ServerConfig) (s : State) (k : ℕ) (m b : Uuid) (requests : List PresignedNarRequest) :
    Except String Call := do
  ensure (requests.length ≤ Limits.maxPresignedUrlRequests)
    ("too many presigned URL requests: " ++ toString requests.length ++ " > " ++
      toString Limits.maxPresignedUrlRequests)
  validateUploadCompression cfg.uploadCompression
  authorise s k m b
  return .presigning k m b requests

def uploadOutputs (d : Deployment) (now : Time) (b : Uuid) : Except String (List String) :=
  match d.drvPath b with
  | .error e => .error ("cannot resolve build " ++ toString b ++ " for upload authorization: " ++ e)
  | .ok drvPath =>
    match d.drvOutputs now drvPath with
    | .error e => .error ("cannot query derivation outputs for upload authorization: " ++ e)
    | .ok [] => .error ("derivation " ++ drvPath ++ " has no queryable outputs for upload authorization")
    | .ok (o :: outputs) => .ok (o :: outputs)

/-- The loop of `request_presigned_urls`: what is expected, and the URLs. -/
def grant (cfg : ServerConfig) (now : Time) (m b : Uuid) (outputs : List String) :
    List PresignedNarRequest → (UploadKey → Option ExpectedUpload) × List (String × Time) →
      (UploadKey → Option ExpectedUpload) × List (String × Time)
  | [], acc => acc
  | r :: requests, (uploads, issued) =>
    match presignOne cfg outputs r with
    | .error _ => grant cfg now m b outputs requests (uploads, issued)
    | .ok (_, upload) => grant cfg now m b outputs requests
        (update uploads ⟨m, b, r.storePath⟩ (some upload), (upload.narPath, now + cfg.presignExpiry) :: issued)

/-- `notify_upload_complete`, up to the verification. -/
def notifyUploadComplete (cfg : ServerConfig) (s : State) (k : ℕ) (m b : Uuid) (info : NarInfo) :
    Except String Call := do
  checkNarInfo info
  ensure (s.registered k = some m) "machine_id does not match registered session"
  ensure ((s.uploads ⟨m, b, info.storePath⟩).isSome = true) "upload was not presigned for this session/build/path"
  ensure (s.uploads ⟨m, b, info.storePath⟩ = some ⟨info.narHash, info.narSize, info.compression, info.url⟩)
    "narinfo does not match presigned upload"
  ensure (cfg.presigner.isSome = true) "runner has no S3 presigner configured"
  return .verifying k m b info

/-- A text, absent if it is empty. -/
def nonempty (text : String) : Option String := if text = "" then none else some text

def verifyRequest (info : NarInfo) : VerifyRequest where
  compression := info.compression
  narHash := info.narHash
  narSize := info.narSize
  fileHash := nonempty info.fileHash
  fileSize := if 0 < info.fileSize then some info.fileSize else none

def toI64 (n : ℕ) : ℤ := Int.bmod n (2 ^ 64)

/-- The row `notify_upload_complete` writes; `signed` says that the key could
be read. -/
def uploadedNarInfo (cfg : ServerConfig) (b : Uuid) (info : NarInfo) (v : UploadedNar) (projectId : Option Uuid)
    (signed : Bool) : Cache.UpsertNarInfo where
  storePath := info.storePath
  narHash := v.narHash
  narSize := toI64 v.narSize
  fileHash := some v.fileHash
  fileSize := if info.compression ≠ "none" then some (toI64 v.fileSize) else none
  compression := info.compression
  url := info.url
  deriver := nonempty info.deriver
  references := info.references
  sig := if signed then
      cfg.signingKey.map fun key =>
        key.sign (Cache.fingerprint info.storePath v.narHash (toI64 v.narSize) info.references)
    else none
  ca := nonempty info.ca
  buildId := some b
  projectId := projectId

/-! ### Steps -/

/-- What a waiting call may get. -/
inductive Outcome
  /-- The outputs of the derivation have been read. -/
  | outputsRead
  /-- The object has been read back. -/
  | readBack (reads : List Bytes) (taken : ℕ)
  /-- The row is written; `signed` says that the signing key could be read. -/
  | stored (signed : Bool)
  | exported
  | failed
  deriving DecidableEq

inductive Action
  | tick
  | accept (peerCert : PeerCertIdentity)
  | register (k : ℕ) (info : AgentInfo)
  /-- The `builder_sessions` row of a registration is there, or could not be written. -/
  | sessionRegistered (k : ℕ) (ok : Bool)
  | disconnect (k : ℕ)
  /-- `try_acquire_slot` on the metadata of a connection. -/
  | acquire (k : ℕ)
  /-- A slot guard is dropped without a dispatch. -/
  | release (k : ℕ)
  /-- The pump of the connection takes up a build. -/
  | dispatch (k : ℕ) (b : Uuid)
  /-- The dispatch is over, with whatever result. -/
  | finish (k : ℕ) (b : Uuid)
  | requestPresignedUrls (k : ℕ) (m b : Uuid) (requests : List PresignedNarRequest)
  | notifyUploadComplete (k : ℕ) (m b : Uuid) (info : NarInfo)
  | fetchDrvClosure (k : ℕ) (m b : Uuid)
  /-- What a call waits for is there. -/
  | resume (c : Call) (o : Outcome)
  /-- A PUT to a presigned URL. -/
  | put (key : String) (object : Object)
  deriving DecidableEq

/-- A call starts waiting, unless its checks fail. -/
def State.start (s : State) : Except String Call → State
  | .ok c => { s with calls := c :: s.calls }
  | .error _ => s

def State.finishCall (s : State) (c : Call) : State := { s with calls := s.calls.erase c }

def AgentMeta.finish (b : Uuid) (a : AgentMeta) : AgentMeta :=
  { a with activeBuilds := a.activeBuilds.erase b, currentJobs := a.currentJobs - 1 }

def AgentMeta.dispatch (b : Uuid) (a : AgentMeta) : AgentMeta := { a with activeBuilds := insert b a.activeBuilds }

def AgentMeta.acquire (a : AgentMeta) : AgentMeta := { a with currentJobs := a.currentJobs + 1 }

def AgentMeta.release (a : AgentMeta) : AgentMeta := { a with currentJobs := a.currentJobs - 1 }

/-- A waiting call goes on. -/
def State.resume (d : Deployment) (s : State) : Call → Outcome → Option State
  | .presigning k m b requests, .outputsRead =>
    match uploadOutputs d s.now b with
    | .error _ => some (s.finishCall (.presigning k m b requests))
    | .ok outputs =>
      let granted := grant d.toServerConfig s.now m b outputs requests (s.uploads, s.issued)
      some { s.finishCall (.presigning k m b requests) with uploads := granted.1, issued := granted.2 }
  | .verifying k m b info, .readBack reads taken =>
    match s.objects info.url with
    | none => none
    | some object =>
      if isReading d.codec info.compression object.bytes reads taken then
        match verify d.sha256 (verifyRequest info) reads (object.bytes.take taken) with
        | .error _ => some (s.finishCall (.verifying k m b info))
        | .ok v =>
          some { s with calls := .persisting k m b info v :: s.calls.erase (.verifying k m b info) }
      else none
  | .persisting k m b info v, .stored signed =>
    match d.projectIdForBuild b with
    | .error _ => some (s.finishCall (.persisting k m b info v))
    | .ok projectId =>
      some { s.finishCall (.persisting k m b info v) with
        narinfos := s.narinfos.upsert s.now (uploadedNarInfo d.toServerConfig b info v projectId signed)
        uploads := update s.uploads ⟨m, b, info.storePath⟩ none }
  | .fetching k m b, .exported => some (s.finishCall (.fetching k m b))
  | c, .failed => some (s.finishCall c)
  | _, _ => none

def step (d : Deployment) (s : State) : Action → Option State
  | .tick => some { s with now := s.now + 1 }
  | .accept peerCert => some { s with
      accepted := s.accepted + 1
      connections := update s.connections s.accepted (some { peerCert := peerCert }) }
  | .register k info =>
    (s.connections k).map fun conn =>
      match register d.toServerConfig conn info with
      | .ok conn => { s with connections := update s.connections k (some conn) }
      | .error _ => s
  | .sessionRegistered k ok =>
    (s.connections k).bind fun conn => conn.registering.map fun (info, authKind) =>
      if ok then { s with
        connections := update s.connections k (some { conn with registering := none })
        agents := update s.agents k (some (newAgent info authKind))
        pool := update s.pool info.machineId (some k) }
      else { s with connections := update s.connections k (some { peerCert := conn.peerCert }) }
  | .disconnect k =>
    (s.connections k).map fun conn => { s with
      connections := update s.connections k none
      calls := s.calls.filter fun c => decide (c.connection ≠ k)
      pool := conn.registered.elim s.pool fun m => removeIfConnection s.pool m k }
  | .acquire k =>
    (s.agents k).map fun a =>
      if a.currentJobs < a.maxJobs then
        { s with agents := s.modifyAgent k AgentMeta.acquire, reserved := k :: s.reserved }
      else s
  | .release k =>
    if k ∈ s.reserved then
      some { s with agents := s.modifyAgent k AgentMeta.release, reserved := s.reserved.erase k }
    else none
  | .dispatch k b =>
    if k ∈ s.reserved then
      some { s with
        agents := s.modifyAgent k (AgentMeta.dispatch b)
        reserved := s.reserved.erase k
        flights := (k, b) :: s.flights }
    else none
  | .finish k b =>
    if (k, b) ∈ s.flights then
      some { s with
        agents := s.modifyAgent k (AgentMeta.finish b)
        flights := s.flights.erase (k, b)
        uploads := (s.machine k).elim s.uploads fun m => forgetUploadsFor s.uploads m b }
    else none
  | .requestPresignedUrls k m b requests =>
    some (s.start (requestPresignedUrls d.toServerConfig s k m b requests))
  | .notifyUploadComplete k m b info => some (s.start (notifyUploadComplete d.toServerConfig s k m b info))
  | .fetchDrvClosure k m b => some (s.start (authorise s k m b >>= fun _ => .ok (.fetching k m b)))
  | .resume c o => if c ∈ s.calls then s.resume d c o else none
  | .put key object =>
    if s.issued.any fun url => decide (url.1 = key ∧ s.now < url.2) then
      some { s with objects := update s.objects key (some object) }
    else none

/-- The connection and build of a call that succeeds with this step. -/
def succeeded (d : Deployment) (s : State) : Action → Option (ℕ × Uuid)
  | .resume (.presigning k _ b _) .outputsRead => if (uploadOutputs d s.now b).isOk then some (k, b) else none
  | .resume (.persisting k _ b _ _) (.stored _) => if (d.projectIdForBuild b).isOk then some (k, b) else none
  | .resume (.fetching k _ b) .exported => some (k, b)
  | _ => none

/-! ### What a step does -/

/-- A call that passes its checks. -/
inductive Started (d : Deployment) (s : State) : Action → Call → Prop
  | presigning {k m b requests} (hr : s.registered k = some m) (ha : s.isActive m b = true) :
      Started d s (.requestPresignedUrls k m b requests) (.presigning k m b requests)
  | verifying {k m b info} (hc : checkNarInfo info = .ok ()) (hr : s.registered k = some m)
      (hu : s.uploads ⟨m, b, info.storePath⟩ = some ⟨info.narHash, info.narSize, info.compression, info.url⟩) :
      Started d s (.notifyUploadComplete k m b info) (.verifying k m b info)
  | fetching {k m b} (hr : s.registered k = some m) (ha : s.isActive m b = true) :
      Started d s (.fetchDrvClosure k m b) (.fetching k m b)

inductive Effect (d : Deployment) (s : State) : Action → State → Prop
  | same (a : Action) : Effect d s a s
  | tick : Effect d s .tick { s with now := s.now + 1 }
  | accept (peerCert : PeerCertIdentity) : Effect d s (.accept peerCert) { s with
      accepted := s.accepted + 1
      connections := update s.connections s.accepted (some { peerCert := peerCert }) }
  | register {k conn info authKind} (hk : s.connections k = some conn) (hn : conn.registered = none)
      (hi : checkAgentInfo d.toServerConfig conn.peerCert info = .ok authKind) :
      Effect d s (.register k info) { s with
        connections := update s.connections k (some
          { conn with registered := some info.machineId, registering := some (info, authKind) }) }
  | registered {k conn info authKind} (hk : s.connections k = some conn)
      (hr : conn.registering = some (info, authKind)) :
      Effect d s (.sessionRegistered k true) { s with
        connections := update s.connections k (some { conn with registering := none })
        agents := update s.agents k (some (newAgent info authKind))
        pool := update s.pool info.machineId (some k) }
  | unregistered {k conn info authKind} (hk : s.connections k = some conn)
      (hr : conn.registering = some (info, authKind)) :
      Effect d s (.sessionRegistered k false) { s with
        connections := update s.connections k (some { peerCert := conn.peerCert }) }
  | disconnect {k conn} (hk : s.connections k = some conn) : Effect d s (.disconnect k) { s with
      connections := update s.connections k none
      calls := s.calls.filter fun c => decide (c.connection ≠ k)
      pool := conn.registered.elim s.pool fun m => removeIfConnection s.pool m k }
  | acquire {k a} (ha : s.agents k = some a) (hlt : a.currentJobs < a.maxJobs) : Effect d s (.acquire k)
      { s with agents := s.modifyAgent k AgentMeta.acquire, reserved := k :: s.reserved }
  | release {k} (hk : k ∈ s.reserved) : Effect d s (.release k)
      { s with agents := s.modifyAgent k AgentMeta.release, reserved := s.reserved.erase k }
  | dispatch {k b} (hk : k ∈ s.reserved) : Effect d s (.dispatch k b) { s with
      agents := s.modifyAgent k (AgentMeta.dispatch b)
      reserved := s.reserved.erase k
      flights := (k, b) :: s.flights }
  | finish {k b} (hf : (k, b) ∈ s.flights) : Effect d s (.finish k b) { s with
      agents := s.modifyAgent k (AgentMeta.finish b)
      flights := s.flights.erase (k, b)
      uploads := (s.machine k).elim s.uploads fun m => forgetUploadsFor s.uploads m b }
  | started {a c} (h : Started d s a c) : Effect d s a { s with calls := c :: s.calls }
  | presigned {k m b requests outputs} (hc : .presigning k m b requests ∈ s.calls)
      (ho : uploadOutputs d s.now b = .ok outputs) :
      Effect d s (.resume (.presigning k m b requests) .outputsRead) { s.finishCall (.presigning k m b requests) with
        uploads := (grant d.toServerConfig s.now m b outputs requests (s.uploads, s.issued)).1
        issued := (grant d.toServerConfig s.now m b outputs requests (s.uploads, s.issued)).2 }
  | verified {k m b info object reads taken v} (hc : .verifying k m b info ∈ s.calls)
      (ho : s.objects info.url = some object)
      (hr : isReading d.codec info.compression object.bytes reads taken = true)
      (hv : verify d.sha256 (verifyRequest info) reads (object.bytes.take taken) = .ok v) :
      Effect d s (.resume (.verifying k m b info) (.readBack reads taken))
        { s with calls := .persisting k m b info v :: s.calls.erase (.verifying k m b info) }
  | persisted {k m b info v projectId signed} (hc : .persisting k m b info v ∈ s.calls)
      (hp : d.projectIdForBuild b = .ok projectId) :
      Effect d s (.resume (.persisting k m b info v) (.stored signed)) { s.finishCall (.persisting k m b info v) with
        narinfos := s.narinfos.upsert s.now (uploadedNarInfo d.toServerConfig b info v projectId signed)
        uploads := update s.uploads ⟨m, b, info.storePath⟩ none }
  | dropped (a : Action) {c : Call} (hc : c ∈ s.calls) : Effect d s a (s.finishCall c)
  | put {key object} (hk : (s.issued.any fun url => decide (url.1 = key ∧ s.now < url.2)) = true) :
      Effect d s (.put key object) { s with objects := update s.objects key (some object) }

variable {s : State}

variable {k : ℕ} {m b : Uuid}

theorem authorise_eq_ok {u : Unit} (h : authorise s k m b = .ok u) :
    s.registered k = some m ∧ s.isActive m b = true := by
  unfold authorise at h
  obtain ⟨hr, h⟩ := ensure_bind_eq_ok.mp h
  obtain ⟨-, h⟩ := ensure_bind_eq_ok.mp h
  unfold ensure at h
  split_ifs at h with ha
  exact ⟨hr, ha⟩

variable {d : Deployment}

theorem effect_start {a : Action} {r : Except String Call}
    (h : ∀ c, r = .ok c → Started d s a c) : Effect d s a (s.start r) := by
  cases r with
  | error => exact .same a
  | ok c => exact .started (h c rfl)

variable {c : Call}

theorem started_request {requests : List PresignedNarRequest}
    (h : requestPresignedUrls d.toServerConfig s k m b requests = .ok c) :
    Started d s (.requestPresignedUrls k m b requests) c := by
  unfold requestPresignedUrls at h
  obtain ⟨-, h⟩ := ensure_bind_eq_ok.mp h
  obtain ⟨_, -, h⟩ := bind_eq_ok.mp h
  obtain ⟨_, hauth, h⟩ := bind_eq_ok.mp h
  obtain rfl := Except.ok.inj h
  exact .presigning (authorise_eq_ok hauth).1 (authorise_eq_ok hauth).2

theorem started_notify {info : NarInfo}
    (h : notifyUploadComplete d.toServerConfig s k m b info = .ok c) :
    Started d s (.notifyUploadComplete k m b info) c := by
  unfold notifyUploadComplete at h
  obtain ⟨⟨⟩, hc, h⟩ := bind_eq_ok.mp h
  obtain ⟨hr, h⟩ := ensure_bind_eq_ok.mp h
  obtain ⟨-, h⟩ := ensure_bind_eq_ok.mp h
  obtain ⟨hu, h⟩ := ensure_bind_eq_ok.mp h
  obtain ⟨-, h⟩ := ensure_bind_eq_ok.mp h
  obtain rfl := Except.ok.inj h
  exact .verifying hc hr hu

theorem register_eq_ok {cfg : ServerConfig} {conn conn' : Connection} {info : AgentInfo}
    (h : register cfg conn info = .ok conn') : conn.registered = none ∧
      ∃ authKind, checkAgentInfo cfg conn.peerCert info = .ok authKind ∧
        conn' = { conn with registered := some info.machineId, registering := some (info, authKind) } := by
  unfold register at h
  obtain ⟨authKind, hi, h⟩ := bind_eq_ok.mp h
  obtain ⟨hn, h⟩ := ensure_bind_eq_ok.mp h
  exact ⟨hn, authKind, hi, (Except.ok.inj h).symm⟩

/-- The steps of a waiting call. -/
theorem effect_resume {s' : State} {o : Outcome} (hc : c ∈ s.calls)
    (h : s.resume d c o = some s') : Effect d s (.resume c o) s' := by
  unfold State.resume at h
  split at h
  next =>
    split at h
    next => exact Option.some.inj h ▸ .dropped _ hc
    next outputs ho => exact Option.some.inj h ▸ .presigned hc ho
  next =>
    split at h
    next => cases h
    next object ho =>
      split_ifs at h with hr
      split at h
      next => exact Option.some.inj h ▸ .dropped _ hc
      next v hv => exact Option.some.inj h ▸ .verified hc ho hr hv
  next =>
    split at h
    next => exact Option.some.inj h ▸ .dropped _ hc
    next projectId hp => exact Option.some.inj h ▸ .persisted hc hp
  next => exact Option.some.inj h ▸ .dropped _ hc
  next => exact Option.some.inj h ▸ .dropped _ hc
  next => cases h

/-- **What a step does.** -/
theorem effect_of_step {s' : State} {a : Action} (h : step d s a = some s') : Effect d s a s' := by
  unfold step at h
  split at h
  next => exact Option.some.inj h ▸ .tick
  next peerCert => exact Option.some.inj h ▸ .accept peerCert
  next k info =>
    obtain ⟨conn, hk, rfl⟩ := Option.map_eq_some_iff.mp h
    split
    next conn' hr =>
      obtain ⟨hn, authKind, hi, rfl⟩ := register_eq_ok hr
      exact .register hk hn hi
    next => exact .same _
  next k ok =>
    obtain ⟨conn, hk, h⟩ := Option.bind_eq_some_iff.mp h
    obtain ⟨⟨info, authKind⟩, hr, rfl⟩ := Option.map_eq_some_iff.mp h
    cases ok with
    | true => exact .registered hk hr
    | false => exact .unregistered hk hr
  next k =>
    obtain ⟨conn, hk, rfl⟩ := Option.map_eq_some_iff.mp h
    exact .disconnect hk
  next k =>
    obtain ⟨a, ha, rfl⟩ := Option.map_eq_some_iff.mp h
    split_ifs with hlt
    · exact .acquire ha hlt
    · exact .same _
  next k =>
    split_ifs at h with hk
    exact Option.some.inj h ▸ .release hk
  next k b =>
    split_ifs at h with hk
    exact Option.some.inj h ▸ .dispatch hk
  next k b =>
    split_ifs at h with hf
    exact Option.some.inj h ▸ .finish hf
  next k m b requests => exact Option.some.inj h ▸ effect_start fun _ => started_request
  next k m b info => exact Option.some.inj h ▸ effect_start fun _ => started_notify
  next k m b =>
    refine Option.some.inj h ▸ effect_start fun c hc => ?_
    obtain ⟨_, hauth, hc⟩ := bind_eq_ok.mp hc
    obtain rfl := Except.ok.inj hc
    exact .fetching (authorise_eq_ok hauth).1 (authorise_eq_ok hauth).2
  next c o =>
    split_ifs at h with hc
    exact effect_resume hc h
  next key object =>
    split_ifs at h with hk
    exact Option.some.inj h ▸ .put hk

/-! ### A small deployment -/

/-- Streams that begin with their length. -/
def smallCodec : Codec where
  stream _
    | [] => none
    | n :: rest => if n.toNat ≤ rest.length then some (rest.take n.toNat, n.toNat + 1) else none
  taken_le {_ object _ _} h := by
    cases object with
    | nil => cases h
    | cons =>
      dsimp only at h
      split_ifs at h with hn
      obtain ⟨-, rfl⟩ := Prod.mk.inj (Option.some.inj h)
      simpa using hn
  nar_lt {_ object _ _} h := by
    cases object with
    | nil => cases h
    | cons n =>
      dsimp only at h
      split_ifs at h with hn
      obtain ⟨rfl, -⟩ := Prod.mk.inj (Option.some.inj h)
      have := n.toNat_lt
      rw [List.length_take]
      omega

/-- Every token is good, and every build has one output. -/
def smallDeployment : Deployment where
  verifyToken _ := true
  presigner := some id
  sha256 := digestOf
  codec := smallCodec
  drvPath _ := .ok "/nix/store/d.drv"
  drvOutputs _ _ := .ok ["/nix/store/o"]
  projectIdForBuild _ := .ok none

def smallAgent (m : Uuid) : AgentInfo :=
  { machineId := m, name := "a", hostname := "h", authToken := "t", systems := ["x86_64-linux"] }

/-- A connection, numbered `k`, on which machine `m` registers. -/
def connectAs (k : ℕ) (m : Uuid) : List Action := [.accept {}, .register k (smallAgent m), .sessionRegistered k true]

end Circus.Rpc
