/-
# API keys and dashboard sessions

The authentication of `crates/server/src/auth_middleware.rs` and the login with
an API key of `routes/dashboard/auth.rs`. A bearer token is looked up in
`api_keys` at every request. A login leaves a copy of the key's row in the
`sessions` of the process, and the session cookie is good for a day: the copy is
not compared with the table again, and `delete_api_key` does not look at it.

So a deleted key is of no use, unless a session of it is alive when it is
deleted (`RevokesLoggedOut`). User sessions are rows of the database; who is
logged in by them is from outside.
-/
import Circus.Cache.Routes

namespace Circus

inductive GlobalRole
  | admin
  | readOnly
  | createProjects
  | evalJobset
  | cancelBuild
  | restartJobs
  | bumpToFront
  deriving DecidableEq, Repr

namespace Server

structure ApiKey where
  id : Uuid
  name : String
  keyHash : String
  role : GlobalRole
  userId : Option Uuid := none
  deriving DecidableEq, Repr

/-- What the middleware reads of a user. -/
structure User where
  id : Uuid
  username : String
  role : GlobalRole
  deriving DecidableEq, Repr

/-- `SessionData` of a dashboard session. -/
structure SessionData where
  apiKey : Option ApiKey
  createdAt : Time

def apiKeySessionMaxAge : Time := 24 * 60 * 60

def SessionData.alive (now : Time) (d : SessionData) : Bool := decide (now < d.createdAt + apiKeySessionMaxAge)

structure Config where
  /-- `require_api_key_for_reads` -/
  requireApiKeyForReads : Bool := false
  /-- The SHA-256 hash, in hexadecimal. -/
  hashApiKey : String → String
  csrfTokenFor : String → String

structure State where
  now : Time := 0
  keys : Table ApiKey.keyHash
  nextId : Uuid := 0
  sessions : AList fun _ : String => SessionData := ∅
  /-- `users::validate_session`. -/
  validateSession : String → Option User := fun _ => none

/-! ### Requests -/

/-- What a request brings along: `RequestCredentials`, its method and its
`x-csrf-token`. -/
structure Request where
  isRead : Bool := true
  bearerToken : Option String := none
  userSessionId : Option String := none
  legacyApiSessionId : Option String := none
  csrfToken : Option String := none
  deriving DecidableEq

/-- What the handler finds in the extensions of a request. -/
structure Extensions where
  apiKey : Option ApiKey := none
  user : Option User := none
  deriving DecidableEq, Repr

inductive StatusCode
  | unauthorized
  | forbidden
  deriving DecidableEq, Repr

section

variable (cfg : Config) (s : State)

def resolveBearerApiKey (token : Option String) : Option ApiKey := token.bind fun t => s.keys.get (cfg.hashApiKey t)

def resolveUserSession (sessionId : Option String) : Option (String × User) :=
  sessionId.bind fun id => (s.validateSession id).map fun user => (id, user)

/-- A session that is too old is removed (`touch`). -/
def resolveLegacyApiKeySession (sessionId : Option String) : Option (String × Option ApiKey) :=
  sessionId.bind fun id => ((s.sessions.lookup id).filter (SessionData.alive s.now)).map fun d => (id, d.apiKey)

def validCsrfHeader (request : Request) (sessionId : String) : Bool :=
  decide (request.csrfToken = some (cfg.csrfTokenFor sessionId))

/-- `require_api_key`, up to the handler. -/
def requireApiKey (request : Request) : Except StatusCode Extensions :=
  match resolveBearerApiKey cfg s request.bearerToken with
  | some apiKey => .ok { apiKey := some apiKey }
  | none =>
    match resolveUserSession s request.userSessionId with
    | some (sessionId, user) =>
      if !request.isRead && !validCsrfHeader cfg request sessionId then .error .forbidden else .ok { user := some user }
    | none =>
      match resolveLegacyApiKeySession s request.legacyApiSessionId with
      | some (sessionId, apiKey) =>
        if !request.isRead && !validCsrfHeader cfg request sessionId then .error .forbidden
        else .ok { apiKey := apiKey }
      | none =>
        if request.isRead && !cfg.requireApiKeyForReads then .ok {} else .error .unauthorized

/-- `extract_session`, the middleware of the dashboard: a session's key replaces
the one of a bearer token. -/
def extractSession (request : Request) : Extensions where
  apiKey := ((resolveLegacyApiKeySession s request.legacyApiSessionId).bind Prod.snd).or
    (resolveBearerApiKey cfg s request.bearerToken)
  user := (resolveUserSession s request.userSessionId).map Prod.snd

/-- Some handler gets to act with the key: by either middleware it is in the
extensions of the request. -/
def Authorises (request : Request) (id : Uuid) : Prop :=
  (∃ e, requireApiKey cfg s request = .ok e ∧ e.apiKey.map ApiKey.id = some id) ∨
    (extractSession cfg s request).apiKey.map ApiKey.id = some id

instance (request : Request) (id : Uuid) : Decidable (Authorises cfg s request id) :=
  match h : requireApiKey cfg s request with
  | .ok e => decidable_of_iff
      (e.apiKey.map ApiKey.id = some id ∨ (extractSession cfg s request).apiKey.map ApiKey.id = some id)
      (by simp [Authorises, h])
  | .error _ => decidable_of_iff ((extractSession cfg s request).apiKey.map ApiKey.id = some id)
      (by simp [Authorises, h])

end

/-! ### The server -/

structure LoginForm where
  username : Option String := none
  apiKey : Option String := none
  password : Option String := none

/-- The key a login is with: a user name with a password goes first. -/
def LoginForm.resolve (cfg : Config) (s : State) (form : LoginForm) : Option ApiKey :=
  match form.username, form.password, form.apiKey with
  | some _, some _, _ => none
  | _, _, some token => if Cache.trim token = "" then none else s.keys.get (cfg.hashApiKey (Cache.trim token))
  | _, _, none => none

inductive Action
  | tick (secs : Time)
  /-- `api_keys::create` -/
  | create (name keyHash : String) (role : GlobalRole)
  /-- `api_keys::upsert`, for a declared key. -/
  | upsert (name keyHash : String) (role : GlobalRole)
  /-- `delete_api_key` -/
  | delete (id : Uuid)
  /-- `login_action`; a session that it opens is `sessionId`. -/
  | login (form : LoginForm) (sessionId : String)
  | logout (sessionId : String)
  | request (request : Request)
  /-- The periodic removal of old sessions. -/
  | cleanup
  /-- The server starts anew. -/
  | restart
  /-- User sessions come and go. -/
  | users (validateSession : String → Option User)

namespace State

def insertKey (s : State) (name keyHash : String) (role : GlobalRole) : State :=
  { s with keys := s.keys.upsert ⟨s.nextId, name, keyHash, role, none⟩, nextId := s.nextId + 1 }

def aliveSessions (s : State) : AList fun _ : String => SessionData :=
  ⟨s.sessions.entries.filter fun d => d.2.alive s.now, s.sessions.nodupKeys.sublist List.filter_sublist⟩

/-- What a request does to the session it names. -/
def touch (s : State) (sessionId : Option String) : State :=
  match sessionId.bind fun id => (s.sessions.lookup id).map fun d => (id, d) with
  | some (id, d) => if d.alive s.now then s else { s with sessions := s.sessions.erase id }
  | none => s

end State

def step (cfg : Config) (s : State) : Action → Option State
  | .tick secs => some { s with now := s.now + secs }
  | .create name keyHash role =>
    match s.keys.get keyHash with
    | some _ => none
    | none => some (s.insertKey name keyHash role)
  | .upsert name keyHash role =>
    match s.keys.get keyHash with
    | some key => some { s with keys := s.keys.upsert { key with name := name, role := role } }
    | none => some (s.insertKey name keyHash role)
  | .delete id => some { s with keys := s.keys.delete fun k => decide (k.id = id) }
  | .login form sessionId =>
    match form.resolve cfg s, s.sessions.lookup sessionId with
    | some key, none => some { s with sessions := s.sessions.insert sessionId ⟨some key, s.now⟩ }
    | _, _ => none
  | .logout sessionId => some { s with sessions := s.sessions.erase sessionId }
  | .request request => some (s.touch request.legacyApiSessionId)
  | .cleanup => some { s with sessions := s.aliveSessions }
  | .restart => some { s with sessions := ∅ }
  | .users validateSession => some { s with validateSession := validateSession }

/-! ### Revocation -/

/-- A key is deleted only when its sessions are over. -/
def RevokesLoggedOut (s : State) : Action → Prop
  | .delete id => ∀ x ∈ s.sessions.entries, x.2.apiKey.map ApiKey.id = some id → x.2.alive s.now = false
  | _ => True

instance (s : State) (a : Action) : Decidable (RevokesLoggedOut s a) := by
  unfold RevokesLoggedOut
  split <;> infer_instance

/-- Ids are given out once. -/
def KeyInv (s : State) : Prop := ∀ k ∈ s.keys.rows, k.id < s.nextId

/-- No row has the id, and no session of it is alive. -/
structure Revoked (id : Uuid) (s : State) : Prop where
  key : ∀ k ∈ s.keys.rows, k.id ≠ id
  lt : id < s.nextId
  session : ∀ x ∈ s.sessions.entries, x.2.apiKey.map ApiKey.id = some id → x.2.alive s.now = false

section Step

variable {cfg : Config} {s s' : State} {id : Uuid}

/-- Time does not bring a session back. -/
theorem not_alive_of_le {d : SessionData} {now now' : Time} (hle : now ≤ now') (h : d.alive now = false) :
    d.alive now' = false := by
  have hold : d.createdAt + apiKeySessionMaxAge ≤ now := Nat.not_lt.mp (of_decide_eq_false h)
  exact decide_eq_false (Nat.not_lt.mpr (hold.trans hle))

/-- The key of a login is in the table. -/
theorem LoginForm.mem_of_resolve {form : LoginForm} {k : ApiKey} (h : form.resolve cfg s = some k) :
    k ∈ s.keys.rows := by
  unfold LoginForm.resolve at h
  split at h
  · cases h
  · split_ifs at h
    exact Table.mem_of_get h
  · cases h

theorem KeyInv.insertKey {name keyHash : String} {role : GlobalRole} (hI : KeyInv s) :
    KeyInv (s.insertKey name keyHash role) := by
  intro k hk
  rcases Table.mem_upsert.mp hk with rfl | ⟨hk, -⟩
  · exact Nat.lt_succ_self _
  · exact (hI k hk).trans (Nat.lt_succ_self _)

theorem KeyInv.step {a : Action} (hI : KeyInv s) (h : step cfg s a = some s') : KeyInv s' := by
  cases a with
  | create name keyHash role =>
    simp only [Server.step] at h
    split at h
    next => cases h
    next =>
      cases h
      exact hI.insertKey
  | upsert name keyHash role =>
    simp only [Server.step] at h
    split at h
    next key hget =>
      cases h
      intro k hk
      rcases Table.mem_upsert.mp hk with rfl | ⟨hk, -⟩
      · exact hI key (Table.mem_of_get hget)
      · exact hI k hk
    next =>
      cases h
      exact hI.insertKey
  | delete =>
    cases h
    exact fun k hk => hI k (List.mem_of_mem_filter hk)
  | login form sessionId =>
    simp only [Server.step] at h
    split at h
    next =>
      cases h
      exact hI
    next => cases h
  | request =>
    cases h
    unfold State.touch
    split
    · split_ifs <;> exact hI
    · exact hI
  | tick _ | logout _ | cleanup | restart | users _ =>
    cases h
    exact hI

/-- A key that goes while its sessions are over is revoked. -/
theorem revoked_of_delete {k : ApiKey} (hI : KeyInv s) (hk : k ∈ s.keys.rows)
    (ha : RevokesLoggedOut s (.delete k.id)) (h : step cfg s (.delete k.id) = some s') : Revoked k.id s' := by
  cases h
  refine ⟨fun k' hk' he => ?_, hI k hk, ha⟩
  have := (List.mem_filter.mp hk').2
  simp [he] at this

theorem Revoked.insertKey {name keyHash : String} {role : GlobalRole} (hR : Revoked id s) :
    Revoked id (s.insertKey name keyHash role) := by
  refine ⟨fun k hk => ?_, hR.lt.trans (Nat.lt_succ_self _), hR.session⟩
  rcases Table.mem_upsert.mp hk with rfl | ⟨hk, -⟩
  · exact hR.lt.ne'
  · exact hR.key k hk

theorem Revoked.withSessions {sessions : AList fun _ : String => SessionData} (hR : Revoked id s)
    (hsub : sessions.entries ⊆ s.sessions.entries) : Revoked id { s with sessions := sessions } :=
  ⟨hR.key, hR.lt, fun x hx => hR.session x (hsub hx)⟩

theorem erase_subset (sessions : AList fun _ : String => SessionData) (sessionId : String) :
    (sessions.erase sessionId).entries ⊆ sessions.entries :=
  (List.kerase_sublist sessionId sessions.entries).subset

theorem Revoked.step {a : Action} (hR : Revoked id s) (h : step cfg s a = some s') : Revoked id s' := by
  cases a with
  | tick =>
    cases h
    exact ⟨hR.key, hR.lt, fun x hx hid => not_alive_of_le (Nat.le_add_right _ _) (hR.session x hx hid)⟩
  | create name keyHash role =>
    simp only [Server.step] at h
    split at h
    next => cases h
    next =>
      cases h
      exact hR.insertKey
  | upsert name keyHash role =>
    simp only [Server.step] at h
    split at h
    next key hget =>
      cases h
      refine ⟨fun k hk => ?_, hR.lt, hR.session⟩
      rcases Table.mem_upsert.mp hk with rfl | ⟨hk, -⟩
      · exact hR.key key (Table.mem_of_get hget)
      · exact hR.key k hk
    next =>
      cases h
      exact hR.insertKey
  | delete =>
    cases h
    exact ⟨fun k hk => hR.key k (List.mem_of_mem_filter hk), hR.lt, hR.session⟩
  | login form sessionId =>
    simp only [Server.step] at h
    split at h
    next key hkey hfree =>
      cases h
      refine ⟨hR.key, hR.lt, fun x hx hid => ?_⟩
      rcases List.mem_cons.mp hx with rfl | hx
      · exact absurd (Option.some.inj hid) (hR.key key (LoginForm.mem_of_resolve hkey))
      · exact hR.session x (erase_subset _ _ hx) hid
    next => cases h
  | logout =>
    cases h
    exact hR.withSessions (erase_subset _ _)
  | request =>
    cases h
    unfold State.touch
    split
    · split_ifs
      · exact hR
      · exact hR.withSessions (erase_subset _ _)
    · exact hR
  | cleanup =>
    cases h
    exact hR.withSessions fun x hx => List.mem_of_mem_filter hx
  | restart =>
    cases h
    exact hR.withSessions (List.nil_subset _)
  | users =>
    cases h
    exact ⟨hR.key, hR.lt, hR.session⟩

theorem Revoked.legacy (hR : Revoked id s) {sessionId : Option String} {x : String × Option ApiKey}
    (h : resolveLegacyApiKeySession s sessionId = some x) : x.2.map ApiKey.id ≠ some id := by
  intro hid
  obtain ⟨sid, -, hx⟩ := Option.bind_eq_some_iff.mp h
  obtain ⟨d, hd, rfl⟩ := Option.map_eq_some_iff.mp hx
  obtain ⟨hlookup, halive⟩ := Option.filter_eq_some_iff.mp hd
  have hdead := hR.session ⟨sid, d⟩ (AList.mem_lookup_iff.mp hlookup) hid
  rw [hdead] at halive
  cases halive

/-- Nor is that of a token. -/
theorem Revoked.bearer (hR : Revoked id s) (token : Option String) :
    (resolveBearerApiKey cfg s token).map ApiKey.id ≠ some id := by
  intro hid
  obtain ⟨k, hk, hkid⟩ := Option.map_eq_some_iff.mp hid
  obtain ⟨t, -, hget⟩ := Option.bind_eq_some_iff.mp hk
  exact hR.key k (Table.mem_of_get hget) hkid

theorem Revoked.not_authorises (hR : Revoked id s) (request : Request) : ¬ Authorises cfg s request id := by
  rintro (⟨e, he, hid⟩ | hid)
  · unfold requireApiKey at he
    split at he
    next key hkey =>
      cases he
      exact hR.bearer request.bearerToken (hkey ▸ hid)
    next =>
      split at he
      next =>
        split_ifs at he
        cases he
        cases hid
      next =>
        split at he
        next sessionId apiKey hsession =>
          split_ifs at he
          cases he
          exact hR.legacy hsession hid
        next =>
          split_ifs at he
          cases he
          cases hid
  · rw [extractSession] at hid
    cases hl : (resolveLegacyApiKeySession s request.legacyApiSessionId).bind Prod.snd with
    | none =>
      rw [hl, Option.none_or] at hid
      exact hR.bearer _ hid
    | some =>
      obtain ⟨x, hx, hkey⟩ := Option.bind_eq_some_iff.mp hl
      rw [hl, Option.some_or, ← hkey] at hid
      exact hR.legacy hx hid

end Step

/-- **A deleted key is of no use**, in every run in which keys are deleted only
when their sessions are over: no later request is authorised with it, neither by
a token nor by a session cookie. -/
theorem revoked_key_useless {cfg : Config} {s₀ s₁ s : State} {as bs : List Action} {k : ApiKey}
    (h₀ : ∀ k ∈ s₀.keys.rows, k.id < s₀.nextId) (h₁ : Lts.exec (step cfg) s₀ as = some s₁)
    (hk : k ∈ s₁.keys.rows) (hrun : Lts.Along (step cfg) RevokesLoggedOut s₁ (.delete k.id :: bs))
    (h : Lts.exec (step cfg) s₁ (.delete k.id :: bs) = some s) (request : Request) :
    ¬ Authorises cfg s request k.id := by
  have hI : KeyInv s₁ :=
    Lts.exec_inv (fun _ _ _ hI (_ : True) hs => KeyInv.step hI hs) h₀ (.of_mem fun _ _ _ => trivial) h₁
  obtain ⟨s₂, hdel, hrest⟩ := (Lts.exec_cons (step cfg)).mp h
  have hR₂ : Revoked k.id s₂ := revoked_of_delete hI hk hrun.1 hdel
  have hR : Revoked k.id s :=
    Lts.exec_inv (fun _ _ _ hR (_ : True) hs => Revoked.step hR hs) hR₂ (.of_mem fun _ _ _ => trivial) hrest
  exact hR.not_authorises request

/-! ### Runs -/

/-- Keys and sessions hash to themselves. -/
def small : Config := { hashApiKey := id, csrfTokenFor := id }

/-- A server with no keys. -/
def empty : State := { keys := ⟨[], List.nodup_nil⟩ }

/-- A key is created, and somebody logs in with it. -/
def loggedIn : List Action :=
  [.create "deploy" "circus_1" .admin, .login { apiKey := some " circus_1" } "a"]

def deployKey : ApiKey := ⟨0, "deploy", "circus_1", .admin, none⟩

def withBoth : Request := { bearerToken := some "circus_1", legacyApiSessionId := some "a" }

/-- The session is over a day later; then the key is deleted. -/
theorem revoked_key_useless_expired :
    ∃ s₁ ∈ Lts.exec (step small) empty (loggedIn ++ [.tick 86400]), Authorises small s₁ withBoth 0 ∧
      ∃ s ∈ Lts.exec (step small) s₁ [.delete 0], ¬ Authorises small s withBoth 0 := by
  obtain ⟨s₁, hs₁, hk, hauth, hrun, s, hs⟩ : ∃ s₁ ∈ Lts.exec (step small) empty (loggedIn ++ [.tick 86400]),
      deployKey ∈ s₁.keys.rows ∧ Authorises small s₁ withBoth 0 ∧
        Lts.Along (step small) RevokesLoggedOut s₁ [.delete 0] ∧
        ∃ s, s ∈ Lts.exec (step small) s₁ [.delete 0] :=
    ⟨_, rfl, by decide, by decide, by decide, _, rfl⟩
  exact ⟨s₁, hs₁, hauth, s, hs, revoked_key_useless (k := deployKey) (by simp [empty]) hs₁ hk hrun hs withBoth⟩

/-- A session opened before the deletion goes on acting as an admin. -/
theorem session_outlives_key :
    ∃ s ∈ Lts.exec (step small) empty (loggedIn ++ [.delete 0, .tick 86399]), s.keys.rows = [] ∧
      requireApiKey small s { isRead := false, legacyApiSessionId := some "a", csrfToken := some "a" } =
        .ok { apiKey := some deployKey } := by
  exact ⟨_, rfl, by decide, by decide⟩

end Server

end Circus
