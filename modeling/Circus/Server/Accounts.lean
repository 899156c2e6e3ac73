/-
# Accounts

`repo/users.rs` with the callback of GitHub (`routes/oauth.rs`), the LDAP login
(`routes/ldap.rs`) and the checks of `validation.rs`. Local, GitHub and LDAP users
are rows of one table. `upsert_oauth_user` finds the row of an external identity
by a username made of the login, an underscore and the provider's id, whoever
has created that row.

The id is what follows the last underscore, so two identities have two usernames
(`uniqueUsername_injective`). But the login is part of the username, and
`validate_username` lets a local user have one of these names. An identity
has an account of its own in every run in which logins do not change and local
users keep off the reserved names (`KeepsNames`).
-/
import Circus.Server.ApiKeys

namespace Circus.Server.Accounts

/-! ### Checks -/

structure ValidationError where
  field : String
  message : String
  deriving DecidableEq, Repr

/-- An error unless the check holds. -/
def ensure (ok : Bool) (field message : String) : Except ValidationError Unit :=
  if ok then .ok () else .error ⟨field, message⟩

def validateUsername (username : String) : Except ValidationError Unit := do
  ensure (decide (username ≠ "")) "username" "Username is required"
  -- `^[a-zA-Z0-9_-]{3,32}$`
  ensure (decide (3 ≤ username.toList.length ∧ username.toList.length ≤ 32) &&
      username.toList.all fun c => c.isAlphanum || decide (c = '_' ∨ c = '-')) "username"
    "Username must be 3-32 characters and contain only letters, numbers, underscores, and hyphens"

def validateEmail (email : String) (regex : Option (String → Bool)) : Except ValidationError Unit := do
  ensure (decide (email ≠ "")) "email" "Email is required"
  ensure (decide (email.utf8ByteSize ≤ 255)) "email" "Email must be 255 characters or less"
  match regex with
  | some isMatch => ensure (isMatch email) "email" "Invalid email format"
  | none => ensure (decide ('@' ∈ email.toList)) "email" "Email must contain '@'"

def validatePassword (password : String) : Except ValidationError Unit := do
  ensure (decide (12 ≤ password.utf8ByteSize)) "password" "Password must be at least 12 characters"
  ensure (password.toList.any Char.isUpper) "password" "Password must contain at least one uppercase letter"
  ensure (password.toList.any Char.isLower) "password" "Password must contain at least one lowercase letter"
  ensure (password.toList.any Char.isDigit) "password" "Password must contain at least one number"
  ensure (password.toList.any fun c => !c.isAlphanum) "password"
    "Password must contain at least one special character"

def validateFullName (name : String) : Except ValidationError Unit := do
  ensure (decide (name.utf8ByteSize ≤ 255)) "full_name" "Full name must be 255 characters or less"
  ensure (!name.toList.any Rpc.isControl) "full_name" "Full name cannot contain control characters"

/-! ### The table -/

inductive UserType
  | local
  | github
  | google
  | ldap
  deriving DecidableEq, Repr

structure UserRow where
  id : Uuid
  username : String
  email : String
  fullName : Option String := none
  passwordHash : Option String := none
  userType : UserType := .local
  role : GlobalRole := .readOnly
  enabled : Bool := true
  deriving DecidableEq, Repr

/-- What no statement changes. -/
def UserRow.identity (u : UserRow) : Uuid × String × UserType := (u.id, u.username, u.userType)

structure Db where
  users : Table fun u : UserRow => u.id
  nextId : Uuid
  id_lt : ∀ u ∈ users.rows, u.id < nextId
  username_unique : ∀ u ∈ users.rows, ∀ v ∈ users.rows, u.username = v.username → u.id = v.id
  email_unique : ∀ u ∈ users.rows, ∀ v ∈ users.rows, u.email = v.email → u.id = v.id

inductive Failure
  | validation (e : ValidationError)
  | conflict (message : String)
  | database
  /-- The answers of `ldap_login`. -/
  | badRequest
  | notFound
  | serviceUnavailable
  | unauthorized
  deriving DecidableEq, Repr

/-- The text fits a `VARCHAR(255)`. -/
def fits (text : String) : Bool := decide (text.length ≤ 255 ∧ '\x00' ∉ text.toList)

namespace Db

theorem get_of_mem {db : Db} {u : UserRow} (h : u ∈ db.users.rows) : db.users.get u.id = some u :=
  @Table.get_of_mem _ _ (fun u : UserRow => u.id) _ db.users u h

/-- `get_by_username`, and `upsert_oauth_user_fetch`. -/
def getByUsername (db : Db) (username : String) : Option UserRow :=
  db.users.rows.find? fun u => decide (u.username = username)

/-- A unique index has the username or the email. -/
def taken (db : Db) (username email : String) : Bool :=
  db.users.rows.any fun u => decide (u.username = username ∨ u.email = email)

theorem not_taken {db : Db} {username email : String} (h : ¬ db.taken username email = true) {u : UserRow}
    (hu : u ∈ db.users.rows) : u.username ≠ username ∧ u.email ≠ email := by
  have hall : ∀ u ∈ db.users.rows, ¬ (u.username = username ∨ u.email = email) := by
    simpa [taken, not_or] using h
  exact not_or.mp (hall u hu)

/-- `INSERT INTO users` of a row that violates no constraint. -/
def insertUser (db : Db) (u : UserRow) (hid : u.id = db.nextId) (hfree : ¬ db.taken u.username u.email = true) :
    Db where
  users := db.users.upsert u
  nextId := db.nextId + 1
  id_lt v hv := by
    rcases Table.mem_upsert.mp hv with rfl | ⟨hv, -⟩
    · exact hid ▸ Nat.lt_succ_self _
    · exact (db.id_lt v hv).trans (Nat.lt_succ_self _)
  username_unique v hv w hw he := by
    rcases Table.mem_upsert.mp hv with hv | ⟨hv, -⟩ <;> rcases Table.mem_upsert.mp hw with hw | ⟨hw, -⟩
    · rw [hv, hw]
    · exact absurd (he.symm.trans (hv ▸ rfl)) (not_taken hfree hw).1
    · exact absurd (he.trans (hw ▸ rfl)) (not_taken hfree hv).1
    · exact db.username_unique v hv w hw he
  email_unique v hv w hw he := by
    rcases Table.mem_upsert.mp hv with hv | ⟨hv, -⟩ <;> rcases Table.mem_upsert.mp hw with hw | ⟨hw, -⟩
    · rw [hv, hw]
    · exact absurd (he.symm.trans (hv ▸ rfl)) (not_taken hfree hw).2
    · exact absurd (he.trans (hw ▸ rfl)) (not_taken hfree hv).2
    · exact db.email_unique v hv w hw he

/-- Some other row has the email. -/
def emailTaken (db : Db) (id : Uuid) (email : String) : Bool :=
  db.users.rows.any fun u => decide (u.id ≠ id ∧ u.email = email)

/-- `upsert_oauth_user_update_email`. -/
def updateEmail (db : Db) (id : Uuid) (email : String) (hfree : ¬ db.emailTaken id email = true) : Db :=
  have hother : ∀ u ∈ db.users.rows, u.email = email → u.id = id := by
    intro u hu he
    by_contra hne
    exact hfree (List.any_eq_true.mpr ⟨u, hu, by simp [hne, he]⟩)
  { users := db.users.update (fun u => decide (u.id = id)) (fun u => { u with email := email }) fun _ => rfl
    nextId := db.nextId
    id_lt := fun u hu => by
      obtain ⟨u₀, hu₀, rfl⟩ := List.mem_map.mp hu
      split_ifs <;> exact db.id_lt u₀ hu₀
    username_unique := fun u hu v hv he => by
      obtain ⟨u₀, hu₀, rfl⟩ := List.mem_map.mp hu
      obtain ⟨v₀, hv₀, rfl⟩ := List.mem_map.mp hv
      have := db.username_unique u₀ hu₀ v₀ hv₀
      split_ifs at he ⊢ <;> exact this he
    email_unique := fun u hu v hv he => by
      obtain ⟨u₀, hu₀, rfl⟩ := List.mem_map.mp hu
      obtain ⟨v₀, hv₀, rfl⟩ := List.mem_map.mp hv
      split_ifs at he ⊢ with hu₁ hv₁ hv₁
      · exact (of_decide_eq_true hu₁).trans (of_decide_eq_true hv₁).symm
      · exact (of_decide_eq_true hu₁).trans (hother v₀ hv₀ he.symm).symm
      · exact (hother u₀ hu₀ he).trans (of_decide_eq_true hv₁).symm
      · exact db.email_unique u₀ hu₀ v₀ hv₀ he }

end Db

/-! ### Logging in -/

structure CreateUser where
  username : String
  email : String
  fullName : Option String := none
  password : String
  role : Option GlobalRole := none
  deriving DecidableEq

structure Config where
  /-- `email_validation_regex` -/
  emailRegex : Option (String → Bool) := none
  /-- Argon2, with a salt. -/
  hashPassword : String → String
  /-- LDAP is configured and enabled. -/
  ldapEnabled : Bool := true

def checked : Except ValidationError Unit → Except Failure Unit
  | .ok () => .ok ()
  | .error e => .error (.validation e)

/-- The insertion of a new user. -/
def insert (db : Db) (u : UserRow) (hid : u.id = db.nextId) (message : String) : Except Failure (UserRow × Db) :=
  if !(fits u.username && fits u.email) then .error .database
  else if h : db.taken u.username u.email = true then .error (.conflict message)
  else .ok (u, db.insertUser u hid h)

def create (cfg : Config) (db : Db) (data : CreateUser) : Except Failure (UserRow × Db) := do
  checked (validateUsername data.username)
  checked (validateEmail data.email cfg.emailRegex)
  checked (validatePassword data.password)
  data.fullName.elim (.ok ()) fun name => checked (validateFullName name)
  insert db
    { id := db.nextId, username := data.username, email := data.email, fullName := data.fullName
      passwordHash := some (cfg.hashPassword data.password), role := data.role.getD .readOnly } rfl
    "Username or email already exists"

/-- What `upsert_oauth_user` does with a row it finds. -/
def refresh (cfg : Config) (db : Db) (user : UserRow) : Option String → Except Failure (UserRow × Db)
  | some email => do
    checked (validateEmail email cfg.emailRegex)
    if !fits email then .error .database
    else if h : db.emailTaken user.id email = true then .error .database
    else .ok ({ user with email := email }, db.updateEmail user.id email h)
  | none => .ok (user, db)

def upsertOauthUser (cfg : Config) (db : Db) (username : String) (email : Option String) (userType : UserType)
    (oauthProviderId : String) : Except Failure (UserRow × Db) :=
  let uniqueUsername := username ++ "_" ++ oauthProviderId
  match db.getByUsername uniqueUsername with
  | some user => refresh cfg db user email
  | none => insert db
      { id := db.nextId, username := uniqueUsername, email := email.getD (uniqueUsername ++ "@oauth.local")
        userType := userType } rfl "Username or email already in use"

/-- `GitHubEmailResponse`. -/
structure GitHubEmail where
  email : String
  primary : Bool
  verified : Bool
  deriving DecidableEq

/-- The email `github_callback` takes. -/
def primaryEmail (emails : List GitHubEmail) : Option String :=
  ((emails.find? fun e => e.primary && e.verified).or (emails.find? fun e => e.verified)).map (·.email)

/-- What `ldap_login` gets from the directory. -/
inductive Bind
  | accepted
  /-- The bind is rejected, or fails. -/
  | rejected
  /-- There is no connection. -/
  | unreachable
  deriving DecidableEq

inductive Action
  /-- A local user is created, by an admin or by the bootstrap. -/
  | createUser (data : CreateUser)
  /-- `github_callback`, with what GitHub says. -/
  | githubCallback (login : String) (id : ℤ) (emails : List GitHubEmail)
  | ldapLogin (username password : String) (bind : Bind)
  deriving DecidableEq

/-- The row a request creates or opens a session for. -/
def serve (cfg : Config) (db : Db) : Action → Except Failure (UserRow × Db)
  | .createUser data => create cfg db data
  | .githubCallback login id emails => upsertOauthUser cfg db login (primaryEmail emails) .github (toString id)
  | .ldapLogin username password bind =>
    if Cache.trim username = "" ∨ password = "" then .error .badRequest
    else if !cfg.ldapEnabled then .error .notFound
    else
      match bind with
      | .unreachable => .error .serviceUnavailable
      | .rejected => .error .unauthorized
      | .accepted => upsertOauthUser cfg db username none .ldap "ldap"

/-- A request that fails leaves the table as it was. -/
def step (cfg : Config) (db : Db) (a : Action) : Option Db :=
  match serve cfg db a with
  | .ok (_, db') => some db'
  | .error _ => some db

/-! ### Usernames of external identities -/

/-- Who logs in. -/
inductive External
  | github (login : String) (id : ℤ)
  | ldap (username : String)
  deriving DecidableEq

namespace External

def login : External → String
  | github login _ => login
  | ldap username => username

def providerId : External → String
  | github _ id => toString id
  | ldap _ => "ldap"

def userType : External → UserType
  | github _ _ => .github
  | ldap _ => .ldap

def uniqueUsername (e : External) : String := e.login ++ "_" ++ e.providerId

end External

def Action.external : Action → Option External
  | createUser _ => none
  | githubCallback login id _ => some (.github login id)
  | ldapLogin username _ _ => some (.ldap username)

/-- What follows the last underscore. -/
def lastPart (name : String) : Option String :=
  if '_' ∈ name.toList then some (String.ofList (name.toList.reverse.takeWhile fun c => c ≠ '_').reverse) else none

theorem lastPart_append {front back : String} (h : '_' ∉ back.toList) :
    lastPart (front ++ "_" ++ back) = some back := by
  have hlist : (front ++ "_" ++ back).toList = front.toList ++ '_' :: back.toList := by
    rw [String.toList_append, String.toList_append, List.append_assoc]
    rfl
  have hmem : '_' ∈ (front ++ "_" ++ back).toList := by
    rw [hlist]
    simp
  have hback : ∀ c ∈ back.toList.reverse, (decide (c ≠ '_')) = true := by
    intro c hc
    refine decide_eq_true fun he => h ?_
    rw [← he]
    exact List.mem_reverse.mp hc
  rw [lastPart, if_pos hmem, hlist, List.reverse_append, List.reverse_cons, List.append_assoc,
    List.takeWhile_append_of_pos hback]
  simp

theorem underscore_notMem_providerId (e : External) : '_' ∉ e.providerId.toList := by
  cases e with
  | github =>
    intro h
    rcases Cache.char_of_mem_toString h with h | h <;> revert h <;> decide
  | ldap =>
    change '_' ∉ "ldap".toList
    decide

theorem lastPart_uniqueUsername (e : External) : lastPart e.uniqueUsername = some e.providerId :=
  lastPart_append (underscore_notMem_providerId e)

theorem toString_int_injective : Function.Injective (toString : ℤ → String) := fun m n h => by
  have hread : Cache.readInt m.repr = Cache.readInt n.repr := congrArg Cache.readInt h
  rw [Cache.readInt_repr, Cache.readInt_repr] at hread
  exact Option.some.inj hread

/-- No number reads `ldap`. -/
theorem toString_ne_ldap (n : ℤ) : toString n ≠ "ldap" := by
  intro h
  have hl : 'l' ∈ (toString n).toList := by
    rw [h]
    decide
  rcases Cache.char_of_mem_toString hl with h | h <;> revert h <;> decide

/-- Two identities have two usernames. -/
theorem uniqueUsername_injective : Function.Injective External.uniqueUsername := by
  intro e e' h
  have hid : e.providerId = e'.providerId := by
    have := congrArg lastPart h
    rw [lastPart_uniqueUsername, lastPart_uniqueUsername] at this
    exact Option.some.inj this
  have hlogin : e.login = e'.login := by
    unfold External.uniqueUsername at h
    rw [hid] at h
    have hlist := congrArg String.toList h
    simp only [String.toList_append, List.append_assoc] at hlist
    exact String.toList_injective (List.append_cancel_right hlist)
  cases e with
  | github login id =>
    cases e' with
    | github login' => rw [show login = login' from hlogin, toString_int_injective hid]
    | ldap => exact absurd hid (toString_ne_ldap id)
  | ldap username =>
    cases e' with
    | github login id => exact absurd hid.symm (toString_ne_ldap id)
    | ldap username' => rw [show username = username' from hlogin]

/-- The name may be that of an external identity. -/
def reserved (name : String) : Bool :=
  (lastPart name).any fun part => decide (part = "ldap") || (Cache.readInt part).any fun n => decide (toString n = part)

theorem reserved_uniqueUsername (e : External) : reserved e.uniqueUsername = true := by
  rw [reserved, lastPart_uniqueUsername]
  cases e with
  | github =>
    simp [External.providerId, Cache.readInt_repr]
  | ldap => simp [External.providerId]

/-! ### What a request does to the table -/

/-- A request that ends with row `u`, of this name: all rows are kept, and a row
that was not there is `u`, with the type of the request. -/
structure Served (db db' : Db) (username : String) (userType : UserType) (u : UserRow) : Prop where
  mem : u ∈ db'.users.rows
  username : u.username = username
  kept : ∀ v ∈ db.users.rows, ∃ v' ∈ db'.users.rows, v'.identity = v.identity
  rows : ∀ v' ∈ db'.users.rows, (∃ v ∈ db.users.rows, v'.identity = v.identity) ∨ v' = u ∧ u.userType = userType

section Served

variable {cfg : Config} {db db' : Db} {u : UserRow}

theorem insert_served {row : UserRow} {hid : row.id = db.nextId} {message : String}
    (h : insert db row hid message = .ok (u, db')) : Served db db' row.username row.userType u := by
  unfold insert at h
  split_ifs at h with hfits htaken
  cases h
  refine ⟨Table.mem_upsert.mpr (.inl rfl), rfl, fun v hv => ?_, fun v hv => ?_⟩
  · have hne : v.id ≠ u.id := hid ▸ (db.id_lt v hv).ne
    exact ⟨v, Table.mem_upsert.mpr (.inr ⟨hv, hne⟩), rfl⟩
  · rcases Table.mem_upsert.mp hv with rfl | ⟨hv, -⟩
    · exact .inr ⟨rfl, rfl⟩
    · exact .inl ⟨v, hv, rfl⟩

theorem identity_updateEmail (u : UserRow) (p : Prop) [Decidable p] (email : String) :
    (if decide p then { u with email := email } else u).identity = u.identity := by
  split_ifs <;> rfl

theorem refresh_served {user : UserRow} {email : Option String} {userType : UserType} (hu : user ∈ db.users.rows)
    (h : refresh cfg db user email = .ok (u, db')) : Served db db' user.username userType u := by
  cases email with
  | none =>
    cases h
    exact ⟨hu, rfl, fun v hv => ⟨v, hv, rfl⟩, fun v hv => .inl ⟨v, hv, rfl⟩⟩
  | some email =>
    obtain ⟨_, -, h⟩ := Rpc.bind_eq_ok.mp h
    split_ifs at h with hfits htaken
    cases h
    have hrow : ∀ v ∈ db.users.rows, (if decide (v.id = user.id) then { v with email := email } else v) ∈
        (db.updateEmail user.id email htaken).users.rows := fun v hv => List.mem_map.mpr ⟨v, hv, rfl⟩
    refine ⟨?_, rfl, fun v hv => ⟨_, hrow v hv, identity_updateEmail v _ email⟩, fun v' hv' => ?_⟩
    · have hself := hrow user hu
      rwa [if_pos (by simp)] at hself
    · obtain ⟨v, hv, rfl⟩ := List.mem_map.mp hv'
      exact .inl ⟨v, hv, identity_updateEmail v _ email⟩

theorem upsertOauthUser_served {username : String} {email : Option String} {userType : UserType} {id : String}
    (h : upsertOauthUser cfg db username email userType id = .ok (u, db')) :
    Served db db' (username ++ "_" ++ id) userType u := by
  unfold upsertOauthUser at h
  simp only at h
  split at h
  next user hfind =>
    have hname : user.username = username ++ "_" ++ id := by simpa using List.find?_some hfind
    exact hname ▸ refresh_served (List.mem_of_find?_eq_some hfind) h
  next => exact insert_served h

theorem create_served {data : CreateUser} (h : create cfg db data = .ok (u, db')) :
    Served db db' data.username .local u := by
  unfold create at h
  obtain ⟨_, -, h⟩ := Rpc.bind_eq_ok.mp h
  obtain ⟨_, -, h⟩ := Rpc.bind_eq_ok.mp h
  obtain ⟨_, -, h⟩ := Rpc.bind_eq_ok.mp h
  obtain ⟨_, -, h⟩ := Rpc.bind_eq_ok.mp h
  exact insert_served h

/-- A login ends with the row of the identity's username. -/
theorem login_served {a : Action} {e : External} (ha : a.external = some e) (h : serve cfg db a = .ok (u, db')) :
    Served db db' e.uniqueUsername e.userType u := by
  cases a with
  | createUser => cases ha
  | githubCallback =>
    cases ha
    exact upsertOauthUser_served h
  | ldapLogin username password bind =>
    cases ha
    simp only [serve] at h
    split_ifs at h
    cases bind with
    | unreachable | rejected => cases h
    | accepted => exact upsertOauthUser_served h

end Served

/-! ### Accounts of their own -/

/-- Local users keep off the reserved names, and an id of GitHub comes with the
login it has come with. -/
def KeepsNames (db : Db) : Action → Prop
  | .createUser data => reserved data.username = false
  | .githubCallback login id _ => ∀ v ∈ db.users.rows, v.userType = .github →
      lastPart v.username = some (toString id) → v.username = (External.github login id).uniqueUsername
  | .ldapLogin _ _ _ => True

instance (db : Db) (a : Action) : Decidable (KeepsNames db a) := by
  unfold KeepsNames
  split <;> infer_instance

/-- The row of a local user has a name of its own, any other that of an identity
of its provider. -/
def Named (u : UserRow) : Prop :=
  if u.userType = .local then reserved u.username = false
  else ∃ e : External, u.username = e.uniqueUsername ∧ u.userType = e.userType

theorem Named.of_identity {u v : UserRow} (h : v.identity = u.identity) (hu : Named u) : Named v := by
  have hname : v.username = u.username := congrArg (fun i => i.2.1) h
  have htype : v.userType = u.userType := congrArg (fun i => i.2.2) h
  unfold Named at hu ⊢
  rwa [hname, htype]

/-- The name of an identity tells the provider. -/
theorem Named.userType {u : UserRow} {e : External} (h : Named u) (hu : u.username = e.uniqueUsername) :
    u.userType = e.userType := by
  unfold Named at h
  split_ifs at h with hlocal
  · rw [hu, reserved_uniqueUsername] at h
    cases h
  · obtain ⟨e', hname, htype⟩ := h
    rw [uniqueUsername_injective (hu.symm.trans hname), htype]

/-- The identity whose row a request opens a session for. -/
def session (cfg : Config) (x : Db × Action) : Option (External × UserRow) :=
  match x.2.external, serve cfg x.1 x.2 with
  | some e, .ok (u, _) => some (e, u)
  | _, _ => none

theorem session_eq_some {cfg : Config} {x : Db × Action} {e : External} {u : UserRow} :
    session cfg x = some (e, u) ↔ x.2.external = some e ∧ ∃ db', serve cfg x.1 x.2 = .ok (u, db') := by
  unfold session
  cases x.2.external with
  | none => simp
  | some =>
    cases serve cfg x.1 x.2 with
    | error => simp
    | ok => simp [Prod.ext_iff, eq_comm]

/-- What a run keeps. -/
structure AccountsInv (cfg : Config) (past : List (Db × Action)) (db : Db) : Prop where
  named : ∀ u ∈ db.users.rows, Named u
  /-- An id of GitHub has one row. -/
  logins : ∀ u ∈ db.users.rows, ∀ v ∈ db.users.rows, u.userType = .github → v.userType = .github →
    lastPart u.username = lastPart v.username → u.username = v.username
  /-- The rows sessions were opened for are there, with their names and types. -/
  sessions : ∀ x ∈ past, ∀ e u, session cfg x = some (e, u) →
    u.username = e.uniqueUsername ∧ u.userType = e.userType ∧ ∃ v ∈ db.users.rows, v.identity = u.identity

section Step

variable {cfg : Config} {db db' : Db} {past : List (Db × Action)} {u : UserRow}

/-- A request that is served with a name that fits. -/
theorem AccountsInv.served {a : Action} {name : String} {userType : UserType} (hI : AccountsInv cfg past db)
    (h : serve cfg db a = .ok (u, db')) (hs : Served db db' name userType u)
    (hnamed : u.userType = userType → Named u)
    (hlogin : userType = .github → ∀ v ∈ db.users.rows, v.userType = .github →
      lastPart v.username = lastPart name → v.username = name)
    (hname : ∀ e, a.external = some e → name = e.uniqueUsername) :
    AccountsInv cfg (past ++ [(db, a)]) db' := by
  have hnamed' : ∀ v ∈ db'.users.rows, Named v := by
    intro v' hv'
    rcases hs.rows v' hv' with ⟨v, hv, hid⟩ | ⟨rfl, htype⟩
    · exact (hI.named v hv).of_identity hid
    · exact hnamed htype
  refine ⟨hnamed', fun v' hv' w' hw' htv htw hpart => ?_, fun x hx e r hr => ?_⟩
  · rcases hs.rows v' hv' with ⟨v, hv, hidv⟩ | ⟨rfl, htypev⟩ <;>
      rcases hs.rows w' hw' with ⟨w, hw, hidw⟩ | ⟨rfl, htypew⟩
    · have hnv : v'.username = v.username := congrArg (fun i => i.2.1) hidv
      have hnw : w'.username = w.username := congrArg (fun i => i.2.1) hidw
      have hgv : v'.userType = v.userType := congrArg (fun i => i.2.2) hidv
      have hgw : w'.userType = w.userType := congrArg (fun i => i.2.2) hidw
      rw [hnv, hnw] at hpart ⊢
      exact hI.logins v hv w hw (hgv ▸ htv) (hgw ▸ htw) hpart
    · have hnv : v'.username = v.username := congrArg (fun i => i.2.1) hidv
      have hgv : v'.userType = v.userType := congrArg (fun i => i.2.2) hidv
      rw [hnv, hs.username] at hpart ⊢
      exact hlogin (htypew.symm.trans htw) v hv (hgv ▸ htv) hpart
    · have hnw : w'.username = w.username := congrArg (fun i => i.2.1) hidw
      have hgw : w'.userType = w.userType := congrArg (fun i => i.2.2) hidw
      rw [hnw, hs.username] at hpart ⊢
      exact (hlogin (htypev.symm.trans htv) w hw (hgw ▸ htw) hpart.symm).symm
    · rfl
  · rcases List.mem_append.mp hx with hx | hx
    · obtain ⟨hru, hrt, v, hv, hid⟩ := hI.sessions x hx e r hr
      obtain ⟨v', hv', hid'⟩ := hs.kept v hv
      exact ⟨hru, hrt, v', hv', hid'.trans hid⟩
    · rw [List.mem_singleton] at hx
      subst hx
      obtain ⟨he, db'', hserve⟩ := session_eq_some.mp hr
      rw [h] at hserve
      cases hserve
      have hu : u.username = e.uniqueUsername := hs.username.trans (hname e he)
      exact ⟨hu, (hnamed' u hs.mem).userType hu, u, hs.mem, rfl⟩

theorem AccountsInv.step {a : Action} (hI : AccountsInv cfg past db) (ha : KeepsNames db a)
    (h : step cfg db a = some db') : AccountsInv cfg (past ++ [(db, a)]) db' := by
  unfold Accounts.step at h
  split at h
  next u db₁ hserve =>
    cases h
    cases a with
    | createUser data =>
      have hs : Served db db' data.username .local u := create_served hserve
      refine hI.served hserve hs (fun htype => ?_) (fun hg => by cases hg) (fun e he => by cases he)
      unfold Named
      rw [if_pos htype, hs.username]
      exact ha
    | githubCallback login id =>
      have hs := login_served (e := .github login id) rfl hserve
      refine hI.served hserve hs (fun htype => ?_) (fun _ v hv hg hpart => ?_) (fun e he => ?_)
      · unfold Named
        rw [if_neg (by simp [htype, External.userType])]
        exact ⟨.github login id, hs.username, htype⟩
      · rw [lastPart_uniqueUsername] at hpart
        exact ha v hv hg hpart
      · cases he
        rfl
    | ldapLogin username =>
      have hs := login_served (e := .ldap username) rfl hserve
      refine hI.served hserve hs (fun htype => ?_) (fun hg => by cases hg) (fun e he => ?_)
      · unfold Named
        rw [if_neg (by simp [htype, External.userType])]
        exact ⟨.ldap username, hs.username, htype⟩
      · cases he
        rfl
  next e hserve =>
    cases h
    refine ⟨hI.named, hI.logins, fun x hx e r hr => ?_⟩
    rcases List.mem_append.mp hx with hx | hx
    · exact hI.sessions x hx e r hr
    · rw [List.mem_singleton] at hx
      subst hx
      obtain ⟨-, db'', hok⟩ := session_eq_some.mp hr
      rw [hserve] at hok
      cases hok

end Step

/-- No users. -/
def Db.empty : Db where
  users := ⟨[], List.nodup_nil⟩
  nextId := 0
  id_lt _ hu := absurd hu List.not_mem_nil
  username_unique _ hu := absurd hu List.not_mem_nil
  email_unique _ hu := absurd hu List.not_mem_nil

/-- **External identities own their accounts**, in every run that keeps to the
names: two callbacks of GitHub are for one row exactly if they have one id, and
every login opens a session for a row of its own provider. -/
theorem external_accounts {cfg : Config} {as : List Action} {db : Db}
    (hrun : Lts.Along (step cfg) KeepsNames .empty as) (h : Lts.exec (step cfg) .empty as = some db) :
    (∀ x ∈ Lts.trail (step cfg) .empty as, ∀ y ∈ Lts.trail (step cfg) .empty as, ∀ login id u login' id' u',
      session cfg x = some (.github login id, u) → session cfg y = some (.github login' id', u') →
        (id = id' ↔ u.id = u'.id)) ∧
    ∀ x ∈ Lts.trail (step cfg) .empty as, ∀ e u, session cfg x = some (e, u) → u.userType = e.userType := by
  have hI₀ : AccountsInv cfg [] .empty :=
    ⟨fun u hu => absurd hu List.not_mem_nil, fun u hu => absurd hu List.not_mem_nil,
      fun x hx => absurd hx List.not_mem_nil⟩
  have hI := Lts.exec_trail_inv (fun _ _ _ _ hI ha hs => AccountsInv.step hI ha hs) hI₀ hrun h
  rw [List.nil_append] at hI
  refine ⟨fun x hx y hy login id u login' id' u' hxu hyu => ?_, fun x hx e u hxu => (hI.sessions x hx e u hxu).2.1⟩
  obtain ⟨hname, htype, v, hv, hid⟩ := hI.sessions x hx _ u hxu
  obtain ⟨hname', htype', v', hv', hid'⟩ := hI.sessions y hy _ u' hyu
  have hvname : v.username = u.username := congrArg (fun i => i.2.1) hid
  have hvname' : v'.username = u'.username := congrArg (fun i => i.2.1) hid'
  have hvtype : v.userType = .github := (congrArg (fun i => i.2.2) hid).trans htype
  have hvtype' : v'.userType = .github := (congrArg (fun i => i.2.2) hid').trans htype'
  have hvid : v.id = u.id := congrArg Prod.fst hid
  have hvid' : v'.id = u'.id := congrArg Prod.fst hid'
  rw [← hvid, ← hvid']
  constructor
  · -- one id has one login, so one username, so one row
    rintro rfl
    apply db.username_unique v hv v' hv'
    apply hI.logins v hv v' hv' hvtype hvtype'
    rw [hvname, hvname', hname, hname', lastPart_uniqueUsername, lastPart_uniqueUsername]
    rfl
  · intro hrow
    have hsame : v = v' := by
      have hget := Db.get_of_mem hv
      rw [hrow, Db.get_of_mem hv'] at hget
      exact (Option.some.inj hget).symm
    have hnames : (External.github login id).uniqueUsername = (External.github login' id').uniqueUsername := by
      rw [← hname, ← hname', ← hvname, ← hvname', hsame]
    have := uniqueUsername_injective hnames
    injection this

/-! ### Runs -/

def small : Config := { hashPassword := id }

def localUser (username : String) : Action :=
  .createUser { username := username, email := username ++ "@example.org", password := "Correct-Horse-1" }

/-- A local user, and two callbacks of one id of GitHub with an LDAP login between them. -/
def fourRequests : List Action :=
  [localUser "bob", .githubCallback "alice" 7 [], .ldapLogin "alice" "secret" .accepted,
    .githubCallback "alice" 7 [⟨"alice@example.org", true, true⟩]]

theorem external_accounts_of_four :
    ∃ db ∈ Lts.exec (step small) .empty fourRequests, db.users.rows.length = 3 ∧
      (∀ x ∈ Lts.trail (step small) .empty fourRequests, ∀ y ∈ Lts.trail (step small) .empty fourRequests,
        ∀ login id u login' id' u', session small x = some (.github login id, u) →
          session small y = some (.github login' id', u') → (id = id' ↔ u.id = u'.id)) ∧
      ∀ x ∈ Lts.trail (step small) .empty fourRequests, ∀ e u, session small x = some (e, u) →
        u.userType = e.userType := by
  have hrun : Lts.Along (step small) KeepsNames .empty fourRequests := by decide +kernel
  obtain ⟨db, hdb, hrows⟩ : ∃ db ∈ Lts.exec (step small) .empty fourRequests, db.users.rows.length = 3 := by
    decide +kernel
  exact ⟨db, hdb, hrows, external_accounts hrun hdb⟩

def sessionRows (as : List Action) : List (Option (Uuid × UserType)) :=
  (Lts.trail (step small) .empty as).map fun x => (session small x).map fun r => (r.2.id, r.2.userType)

/-- A renamed login gets a second account, and a local user can have the account
of an identity of GitHub or of LDAP before it comes. -/
theorem identities_share_accounts :
    sessionRows [.githubCallback "alice" 7 [], .githubCallback "alicia" 7 []] = [some (0, .github), some (1, .github)] ∧
      sessionRows [localUser "alice_7", .githubCallback "alice" 7 []] = [none, some (0, .local)] ∧
      sessionRows [localUser "bob_ldap", .ldapLogin "bob" "secret" .accepted] = [none, some (0, .local)] := by
  decide +kernel

end Circus.Server.Accounts
