/-
# What the RPC server accepts

The checks of `crates/queue-runner/src/rpc/server.rs` on what an agent sends,
with the limits of `crates/proto/src/lib.rs` and the texts of the errors, and
the S3 key of an upload. A check is a computation in `Except String`; the
handlers of the server run several in a row, and the first that fails is the
answer.

Identifiers are parsed already. Of an `f32` the model has the value, `none`
when it is not finite, and how it prints.
-/
import Circus.Dispatch
import Circus.Evaluator.Webhooks
import Circus.Nix.Encoding

namespace Circus.Rpc

open Nix
open Evaluator.Webhooks (stripPrefix)

/-! ### Limits -/

namespace Limits

def maxAgentNameLen : ℕ := 128
def maxHostnameLen : ℕ := 255
def maxAuthTokenLen : ℕ := 4096
def maxSystems : ℕ := 32
def maxFeatures : ℕ := 128
def maxFeatureLen : ℕ := 128
def maxStorePathLen : ℕ := 4096
def maxHashLen : ℕ := 512
def maxPresignedUrlRequests : ℕ := 128

end Limits

def protoVersion : String := "circus-proto/2"

def maxAgentMaxJobs : ℕ := 670

/-! ### Checks -/

/-- Go on, or fail with a message. -/
def ensure (p : Prop) [Decidable p] (message : String) : Except String Unit :=
  if p then .ok () else .error message

theorem ensure_bind_eq_ok {p : Prop} [Decidable p] {message : String} {α : Type} {f : Unit → Except String α} {r : α} :
    (ensure p message >>= f) = .ok r ↔ p ∧ f () = .ok r := by
  unfold ensure
  split_ifs with h <;> simp [h, bind, Except.bind]

theorem bind_eq_ok {ε α β : Type} {x : Except ε α} {f : α → Except ε β} {r : β} :
    (x >>= f) = .ok r ↔ ∃ a, x = .ok a ∧ f a = .ok r := by
  cases x <;> simp [bind, Except.bind]

def isControl (c : Char) : Bool := c.toNat < 32 || 127 ≤ c.toNat && c.toNat < 160

/-- `validate_text_len`; lengths are in bytes. -/
def validateTextLen (field value : String) (min max : ℕ) : Except String Unit :=
  let len := value.utf8ByteSize
  ensure (min ≤ len ∧ len ≤ max ∧ value.toList.any isControl = false)
    (field ++ " length/control validation failed: len=" ++ toString len ++ ", expected " ++ toString min ++ "..=" ++
      toString max)

/-- `StorePath::is_valid`, for a store directory without a trailing slash. -/
def isValidStorePath (path storeDir : String) : Bool :=
  (stripPrefix (storeDir ++ "/") path).isSome && !decide (['.', '.'] <:+: path.toList) &&
    decide (path.utf8ByteSize < 512)

def validateStorePath (path : String) : Except String Unit := do
  validateTextLen "store_path" path 1 Limits.maxStorePathLen
  ensure (path ≠ "/nix/store/" ∧ isValidStorePath path "/nix/store" = true) ("invalid store path: " ++ path)

def validateHashText (field hash : String) : Except String Unit := validateTextLen field hash 1 Limits.maxHashLen

def validateUploadCompression (compression : String) : Except String Unit :=
  ensure (compression ∈ ["zstd", "xz", "gzip", "none"]) ("unsupported upload compression: " ++ compression)

/-- The loop of `read_bounded_text_list`, from entry `i` on. -/
def readTexts (field : String) (maxItemLen : ℕ) : ℕ → List String → Except String Unit
  | _, [] => .ok ()
  | i, value :: list => do
    validateTextLen (field ++ "[" ++ toString i ++ "]") value 1 maxItemLen
    readTexts field maxItemLen (i + 1) list

def readBoundedTextList (list : List String) (field : String) (maxItems maxItemLen : ℕ) : Except String Unit := do
  ensure (list.length ≤ maxItems)
    (field ++ " has too many entries: " ++ toString list.length ++ " > " ++ toString maxItems)
  readTexts field maxItemLen 0 list

structure F32 where
  value : Option ℚ
  shown : String
  deriving DecidableEq

def validateAgentCapacity (systems : List String) (speed : F32) (cpu maxJobs : ℕ) : Except String Unit := do
  ensure (systems ≠ []) "agent must advertise at least one system"
  ensure (speed.value.any (fun q => decide (0 < q)) = true)
    ("agent speed_factor must be finite and positive, got " ++ speed.shown)
  ensure (cpu ≠ 0) "agent cpu_count must be greater than 0"
  ensure (maxJobs ≠ 0) "agent max_jobs must be greater than 0"
  ensure (maxJobs ≤ maxAgentMaxJobs)
    ("agent max_jobs " ++ toString maxJobs ++ " exceeds cap " ++ toString maxAgentMaxJobs)

/-! ### Registration -/

structure AgentInfo where
  machineId : Uuid
  name : String
  hostname : String
  protoVersion : String := Rpc.protoVersion
  authToken : String
  systems : List String
  supportedFeatures : List String := []
  mandatoryFeatures : List String := []
  speedFactor : F32 := ⟨some 1, "1"⟩
  cpuCount : ℕ := 1
  maxJobs : ℕ := 1
  deriving DecidableEq

structure PeerCertIdentity where
  presented : Bool := false
  name : Option String := none
  deriving DecidableEq

/-- A signing key: the signature of a text, with the name of the key, on one line. -/
structure SigningKey where
  sign : String → String
  oneLine : ∀ text, '\n' ∉ (sign text).toList

structure ServerConfig where
  /-- `verify_token`, with the digests of the accepted tokens. -/
  verifyToken : String → Bool
  /-- The OIDC verifier: whether it accepts the token. -/
  oidc : Option (String → Bool) := none
  /-- TLS with `pin_cn`. -/
  pinCn : Bool := false
  /-- The S3 presigner: the URL to put an object at. -/
  presigner : Option (String → String) := none
  presignExpiry : Time := 3600
  uploadCompression : String := "zstd"
  signingKey : Option SigningKey := none
  sha256 : Bytes → Digest

/-- Who the token belongs to. -/
def authenticate (cfg : ServerConfig) (token : String) : Except String AuthKind :=
  if cfg.verifyToken token then .ok .token
  else if cfg.oidc.any (fun verify => verify token) then .ok .oidc
  else .error "auth failed"

/-- The pinning of the agent's name to its certificate. -/
def checkPeerCert (cfg : ServerConfig) (peerCert : PeerCertIdentity) (name : String) : Except String Unit :=
  if cfg.pinCn ∧ peerCert.presented then
    match peerCert.name with
    | some certName => ensure (certName = name) "cert/name mismatch"
    | none => .error "client cert has no pinned name"
  else .ok ()

/-- `register`, up to the slot of the connection. -/
def checkAgentInfo (cfg : ServerConfig) (peerCert : PeerCertIdentity) (info : AgentInfo) : Except String AuthKind := do
  ensure (info.protoVersion = protoVersion)
    ("proto mismatch: agent=" ++ info.protoVersion ++ " runner=" ++ protoVersion)
  validateTextLen "agent.auth_token" info.authToken 1 Limits.maxAuthTokenLen
  let authKind ← authenticate cfg info.authToken
  checkPeerCert cfg peerCert info.name
  validateTextLen "agent.name" info.name 1 Limits.maxAgentNameLen
  validateTextLen "agent.hostname" info.hostname 1 Limits.maxHostnameLen
  readBoundedTextList info.systems "systems" Limits.maxSystems Limits.maxFeatureLen
  readBoundedTextList info.supportedFeatures "supported_features" Limits.maxFeatures Limits.maxFeatureLen
  readBoundedTextList info.mandatoryFeatures "mandatory_features" Limits.maxFeatures Limits.maxFeatureLen
  validateAgentCapacity info.systems info.speedFactor info.cpuCount info.maxJobs
  return authKind

/-! ### Uploads -/

structure UploadKey where
  machineId : Uuid
  buildId : Uuid
  storePath : String
  deriving DecidableEq

structure ExpectedUpload where
  narHash : String
  narSize : ℕ
  compression : String
  narPath : String
  deriving DecidableEq

def compressionExt (compression : String) : String :=
  if compression = "zstd" then "nar.zst"
  else if compression = "xz" then "nar.xz"
  else if compression = "gzip" ∨ compression = "gz" then "nar.gz"
  else if compression = "bzip2" ∨ compression = "bz2" then "nar.bz2"
  else "nar"

/-- The characters that stay in a key segment. -/
def isKeyChar (c : Char) : Bool :=
  decide ('A' ≤ c ∧ c ≤ 'Z' ∨ 'a' ≤ c ∧ c ≤ 'z' ∨ '0' ≤ c ∧ c ≤ '9' ∨ c = '-' ∨ c = '_' ∨ c = '.')

def sanitiseKeySegment (value : String) : String :=
  String.ofList (value.toList.filterMap fun c =>
    if isKeyChar c then some c else if c = '/' ∨ c = '+' then some '_' else none)

/-- The rest of a hash after its algorithm, without padding, as a key segment. -/
def keySegmentAfter (start hash : String) : Option String :=
  ((stripPrefix start hash).map fun rest =>
    sanitiseKeySegment (String.ofList (rest.toList.rdropWhile fun c => c = '='))).filter fun s => s ≠ ""

def hashKeySegment (sha256 : Bytes → Digest) (hash : String) : String :=
  match (keySegmentAfter "sha256:" hash).or (keySegmentAfter "sha256-" hash) with
  | some cleaned => cleaned
  | none =>
    let cleaned := sanitiseKeySegment hash
    if cleaned = "" then encodeHex (sha256 hash.toUTF8.data.toList) else cleaned

theorem isKeyChar_of_mem_sanitiseKeySegment {value : String} {c : Char} (h : c ∈ (sanitiseKeySegment value).toList) :
    isKeyChar c = true := by
  rw [sanitiseKeySegment, String.toList_ofList] at h
  obtain ⟨x, -, hx⟩ := List.mem_filterMap.mp h
  split_ifs at hx with h1 h2
  · exact Option.some.inj hx ▸ h1
  · exact Option.some.inj hx ▸ rfl

theorem isKeyChar_of_isBase32Char {c : Char} (h : isBase32Char c = true) : isKeyChar c = true := by
  have hdigit : ∀ v < 32, isKeyChar (alphabet.getD v '0') = true := by decide
  obtain ⟨v, hv, rfl⟩ := exists_digit_of_isBase32Char h
  exact hdigit v hv

theorem isKeyChar_of_mem_encodeHex {d : Digest} {c : Char} (h : c ∈ (encodeHex d).toList) : isKeyChar c = true := by
  have hdigit : ∀ v < 16, isKeyChar (hexAlphabet.getD v '0') = true := by decide
  obtain ⟨v, hv, rfl⟩ := exists_of_mem_encodeHex h
  exact hdigit v hv

/-- Whatever an agent sends as a hash, the key segment has no separators. -/
theorem isKeyChar_of_mem_hashKeySegment {sha256 : Bytes → Digest} {hash : String} {c : Char}
    (h : c ∈ (hashKeySegment sha256 hash).toList) : isKeyChar c = true := by
  have hafter : ∀ start cleaned, keySegmentAfter start hash = some cleaned → c ∈ cleaned.toList →
      isKeyChar c = true := fun start cleaned hk hc => by
    obtain ⟨rest, -, rfl⟩ := Option.map_eq_some_iff.mp (Option.filter_eq_some_iff.mp hk).1
    exact isKeyChar_of_mem_sanitiseKeySegment hc
  unfold hashKeySegment at h
  split at h
  next cleaned hk =>
    rcases Option.or_eq_some_iff.mp hk with hk | ⟨-, hk⟩ <;> exact hafter _ _ hk h
  next =>
    dsimp only at h
    split_ifs at h
    · exact isKeyChar_of_mem_encodeHex h
    · exact isKeyChar_of_mem_sanitiseKeySegment h

example : hashKeySegment (fun _ _ => 0) "sha256:abc/def+ghi=" = "abc_def_ghi" ∧
    hashKeySegment (fun _ _ => 0) "../../evil" = ".._.._evil" := by
  decide

structure PresignedNarRequest where
  storePath : String
  narHash : String
  narSize : ℕ
  deriving DecidableEq

/-- The body of the loop of `request_presigned_urls`: the URL and what the
server then expects to be uploaded, or the message of the entry. -/
def presignOne (cfg : ServerConfig) (drvOutputs : List String) (r : PresignedNarRequest) :
    Except String (String × ExpectedUpload) :=
  match validateStorePath r.storePath >>= fun _ => validateHashText "nar_hash" r.narHash with
  | .error e => .error ("Failed: " ++ e)
  | .ok _ =>
    if r.storePath ∉ drvOutputs then .error "store path is not an output of this build's derivation"
    else
      match cfg.presigner with
      | none => .error "runner has no S3 presigner configured"
      | some presignPut =>
        let key := "nar/" ++ hashKeySegment cfg.sha256 r.narHash ++ "." ++ compressionExt cfg.uploadCompression
        .ok (presignPut key, ⟨r.narHash, r.narSize, cfg.uploadCompression, key⟩)

structure NarInfo where
  storePath : String
  narHash : String
  narSize : ℕ
  fileHash : String := ""
  fileSize : ℕ := 0
  compression : String
  url : String
  deriver : String := ""
  references : List String := []
  ca : String := ""
  deriving DecidableEq

/-- The checks of `notify_upload_complete` on its parameters. -/
def checkNarInfo (info : NarInfo) : Except String Unit := do
  validateStorePath info.storePath
  validateHashText "nar_hash" info.narHash
  if info.fileHash ≠ "" then validateHashText "file_hash" info.fileHash
  validateUploadCompression info.compression
  info.references.forM validateStorePath

end Circus.Rpc
