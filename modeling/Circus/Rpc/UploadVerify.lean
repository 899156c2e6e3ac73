/-
# Verifying an uploaded NAR

`crates/queue-runner/src/rpc/upload_verify.rs`: the object is read back
through a hashing reader and a decompressor, the decompressed stream is hashed
chunk by chunk up to the declared size, and hashes and sizes are compared with
what the agent declared.

The decompressor is a `Codec`: what it makes of an object, and how many bytes
of the object it needs for that. It stops at the end of the compressed stream,
and only what the buffer has fetched until then has gone through the hashing
reader. So the file hash is that of a part of the object, which is all of it
only if nothing follows the compressed stream.
-/
import Circus.Rpc.Checks

namespace Circus.Rpc

open Nix
open Evaluator.Webhooks (stripPrefix)

/-! ### Objects -/

/-- S3 has no larger objects. -/
def maxObjectSize : ℕ := 5 * 2 ^ 40

structure Object where
  bytes : Bytes
  size_le : bytes.length ≤ maxObjectSize
  deriving DecidableEq

/-- The decompressors. `stream` is what one makes of an object, with the number
of bytes of the compressed stream. A decompressed stream that is read to its
end within the timeout of the client is below `2 ^ 63` bytes. -/
structure Codec where
  stream : String → Bytes → Option (Bytes × ℕ)
  taken_le : ∀ {compression object nar n}, stream compression object = some (nar, n) → n ≤ object.length
  nar_lt : ∀ {compression object nar n}, stream compression object = some (nar, n) → nar.length < 2 ^ 63

/-- The reader for a compression. -/
def Codec.decode (codec : Codec) (compression : String) (object : Bytes) : Except String (Bytes × ℕ) :=
  if compression ∈ ["zstd", "xz", "gzip", "gz"] then
    (codec.stream compression object).elim (.error "read uploaded NAR") .ok
  else if compression ∈ ["none", ""] then .ok (object, object.length)
  else .error ("unsupported upload compression: " ++ compression)

variable {codec : Codec} {compression : String}

theorem Codec.decode_eq_ok {object nar : Bytes} {n : ℕ}
    (h : codec.decode compression object = .ok (nar, n)) :
    codec.stream compression object = some (nar, n) ∨ object = nar ∧ object.length = n := by
  unfold Codec.decode at h
  split_ifs at h with h1 h2
  · cases hs : codec.stream compression object with
    | none =>
      rw [hs] at h
      cases h
    | some =>
      rw [hs] at h
      obtain rfl := Except.ok.inj h
      exact .inl rfl
  · have := Except.ok.inj h
    exact .inr ⟨congrArg Prod.fst this, congrArg Prod.snd this⟩

theorem Codec.length_nar_lt {object : Object} {nar : Bytes} {n : ℕ}
    (h : codec.decode compression object.bytes = .ok (nar, n)) : nar.length < 2 ^ 63 := by
  rcases Codec.decode_eq_ok h with h | ⟨h, -⟩
  · exact codec.nar_lt h
  · have := object.size_le
    rw [h] at this
    exact this.trans_lt (by norm_num [maxObjectSize])

/-- The capacity of a `BufReader`. -/
def bufSize : ℕ := 8192

/-- One way the reader may go through an object: the chunks of the decompressed
stream, and how many bytes of the object have been fetched for them. -/
def isReading (codec : Codec) (compression : String) (object : Bytes) (reads : List Bytes) (taken : ℕ) : Bool :=
  match codec.decode compression object with
  | .ok (nar, n) => decide (reads.flatten = nar ∧ n ≤ taken ∧ taken ≤ object.length ∧ taken ≤ n + bufSize)
  | .error _ => false

theorem isReading_eq_true {object : Bytes} {reads : List Bytes} {taken : ℕ} :
    isReading codec compression object reads taken = true ↔
      ∃ n, codec.decode compression object = .ok (reads.flatten, n) ∧ n ≤ taken ∧ taken ≤ object.length ∧
        taken ≤ n + bufSize := by
  unfold isReading
  cases hd : codec.decode compression object with
  | error => simp
  | ok r =>
    obtain ⟨nar, n⟩ := r
    simp only [decide_eq_true_eq, Except.ok.injEq, Prod.mk.injEq]
    constructor
    · rintro ⟨rfl, h⟩
      exact ⟨n, ⟨rfl, rfl⟩, h⟩
    · rintro ⟨n', ⟨h, rfl⟩, h'⟩
      exact ⟨h.symm, h'⟩

/-! ### Declared hashes -/

/-- The padding of an SRI hash. -/
def padBase64 (sri : String) : String :=
  sri ++ String.ofList (List.replicate ((4 - sri.utf8ByteSize % 4) % 4) '=')

def parseSha256Hash (text : String) : Except String Digest :=
  match stripPrefix "sha256-" text with
  | some sri =>
    match decodeBase64 (padBase64 sri).toList with
    | none => .error ("decode SRI sha256 hash " ++ text)
    | some bytes =>
      if bytes.length ≠ 32 then
        .error ("sha256 hash " ++ text ++ " decoded to " ++ toString bytes.length ++ " bytes, expected 32")
      else .ok (digestOf bytes)
  | none =>
    match stripPrefix "sha256:" text with
    | some rest =>
      if rest.toList.length = 64 ∧ rest.toList.all (fun c => (hexValue c).isSome) = true then
        match decodeHex rest.toList with
        | some bytes => .ok (digestOf bytes)
        | none => .error "decode sha256 hex hash"
      else
        match decodeSha256 rest with
        | .ok d => .ok d
        | .error _ => .error ("decode Nix base32 sha256 hash " ++ text)
    | none => .error ("unsupported sha256 hash format: " ++ text)

def hashMatches (text : String) (computed : Digest) : Except String Bool := do
  let expected ← parseSha256Hash text
  return decide (expected = computed)

/-! ### Verification -/

structure VerifyRequest where
  compression : String
  narHash : String
  narSize : ℕ
  fileHash : Option String
  fileSize : Option ℕ

structure UploadedNar where
  narHash : String
  narSize : ℕ
  fileHash : String
  fileSize : ℕ
  deriving DecidableEq

/-- The read loop: what has been hashed, and the size counted so far. -/
def readNar (declared : ℕ) : List Bytes → Bytes → ℕ → Except String (Bytes × ℕ)
  | [], hashed, size => .ok (hashed, size)
  | chunk :: rest, hashed, size =>
    let size := min (size + chunk.length) (2 ^ 64 - 1)
    if declared < size then
      .error ("uploaded NAR exceeds declared size " ++ toString declared ++ ": decompressed at least " ++
        toString size ++ " bytes")
    else readNar declared rest (hashed ++ chunk) size

def checkFileHash (reported : Option String) (computedFile : Digest) : Except String Unit :=
  match reported with
  | some expected => do
    let matched ← hashMatches expected computedFile
    ensure (matched = true)
      ("uploaded file hash mismatch: reported " ++ expected ++ ", computed sha256:" ++ encodeHex computedFile)
  | none => .ok ()

/-- `verify`, of the chunks the reader yields and the bytes of the object that
went through the hashing reader. -/
def verify (sha256 : Bytes → Digest) (req : VerifyRequest) (reads : List Bytes) (file : Bytes) :
    Except String UploadedNar := do
  let (nar, narSize) ← readNar req.narSize reads [] 0
  let computedNar := sha256 nar
  let computedFile := sha256 file
  let fileHash := "sha256:" ++ encodeHex computedFile
  checkFileHash req.fileHash computedFile
  ensure (req.fileSize.all (fun n => decide (n = file.length)) = true)
    ("uploaded file size mismatch: reported " ++ toString (req.fileSize.getD 0) ++ ", computed " ++
      toString file.length)
  ensure (req.narSize = narSize)
    ("uploaded NAR size mismatch: reported " ++ toString req.narSize ++ ", computed " ++ toString narSize)
  let matched ← hashMatches req.narHash computedNar
  ensure (matched = true)
    ("uploaded NAR hash mismatch: reported " ++ req.narHash ++ ", computed sha256:" ++ encodeHex computedNar)
  return ⟨"sha256:" ++ encodeSha256 computedNar, narSize, fileHash, file.length⟩

/-- However the stream is cut, it is hashed as a whole. -/
theorem readNar_eq_ok {declared : ℕ} : ∀ {reads : List Bytes} {hashed nar : Bytes} {size n : ℕ},
    readNar declared reads hashed size = .ok (nar, n) →
    nar = hashed ++ reads.flatten ∧ (size + reads.flatten.length < 2 ^ 64 → n = size + reads.flatten.length)
  | [], hashed, nar, size, n, h => by
    obtain ⟨rfl, rfl⟩ := Prod.mk.inj (Except.ok.inj h)
    simp
  | chunk :: rest, hashed, nar, size, n, h => by
    unfold readNar at h
    dsimp only at h
    split_ifs at h
    obtain ⟨hnar, hn⟩ := readNar_eq_ok h
    rw [List.flatten_cons, List.length_append]
    refine ⟨by rw [hnar, List.append_assoc], fun hlt => ?_⟩
    have hmin : min (size + chunk.length) (2 ^ 64 - 1) = size + chunk.length := by omega
    rw [hmin] at hn
    rw [hn (by omega)]
    omega

/-- What a verified upload is. -/
theorem verify_eq_ok {sha256 : Bytes → Digest} {req : VerifyRequest} {reads : List Bytes} {file : Bytes}
    {v : UploadedNar} (h : verify sha256 req reads file = .ok v) (hlt : reads.flatten.length < 2 ^ 64) :
    v = ⟨"sha256:" ++ encodeSha256 (sha256 reads.flatten), reads.flatten.length, "sha256:" ++ encodeHex (sha256 file),
      file.length⟩ := by
  unfold verify at h
  obtain ⟨⟨nar, n⟩, hread, h⟩ := bind_eq_ok.mp h
  obtain ⟨hnar, hn⟩ := readNar_eq_ok hread
  rw [List.nil_append] at hnar
  rw [Nat.zero_add] at hn
  obtain ⟨_, -, h⟩ := bind_eq_ok.mp h
  obtain ⟨-, h⟩ := ensure_bind_eq_ok.mp h
  obtain ⟨-, h⟩ := ensure_bind_eq_ok.mp h
  obtain ⟨_, -, h⟩ := bind_eq_ok.mp h
  obtain ⟨-, h⟩ := ensure_bind_eq_ok.mp h
  rw [← Except.ok.inj h, hnar, hn hlt]

end Circus.Rpc
