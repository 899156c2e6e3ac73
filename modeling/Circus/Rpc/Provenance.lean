/-
# Where the rows of uploads come from

Every row `notify_upload_complete` writes goes back to a URL that was granted
for its machine, build and path, and to an object that was read back. The
activity of the build is checked before the outputs of its derivation are
read, and the URL is granted after it; what the row says of the file is what
went through the hashing reader. So the grant is one for an active build if
the build stays active while a request for it is answered, and the file is the
object if nothing follows the compressed stream in it.
-/
import Circus.Rpc.Confinement

namespace Circus.Rpc

open Nix
/-- The row a step writes, with the machine and the build of the call. -/
def written (d : Deployment) (s : State) : Action → Option (Uuid × Uuid × Cache.UpsertNarInfo)
  | .resume (.persisting k m b info v) (.stored signed) =>
    if .persisting k m b info v ∈ s.calls then
      match d.projectIdForBuild b with
      | .ok projectId => some (m, b, uploadedNarInfo d.toServerConfig b info v projectId signed)
      | .error _ => none
    else none
  | _ => none

/-- The step answers a request of the machine with a URL for the upload, while
the build is active for the machine and the path an output of its derivation. -/
structure GrantedAt (d : Deployment) (s : State) (a : Action) (m b : Uuid) (path : String) (upload : ExpectedUpload) :
    Prop where
  request : ∃ k requests outputs, a = .resume (.presigning k m b requests) .outputsRead ∧
    .presigning k m b requests ∈ s.calls ∧ uploadOutputs d s.now b = .ok outputs ∧
    ∃ r ∈ requests, r.storePath = path ∧ ∃ url, presignOne d.toServerConfig outputs r = .ok (url, upload)
  active : s.isActive m b = true
  output : ∃ drvPath outputs, d.drvPath b = .ok drvPath ∧ d.drvOutputs s.now drvPath = .ok outputs ∧ path ∈ outputs

/-- The step reads an object back for the call, and the upload is as the object. -/
structure VerifiedAt (d : Deployment) (s : State) (a : Action) (m b : Uuid) (info : NarInfo) (v : UploadedNar)
    (nar : Bytes) (object : Object) : Prop where
  reading : ∃ k reads taken, a = .resume (.verifying k m b info) (.readBack reads taken)
  stored : s.objects info.url = some object
  decode : ∃ n, d.codec.decode info.compression object.bytes = .ok (nar, n)
  eq : v = ⟨"sha256:" ++ encodeSha256 (d.sha256 nar), nar.length, "sha256:" ++ encodeHex (d.sha256 object.bytes),
    object.bytes.length⟩

def RequestsActive (s : State) : Prop := ∀ c ∈ s.calls,
  match c with
  | .presigning _ m b _ => s.isActive m b = true
  | _ => True

instance (s : State) : Decidable (RequestsActive s) :=
  @List.decidableBAll Call _ (fun c => match c with
    | .presigning _ m b _ => inferInstanceAs (Decidable (s.isActive m b = true))
    | .verifying .. | .persisting .. | .fetching .. => isTrue trivial) s.calls

/-- An object that is read back has nothing after its compressed stream. -/
def WholeStream (d : Deployment) (s : State) : Action → Prop
  | .resume (.verifying _ _ _ info) (.readBack _ _) => ∀ object ∈ s.objects info.url,
      ∀ r ∈ (d.codec.decode info.compression object.bytes).toOption, r.2 = object.bytes.length
  | _ => True

instance (d : Deployment) (s : State) (a : Action) : Decidable (WholeStream d s a) := by
  unfold WholeStream
  split <;> infer_instance

/-- What is known of the past of uploads and calls. -/
structure Recorded (d : Deployment) (past : List (State × Action)) (s : State) : Prop where
  upload : ∀ {key upload}, s.uploads key = some upload →
    ∃ x ∈ past, GrantedAt d x.1 x.2 key.machineId key.buildId key.storePath upload
  verifying : ∀ {k m b info}, .verifying k m b info ∈ s.calls → ∃ x ∈ past,
    GrantedAt d x.1 x.2 m b info.storePath ⟨info.narHash, info.narSize, info.compression, info.url⟩
  persisting : ∀ {k m b info v}, .persisting k m b info v ∈ s.calls →
    (∃ x ∈ past, GrantedAt d x.1 x.2 m b info.storePath ⟨info.narHash, info.narSize, info.compression, info.url⟩) ∧
      ∃ nar object, ∃ x ∈ past, VerifiedAt d x.1 x.2 m b info v nar object

theorem presignOne_eq_ok {cfg : ServerConfig} {outputs : List String} {r : PresignedNarRequest} {url : String}
    {upload : ExpectedUpload} (h : presignOne cfg outputs r = .ok (url, upload)) :
    r.storePath ∈ outputs ∧ upload = ⟨r.narHash, r.narSize, cfg.uploadCompression,
      "nar/" ++ hashKeySegment cfg.sha256 r.narHash ++ "." ++ compressionExt cfg.uploadCompression⟩ := by
  unfold presignOne at h
  split at h
  next => cases h
  next =>
    split_ifs at h with hout
    split at h
    next => cases h
    next =>
      have := Except.ok.inj h
      exact ⟨hout, (congrArg Prod.snd this).symm⟩

theorem uploadOutputs_eq_ok {d : Deployment} {now : Time} {b : Uuid} {outputs : List String}
    (h : uploadOutputs d now b = .ok outputs) :
    ∃ drvPath, d.drvPath b = .ok drvPath ∧ d.drvOutputs now drvPath = .ok outputs := by
  unfold uploadOutputs at h
  split at h
  next => cases h
  next drvPath hd =>
    refine ⟨drvPath, hd, ?_⟩
    split at h
    next => cases h
    next => cases h
    next o outputs' ho => rw [ho, ← Except.ok.inj h]

/-- A verification that reads the object to its end. -/
theorem verifiedAt_of_reading {d : Deployment} {s : State} {k : ℕ} {m b : Uuid} {info : NarInfo} {object : Object}
    {reads : List Bytes} {taken : ℕ} {v : UploadedNar} (ho : s.objects info.url = some object)
    (hr : isReading d.codec info.compression object.bytes reads taken = true)
    (hv : verify d.sha256 (verifyRequest info) reads (object.bytes.take taken) = .ok v)
    (hw : WholeStream d s (.resume (.verifying k m b info) (.readBack reads taken))) :
    VerifiedAt d s (.resume (.verifying k m b info) (.readBack reads taken)) m b info v reads.flatten object := by
  obtain ⟨n, hd, hn, htaken, -⟩ := isReading_eq_true.mp hr
  have hall : n = object.bytes.length := by
    refine hw object ho (reads.flatten, n) ?_
    rw [hd]
    rfl
  have htake : object.bytes.take taken = object.bytes := List.take_of_length_le (hall ▸ hn)
  have hlt : reads.flatten.length < 2 ^ 64 := (Codec.length_nar_lt hd).trans (by norm_num)
  refine ⟨⟨k, reads, taken, rfl⟩, ho, ⟨n, hd⟩, ?_⟩
  rw [verify_eq_ok hv hlt, htake]

namespace Recorded

variable {d : Deployment} {past : List (State × Action)} {s : State}

theorem mono {past' : List (State × Action)} (h : Recorded d past s)
    (hp : past ⊆ past') : Recorded d past' s where
  upload hu := by
    obtain ⟨x, hx, hg⟩ := h.upload hu
    exact ⟨x, hp hx, hg⟩
  verifying hc := by
    obtain ⟨x, hx, hg⟩ := h.verifying hc
    exact ⟨x, hp hx, hg⟩
  persisting hc := by
    obtain ⟨⟨x, hx, hg⟩, nar, object, y, hy, hv⟩ := h.persisting hc
    exact ⟨⟨x, hp hx, hg⟩, nar, object, y, hp hy, hv⟩

/-- Fewer uploads and calls. -/
theorem of_subset {s' : State} (h : Recorded d past s)
    (hu : ∀ key upload, s'.uploads key = some upload → s.uploads key = some upload) (hc : s'.calls ⊆ s.calls) :
    Recorded d past s' where
  upload h' := h.upload (hu _ _ h')
  verifying h' := h.verifying (hc h')
  persisting h' := h.persisting (hc h')

theorem forget_subset {k : ℕ} {b : Uuid} {key : UploadKey} {upload : ExpectedUpload}
    (h : ((s.machine k).elim s.uploads fun m => forgetUploadsFor s.uploads m b) key = some upload) :
    s.uploads key = some upload := by
  cases hm : s.machine k with
  | none => simpa [hm] using h
  | some =>
    rw [hm, Option.elim_some, forgetUploadsFor] at h
    split_ifs at h
    exact h

theorem step {s' : State} {a : Action} (h : Recorded d past s)
    (hact : RequestsActive s) (hw : WholeStream d s a) (he : Effect d s a s') :
    Recorded d (past ++ [(s, a)]) s' := by
  have hpast := h.mono (List.subset_append_left past [(s, a)])
  have hself : (s, a) ∈ past ++ [(s, a)] := List.mem_append_right _ List.mem_cons_self
  cases he with
  | finish => exact hpast.of_subset (fun _ _ => forget_subset) (List.Subset.refl _)
  | disconnect => exact hpast.of_subset (fun _ _ hu => hu) fun _ => List.mem_of_mem_filter
  | dropped => exact hpast.of_subset (fun _ _ hu => hu) List.erase_subset
  | persisted =>
    refine hpast.of_subset (fun key upload hu => ?_) List.erase_subset
    rcases update_eq_some.mp hu with ⟨-, he⟩ | ⟨-, hu⟩
    · cases he
    · exact hu
  | started hs =>
    refine ⟨hpast.upload, fun hc => ?_, fun hc => ?_⟩
    · rcases List.mem_cons.mp hc with rfl | hc
      · cases hs with
        | verifying hi hr hu => exact hpast.upload hu
      · exact hpast.verifying hc
    · rcases List.mem_cons.mp hc with rfl | hc
      · cases hs
      · exact hpast.persisting hc
  | @presigned k m b requests outputs hc ho =>
    have hrest : Recorded d (past ++ [(s, .resume (.presigning k m b requests) .outputsRead)])
        (s.finishCall (.presigning k m b requests)) := hpast.of_subset (fun _ _ hu => hu) List.erase_subset
    refine ⟨fun {key upload} hu => ?_, hrest.verifying, hrest.persisting⟩
    rcases grant_eq_some hu with hu | ⟨r, hr, rfl, url, hp⟩
    · exact hpast.upload hu
    · obtain ⟨hout, -⟩ := presignOne_eq_ok hp
      obtain ⟨drvPath, hd, hdo⟩ := uploadOutputs_eq_ok ho
      exact ⟨_, hself, ⟨⟨k, requests, outputs, rfl, hc, ho, r, hr, rfl, url, hp⟩, hact _ hc,
        ⟨drvPath, outputs, hd, hdo, hout⟩⟩⟩
  | @verified k m b info object reads taken v hc ho hr hv =>
    refine ⟨hpast.upload, fun hc' => ?_, fun {k' m' b' info' v'} hc' => ?_⟩
    · rcases List.mem_cons.mp hc' with hc' | hc'
      · cases hc'
      · exact hpast.verifying (List.mem_of_mem_erase hc')
    · rcases List.mem_cons.mp hc' with hc' | hc'
      · cases hc'
        exact ⟨hpast.verifying hc, _, object, _, hself, verifiedAt_of_reading ho hr hv hw⟩
      · exact hpast.persisting (List.mem_of_mem_erase hc')
  | _ => exact ⟨hpast.upload, hpast.verifying, hpast.persisting⟩

end Recorded

theorem toI64_of_lt {n : ℕ} (h : n < 2 ^ 63) : toI64 n = n := by
  unfold toI64
  rw [Int.bmod_eq_of_le]
  · omega
  · omega

/-- **Where the rows come from.** Where a build stays active while a request
for it is answered, and no object that is read back has anything after its
compressed stream, every row goes back to a URL granted for its machine, build
and path, and to an object read back, with the hashes and sizes of the object. -/
theorem upload_provenance {d : Deployment} {as : List Action} {s : State} {a : Action} {m b : Uuid}
    {row : Cache.UpsertNarInfo}
    (hal : Lts.Along (step d) (fun s a => RequestsActive s ∧ WholeStream d s a) {} as)
    (hrun : Lts.exec (step d) {} as = some s) (hw : written d s a = some (m, b, row)) :
    (∃ upload, (∃ x ∈ Lts.trail (step d) {} as, GrantedAt d x.1 x.2 m b row.storePath upload) ∧
      row.url = upload.narPath ∧ row.compression = upload.compression) ∧
    ∃ x ∈ Lts.trail (step d) {} as, ∃ k info reads taken object nar n,
      x.2 = .resume (.verifying k m b info) (.readBack reads taken) ∧ info.storePath = row.storePath ∧
      x.1.objects row.url = some object ∧ d.codec.decode row.compression object.bytes = .ok (nar, n) ∧
      row.narHash = "sha256:" ++ encodeSha256 (d.sha256 nar) ∧ row.narSize = nar.length ∧
      row.fileHash = some ("sha256:" ++ encodeHex (d.sha256 object.bytes)) ∧
      row.fileSize = if row.compression = "none" then none else some (object.bytes.length : ℤ) := by
  have hstep : ∀ past s a s', Recorded d past s → (RequestsActive s ∧ WholeStream d s a) → step d s a = some s' →
      Recorded d (past ++ [(s, a)]) s' := fun _ _ _ _ h hP hs => h.step hP.1 hP.2 (effect_of_step hs)
  have hinit : Recorded d [] {} := ⟨(by cases ·), (by cases ·), (by cases ·)⟩
  have hrec := Lts.exec_trail_inv hstep hinit hal hrun
  rw [List.nil_append] at hrec
  unfold written at hw
  split at hw
  next k m' b' info v signed =>
    split_ifs at hw with hc
    split at hw
    next projectId hp =>
      obtain ⟨rfl, rfl, rfl⟩ : m' = m ∧ b' = b ∧ uploadedNarInfo d.toServerConfig b' info v projectId signed = row := by
        simpa using hw
      obtain ⟨⟨x, hx, hg⟩, nar, object, y, hy, hv⟩ := hrec.persisting hc
      refine ⟨⟨_, ⟨x, hx, hg⟩, rfl, rfl⟩, y, hy, ?_⟩
      obtain ⟨k', reads, taken, hread⟩ := hv.reading
      obtain ⟨n, hd⟩ := hv.decode
      have hobj : object.bytes.length < 2 ^ 63 := object.size_le.trans_lt (by norm_num [maxObjectSize])
      have hnar : toI64 nar.length = nar.length := toI64_of_lt (Codec.length_nar_lt hd)
      refine ⟨k', info, reads, taken, object, nar, n, hread, rfl, hv.stored, hd, ?_, ?_, ?_, ?_⟩
      · rw [hv.eq]
        rfl
      · rw [hv.eq, ← hnar, uploadedNarInfo]
      · rw [hv.eq]
        rfl
      · rw [hv.eq, ← toI64_of_lt hobj]
        simp [uploadedNarInfo]
    next => cases hw
  next => cases hw

/-- Build 5 is dispatched to machine 7, which uploads `object` for its output with this narinfo. -/
def uploading (info : NarInfo) (object : Object) : List Action := .flatten [connectAs 0 7,
  [.acquire 0, .dispatch 0 5, .requestPresignedUrls 0 7 5 [emptyOutput],
    .resume (.presigning 0 7 5 [emptyOutput]) .outputsRead, .put info.url object,
    .notifyUploadComplete 0 7 5 info, .resume (.verifying 0 7 5 info) (.readBack [] 1)]]

theorem upload_provenance_uploading :
    ∃ s ∈ Lts.exec (step smallDeployment) {} (uploading emptyNarInfo emptyObject),
    ∃ row ∈ written smallDeployment s (.resume (.persisting 0 7 5 emptyNarInfo emptyUploaded) (.stored true)),
    ∃ upload, (∃ x ∈ Lts.trail (step smallDeployment) {} (uploading emptyNarInfo emptyObject),
      GrantedAt smallDeployment x.1 x.2 row.1 row.2.1 row.2.2.storePath upload) ∧
      row.2.2.url = upload.narPath ∧ row.2.2.compression = upload.compression := by
  obtain ⟨hal, s, hs, hw⟩ :
      Lts.Along (step smallDeployment) (fun s a => RequestsActive s ∧ WholeStream smallDeployment s a) {}
        (uploading emptyNarInfo emptyObject) ∧
      ∃ s ∈ Lts.exec (step smallDeployment) {} (uploading emptyNarInfo emptyObject),
        (written smallDeployment s (.resume (.persisting 0 7 5 emptyNarInfo emptyUploaded) (.stored true))).isSome =
          true := by decide +kernel
  obtain ⟨⟨m, b, row⟩, hw⟩ := Option.isSome_iff_exists.mp hw
  exact ⟨s, hs, _, hw, (upload_provenance hal hs hw).1⟩

/-- The request is answered, and the upload completed, after the dispatch has ended. -/
def uploadingLate : List Action := .flatten [finishedDispatch,
  [.resume (.presigning 0 7 5 [emptyOutput]) .outputsRead, .put emptyNarInfo.url emptyObject,
    .notifyUploadComplete 0 7 5 emptyNarInfo, .resume (.verifying 0 7 5 emptyNarInfo) (.readBack [] 1)]]

/-- `emptyObject`, with one more byte. -/
def longerObject : Object := ⟨[0, 1], by decide⟩

/-- Answers to requests of machine 7 for build 5. -/
def isGrant : Action → Bool
  | .resume (.presigning _ m b _) .outputsRead => decide (m = 7 ∧ b = 5)
  | _ => false

/-- A row is written for a build that was not active when any of its URLs was
granted; and a row has the file hash and size of the part of an object that
its compressed stream takes up. -/
theorem upload_after_dispatch_and_of_part :
    (∃ s ∈ Lts.exec (step smallDeployment) {} uploadingLate,
      (written smallDeployment s (.resume (.persisting 0 7 5 emptyNarInfo emptyUploaded) (.stored true))).isSome =
        true ∧
      ∀ x ∈ Lts.trail (step smallDeployment) {} uploadingLate, ∀ path upload,
        ¬ GrantedAt smallDeployment x.1 x.2 7 5 path upload) ∧
    ∃ s ∈ Lts.exec (step smallDeployment) {} (uploading emptyNarInfo longerObject),
      ∃ row ∈ written smallDeployment s (.resume (.persisting 0 7 5 emptyNarInfo emptyUploaded) (.stored true)),
        s.objects row.2.2.url = some longerObject ∧ row.2.2.compression ≠ "none" ∧
        row.2.2.fileSize = some 1 ∧ row.2.2.fileHash ≠ some ("sha256:" ++ encodeHex (digestOf longerObject.bytes)) := by
  refine ⟨?_, by decide +kernel⟩
  obtain ⟨⟨s, hs, hw⟩, hgrant⟩ :
      (∃ s ∈ Lts.exec (step smallDeployment) {} uploadingLate,
        (written smallDeployment s (.resume (.persisting 0 7 5 emptyNarInfo emptyUploaded) (.stored true))).isSome =
          true) ∧
      ∀ x ∈ Lts.trail (step smallDeployment) {} uploadingLate, isGrant x.2 = true → x.1.isActive 7 5 = false := by
    decide +kernel
  refine ⟨s, hs, hw, fun x hx path upload hg => ?_⟩
  obtain ⟨k, requests, -, ha, -⟩ := hg.request
  have hinactive := hgrant x hx (by rw [ha]; rfl)
  rw [hg.active] at hinactive
  cases hinactive

end Circus.Rpc
