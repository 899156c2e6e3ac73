/-
# The rows that are accepted

What is known of a row because `notify_upload_complete` has written it: which
of its fields have passed a check, and which the server has computed itself.
The deriver and the content address are the agent's, without a check.
-/
import Circus.Rpc.Provenance

namespace Circus.Rpc

open Nix
/-- The key of an upload comes from some hash. -/
def IsNarKey (cfg : ServerConfig) (key : String) : Prop :=
  ∃ narHash, key = "nar/" ++ hashKeySegment cfg.sha256 narHash ++ "." ++ compressionExt cfg.uploadCompression

/-- A row as `notify_upload_complete` writes it. -/
structure Accepted (cfg : ServerConfig) (n : Cache.UpsertNarInfo) : Prop where
  storePath : validateStorePath n.storePath = .ok ()
  url : IsNarKey cfg n.url
  compression : validateUploadCompression n.compression = .ok ()
  narHash : ∃ digest, n.narHash = "sha256:" ++ encodeSha256 digest
  fileHash : ∃ digest, n.fileHash = some ("sha256:" ++ encodeHex digest)
  references : ∀ r ∈ n.references, validateStorePath r = .ok ()
  sig : ∀ sig ∈ n.sig, ∃ key ∈ cfg.signingKey,
    sig = key.sign (Cache.fingerprint n.storePath n.narHash n.narSize n.references)

theorem forM_eq_ok {check : String → Except String Unit} : ∀ {texts : List String}, texts.forM check = .ok () →
    ∀ t ∈ texts, check t = .ok ()
  | x :: texts, h, t, ht => by
    change (check x >>= fun _ => texts.forM check) = .ok () at h
    obtain ⟨⟨⟩, hx, h⟩ := bind_eq_ok.mp h
    rcases List.mem_cons.mp ht with rfl | ht
    · exact hx
    · exact forM_eq_ok h t ht

theorem checkNarInfo_eq_ok {info : NarInfo} (h : checkNarInfo info = .ok ()) :
    validateStorePath info.storePath = .ok () ∧ validateUploadCompression info.compression = .ok () ∧
      ∀ r ∈ info.references, validateStorePath r = .ok () := by
  unfold checkNarInfo at h
  obtain ⟨⟨⟩, hpath, h⟩ := bind_eq_ok.mp h
  obtain ⟨⟨⟩, -, h⟩ := bind_eq_ok.mp h
  split_ifs at h
  · obtain ⟨⟨⟩, -, h⟩ := bind_eq_ok.mp h
    obtain ⟨⟨⟩, hcomp, h⟩ := bind_eq_ok.mp h
    exact ⟨hpath, hcomp, forM_eq_ok h⟩
  · obtain ⟨⟨⟩, hcomp, h⟩ := bind_eq_ok.mp h
    exact ⟨hpath, hcomp, forM_eq_ok h⟩

/-- The row of a checked and verified upload. -/
theorem accepted_uploadedNarInfo {cfg : ServerConfig} {b : Uuid} {info : NarInfo} {v : UploadedNar}
    {projectId : Option Uuid} {signed : Bool} (hc : checkNarInfo info = .ok ()) (hu : IsNarKey cfg info.url)
    (hn : ∃ digest, v.narHash = "sha256:" ++ encodeSha256 digest)
    (hf : ∃ digest, v.fileHash = "sha256:" ++ encodeHex digest) :
    Accepted cfg (uploadedNarInfo cfg b info v projectId signed) where
  storePath := (checkNarInfo_eq_ok hc).1
  url := hu
  compression := (checkNarInfo_eq_ok hc).2.1
  narHash := hn
  fileHash := by
    obtain ⟨digest, hf⟩ := hf
    exact ⟨digest, congrArg some hf⟩
  references := (checkNarInfo_eq_ok hc).2.2
  sig sig hs := by
    dsimp only [uploadedNarInfo] at hs ⊢
    split_ifs at hs
    · obtain ⟨key, hk, hs⟩ := Option.map_eq_some_iff.mp hs
      exact ⟨key, hk, hs.symm⟩
    · cases hs

theorem Accepted.upsertRow {cfg : ServerConfig} {info : Cache.UpsertNarInfo} (h : Accepted cfg info) (now : Time)
    (old : Option Cache.NarInfo) : Accepted cfg (Cache.Db.upsertRow now old info).toUpsertNarInfo :=
  ⟨h.storePath, h.url, h.compression, h.narHash, h.fileHash, h.references, h.sig⟩

/-- What is known of uploads, calls and rows. -/
structure Checked (cfg : ServerConfig) (s : State) : Prop where
  upload : ∀ {key upload}, s.uploads key = some upload → IsNarKey cfg upload.narPath
  verifying : ∀ {k m b info}, .verifying k m b info ∈ s.calls → checkNarInfo info = .ok () ∧ IsNarKey cfg info.url
  persisting : ∀ {k m b info v}, .persisting k m b info v ∈ s.calls → checkNarInfo info = .ok () ∧
    IsNarKey cfg info.url ∧ (∃ digest, v.narHash = "sha256:" ++ encodeSha256 digest) ∧
    ∃ digest, v.fileHash = "sha256:" ++ encodeHex digest
  row : ∀ n ∈ s.narinfos.narinfos.rows, Accepted cfg n.toUpsertNarInfo

namespace Checked

/-- Fewer uploads and calls. -/
theorem of_subset {cfg : ServerConfig} {s s' : State} (h : Checked cfg s)
    (hu : ∀ key upload, s'.uploads key = some upload → s.uploads key = some upload) (hc : s'.calls ⊆ s.calls)
    (hn : s'.narinfos = s.narinfos) : Checked cfg s' where
  upload h' := h.upload (hu _ _ h')
  verifying h' := h.verifying (hc h')
  persisting h' := h.persisting (hc h')
  row := hn ▸ h.row

theorem step {d : Deployment} {s s' : State} {a : Action} (h : Checked d.toServerConfig s) (he : Effect d s a s') :
    Checked d.toServerConfig s' := by
  cases he with
  | finish => exact h.of_subset (fun _ _ => Recorded.forget_subset) (List.Subset.refl _) rfl
  | disconnect => exact h.of_subset (fun _ _ hu => hu) (List.filter_subset_self _) rfl
  | dropped => exact h.of_subset (fun _ _ hu => hu) List.erase_subset rfl
  | started hs =>
    refine ⟨h.upload, fun hc => ?_, fun hc => ?_, h.row⟩
    · rcases List.mem_cons.mp hc with rfl | hc
      · cases hs with
        | verifying hi hr hu => exact ⟨hi, h.upload hu⟩
      · exact h.verifying hc
    · rcases List.mem_cons.mp hc with rfl | hc
      · cases hs
      · exact h.persisting hc
  | @presigned k m b requests outputs hc ho =>
    have hrest : Checked d.toServerConfig (s.finishCall (.presigning k m b requests)) :=
      h.of_subset (fun _ _ hu => hu) List.erase_subset rfl
    refine ⟨fun hu => ?_, hrest.verifying, hrest.persisting, h.row⟩
    rcases grant_eq_some hu with hu | ⟨r, -, -, url, hp⟩
    · exact h.upload hu
    · obtain ⟨-, rfl⟩ := presignOne_eq_ok hp
      exact ⟨r.narHash, rfl⟩
  | @verified k m b info object reads taken v hc ho hr hv =>
    obtain ⟨n, hd, -⟩ := isReading_eq_true.mp hr
    have heq := verify_eq_ok hv ((Codec.length_nar_lt hd).trans (by norm_num))
    refine ⟨h.upload, fun hc' => ?_, fun hc' => ?_, h.row⟩
    · rcases List.mem_cons.mp hc' with hc' | hc'
      · cases hc'
      · exact h.verifying (List.mem_of_mem_erase hc')
    · rcases List.mem_cons.mp hc' with hc' | hc'
      · cases hc'
        exact ⟨(h.verifying hc).1, (h.verifying hc).2, ⟨_, congrArg UploadedNar.narHash heq⟩,
          ⟨_, congrArg UploadedNar.fileHash heq⟩⟩
      · exact h.persisting (List.mem_of_mem_erase hc')
  | @persisted k m b info v projectId signed hc hp =>
    have hrest : Checked d.toServerConfig (s.finishCall (.persisting k m b info v)) :=
      h.of_subset (fun _ _ hu => hu) List.erase_subset rfl
    refine ⟨fun hu => ?_, hrest.verifying, hrest.persisting, fun n hn => ?_⟩
    · rcases update_eq_some.mp hu with ⟨-, he⟩ | ⟨-, hu⟩
      · cases he
      · exact h.upload hu
    · rcases Table.mem_upsert.mp hn with rfl | ⟨hn, -⟩
      · obtain ⟨hchk, hurl, hnar, hfile⟩ := h.persisting hc
        exact (accepted_uploadedNarInfo hchk hurl hnar hfile).upsertRow _ _
      · exact h.row n hn
  | _ => exact ⟨h.upload, h.verifying, h.persisting, h.row⟩

end Checked

/-- **Every row of the table has been accepted.** -/
theorem accepted_of_run {d : Deployment} {as : List Action} {s : State} (hrun : Lts.exec (step d) {} as = some s) :
    ∀ n ∈ s.narinfos.narinfos.rows, Accepted d.toServerConfig n.toUpsertNarInfo := by
  have hstep : ∀ s a s', Checked d.toServerConfig s → True → step d s a = some s' → Checked d.toServerConfig s' :=
    fun _ _ _ h _ hs => h.step (effect_of_step hs)
  have hinit : Checked d.toServerConfig {} :=
    ⟨(by cases ·), (by cases ·), (by cases ·), fun n hn => absurd hn List.not_mem_nil⟩
  have hal : Lts.Along (step d) (fun _ _ => True) {} as := .of_mem fun _ _ _ => trivial
  exact (Lts.exec_inv hstep hinit hal hrun).row

end Circus.Rpc
