/-
# What becomes of verified objects

An upload is verified once, when it is notified. The URL it was put through
stays good until it expires, and the key of the object comes from the hash the
agent declared, so other requests can have URLs for the same key. The objects
of persisted rows stay what the rows say if every PUT to such a key has the
same NAR; between the verification and the row, that is asked of the key too.
-/
import Circus.Rpc.Provenance

namespace Circus.Rpc

open Nix
open Function (update)

def holdsNar (d : Deployment) (object : Object) (compression narHash : String) : Bool :=
  match d.codec.decode compression object.bytes with
  | .ok (nar, _) => decide (narHash = "sha256:" ++ encodeSha256 (d.sha256 nar))
  | .error _ => false

/-- The object under the key decompresses to a NAR with the hash. -/
def State.holdsNar (d : Deployment) (s : State) (key compression narHash : String) : Bool :=
  (s.objects key).any fun object => Rpc.holdsNar d object compression narHash

/-- A PUT keeps the NAR of the rows, and of the verified uploads, that have the key. -/
def KeepsNar (d : Deployment) (s : State) : Action → Prop
  | .put key object =>
    (∀ n ∈ s.narinfos.narinfos.rows, n.isUploaded = true → n.url = key →
      holdsNar d object n.compression n.narHash = true) ∧
    ∀ c ∈ s.calls, match c with
      | .persisting _ _ _ info v => info.url = key → holdsNar d object info.compression v.narHash = true
      | _ => True
  | _ => True

instance (d : Deployment) (s : State) (a : Action) : Decidable (KeepsNar d s a) :=
  match a with
  | .put key object =>
    have : DecidablePred fun c : Call => match c with
        | .persisting _ _ _ info v => info.url = key → holdsNar d object info.compression v.narHash = true
        | _ => True := fun c => match c with
      | .persisting .. => inferInstanceAs (Decidable (_ → _))
      | .presigning .. | .verifying .. | .fetching .. => isTrue trivial
    inferInstanceAs (Decidable (_ ∧ ∀ c ∈ s.calls, _))
  | .tick | .accept .. | .register .. | .sessionRegistered .. | .disconnect .. | .acquire .. | .release ..
  | .dispatch .. | .finish .. | .requestPresignedUrls .. | .notifyUploadComplete .. | .fetchDrvClosure ..
  | .resume .. => isTrue trivial

/-- The objects of rows and of verified uploads are what these say. -/
structure Intact (d : Deployment) (s : State) : Prop where
  row : ∀ n ∈ s.narinfos.narinfos.rows, n.isUploaded = true → s.holdsNar d n.url n.compression n.narHash = true
  call : ∀ {k m b info v}, .persisting k m b info v ∈ s.calls → s.holdsNar d info.url info.compression v.narHash = true

/-- A verified upload holds the NAR that was hashed. -/
theorem holdsNar_of_verify {d : Deployment} {s : State} {info : NarInfo} {object : Object} {reads : List Bytes}
    {taken : ℕ} {v : UploadedNar} (ho : s.objects info.url = some object)
    (hr : isReading d.codec info.compression object.bytes reads taken = true)
    (hv : verify d.sha256 (verifyRequest info) reads (object.bytes.take taken) = .ok v) :
    s.holdsNar d info.url info.compression v.narHash = true := by
  obtain ⟨n, hd, -⟩ := isReading_eq_true.mp hr
  have hlt : reads.flatten.length < 2 ^ 64 := (Codec.length_nar_lt hd).trans (by norm_num)
  rw [State.holdsNar, ho, Option.any_some, Rpc.holdsNar, hd, verify_eq_ok hv hlt]
  exact decide_eq_true rfl

theorem holdsNar_put {d : Deployment} {s : State} {key key' compression narHash : String} {object : Object}
    (h : s.holdsNar d key' compression narHash = true)
    (hput : key' = key → Rpc.holdsNar d object compression narHash = true) :
    ({ s with objects := update s.objects key (some object) } : State).holdsNar d key' compression narHash = true := by
  unfold State.holdsNar at h ⊢
  by_cases hk : key' = key
  · simp [hk, hput hk]
  · simpa [hk] using h

namespace Intact

/-- Fewer waiting calls. -/
theorem of_calls {d : Deployment} {s s' : State} (h : Intact d s) (ho : s'.objects = s.objects)
    (hn : s'.narinfos = s.narinfos)
    (hc : ∀ {k m b info v}, .persisting k m b info v ∈ s'.calls → .persisting k m b info v ∈ s.calls) :
    Intact d s' where
  row n hr hu := by
    rw [hn] at hr
    have := h.row n hr hu
    unfold State.holdsNar at this ⊢
    rwa [ho]
  call hc' := by
    have := h.call (hc hc')
    unfold State.holdsNar at this ⊢
    rwa [ho]

theorem step {d : Deployment} {s s' : State} {a : Action} (h : Intact d s) (hg : KeepsNar d s a)
    (he : Effect d s a s') : Intact d s' := by
  cases he with
  | put =>
    refine ⟨fun n hr hu => holdsNar_put (h.row n hr hu) fun he => hg.1 n hr hu he, fun hc => ?_⟩
    exact holdsNar_put (h.call hc) fun he => hg.2 _ hc he
  | @verified k m b info object reads taken v hc ho hr hv =>
    refine ⟨h.row, fun hc' => ?_⟩
    rcases List.mem_cons.mp hc' with hc' | hc'
    · cases hc'
      exact holdsNar_of_verify ho hr hv
    · exact h.call (List.mem_of_mem_erase hc')
  | persisted hc =>
    refine ⟨fun n hr hu => ?_, fun hc' => h.call (List.mem_of_mem_erase hc')⟩
    rcases Table.mem_upsert.mp hr with rfl | ⟨hr, -⟩
    · exact h.call hc
    · exact h.row n hr hu
  | started hs =>
    refine h.of_calls rfl rfl fun hc => ?_
    rcases List.mem_cons.mp hc with rfl | hc
    · cases hs
    · exact hc
  | dropped | presigned => exact h.of_calls rfl rfl List.mem_of_mem_erase
  | disconnect => exact h.of_calls rfl rfl List.mem_of_mem_filter
  | _ => exact ⟨h.row, h.call⟩

end Intact

/-- **Verified objects stay intact** where every PUT to the key of a row, or of
an upload that has been verified, has the NAR that was verified. -/
theorem uploads_stay_intact {d : Deployment} {as : List Action} {s : State}
    (hal : Lts.Along (step d) (KeepsNar d) {} as) (hrun : Lts.exec (step d) {} as = some s) :
    ∀ n ∈ s.narinfos.narinfos.rows, n.isUploaded = true → ∃ object nar k, s.objects n.url = some object ∧
      d.codec.decode n.compression object.bytes = .ok (nar, k) ∧
      n.narHash = "sha256:" ++ encodeSha256 (d.sha256 nar) := by
  have hinit : Intact d {} := ⟨fun n hn => absurd hn List.not_mem_nil, (by cases ·)⟩
  have hstep : ∀ s a s', Intact d s → KeepsNar d s a → Rpc.step d s a = some s' → Intact d s' :=
    fun _ _ _ h hg hs => h.step hg (effect_of_step hs)
  intro n hn hu
  have hholds := (Lts.exec_inv hstep hinit hal hrun).row n hn hu
  obtain ⟨object, ho, hholds⟩ := (Option.any_eq_true _ _).mp hholds
  unfold holdsNar at hholds
  split at hholds
  next nar k hd => exact ⟨object, nar, k, ho, hd, of_decide_eq_true hholds⟩
  next => cases hholds

/-- The upload of `uploading`, with its row. -/
def uploadedAs (info : NarInfo) : List Action := .flatten [uploading info emptyObject,
  [.resume (.persisting 0 7 5 info emptyUploaded) (.stored true)]]

def uploaded : List Action := uploadedAs emptyNarInfo

theorem uploads_stay_intact_uploaded : ∃ s ∈ Lts.exec (step smallDeployment) {} uploaded,
    ∃ n ∈ s.narinfos.narinfos.rows, n.isUploaded = true ∧ ∃ object nar k, s.objects n.url = some object ∧
      smallCodec.decode n.compression object.bytes = .ok (nar, k) ∧
      n.narHash = "sha256:" ++ encodeSha256 (digestOf nar) := by
  obtain ⟨hal, s, hs, n, hn, hu⟩ : Lts.Along (step smallDeployment) (KeepsNar smallDeployment) {} uploaded ∧
      ∃ s ∈ Lts.exec (step smallDeployment) {} uploaded, ∃ n ∈ s.narinfos.narinfos.rows, n.isUploaded = true := by
    decide +kernel
  exact ⟨s, hs, n, hn, hu, uploads_stay_intact hal hs n hn hu⟩

/-- The compressed stream of one byte. -/
def otherObject : Object := ⟨[1, 9], by decide⟩

/-- The URL is used once more after the row is there. -/
theorem put_after_verification : ∃ s ∈ Lts.exec (step smallDeployment) {}
    (.flatten [uploaded, [.put emptyNarInfo.url otherObject]]),
    ∃ n ∈ s.narinfos.narinfos.rows, n.isUploaded = true ∧
      ∃ object ∈ s.objects n.url, holdsNar smallDeployment object n.compression n.narHash = false := by
  decide +kernel

end Circus.Rpc
