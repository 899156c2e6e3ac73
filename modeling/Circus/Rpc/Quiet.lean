/-
# Builds of which no upload is under way

A build about which no upload call waits, and whose uploads are expected only of
machines it is dispatched to. The server then refuses both upload calls as soon
as the build is in flight nowhere and writes no narinfo for it; and this stays
so as long as nobody makes such a call while the build is in flight.
-/
import Circus.Rpc.Provenance

namespace Circus.Rpc

/-- The build that an upload call names. -/
def uploadOf : Action → Option Uuid
  | .requestPresignedUrls _ _ b _ | .notifyUploadComplete _ _ b _ => some b
  | _ => none

/-- No upload of the build is under way. It may be in flight. -/
structure State.Quiet (s : State) (b : Uuid) : Prop where
  /-- an upload that outlives the dispatch of its build would still be accepted -/
  upload : ∀ {m path upload}, s.uploads ⟨m, b, path⟩ = some upload → ∃ k, (k, b) ∈ s.flights ∧ s.machine k = some m
  call : ∀ {c}, c ∈ s.calls → c.buildId = b → ∃ k m, c = .fetching k m b

namespace State.Quiet

variable {d : Deployment} {s s' : State} {a : Action} {b : Uuid}

/-- An upload call about the build passes its checks only while it is in flight. -/
theorem flight_of_started (h : s.Quiet b) (hv : s.toSessions.Valid) {c : Call} (hc : Started d s a c)
    (hb : uploadOf a = some b) : ∃ k, (k, b) ∈ s.flights := by
  cases hc with
  | presigning _ ha =>
    cases hb
    obtain ⟨k, a, -, hk, hb⟩ := Sessions.isActive_iff.mp ha
    exact ⟨k, hv.active hk hb⟩
  | verifying _ _ hu =>
    cases hb
    obtain ⟨k, hf, -⟩ := h.upload hu
    exact ⟨k, hf⟩
  | fetching => cases hb

/-- The dispatches of the build and their machines are still there. -/
theorem of_flights (h : s.Quiet b) (hf : ∀ k, (k, b) ∈ s.flights → (k, b) ∈ s'.flights ∧ s'.machine k = s.machine k)
    (hu : s'.uploads = s.uploads) (hc : s'.calls = s.calls) : s'.Quiet b := by
  refine ⟨fun hu' => ?_, fun hc' => h.call (hc ▸ hc')⟩
  rw [hu] at hu'
  obtain ⟨k, hk, hm⟩ := h.upload hu'
  exact ⟨k, (hf k hk).1, (hf k hk).2.trans hm⟩

/-- The uploads of machine `m` of the build go with a dispatch of it to `m`. -/
theorem finish (h : s.Quiet b) {k : ℕ} {b' : Uuid} {m : Uuid} {path : String} {upload : ExpectedUpload}
    (hu : (s.machine k).elim s.uploads (fun m => forgetUploadsFor s.uploads m b') ⟨m, b, path⟩ = some upload) :
    ∃ k', (k', b) ∈ s.flights.erase (k, b') ∧ s.machine k' = some m := by
  have hold : s.uploads ⟨m, b, path⟩ = some upload ∧ ¬ (s.machine k = some m ∧ b = b') := by
    cases hm : s.machine k with
    | none => exact ⟨by rwa [hm] at hu, nofun⟩
    | some =>
      rw [hm, Option.elim_some, forgetUploadsFor] at hu
      split_ifs at hu with hkey
      exact ⟨hu, fun he => hkey ⟨(Option.some.inj he.1).symm, he.2⟩⟩
  obtain ⟨k', hf, hm⟩ := h.upload hold.1
  refine ⟨k', (List.mem_erase_of_ne fun he => ?_).mpr hf, hm⟩
  obtain ⟨rfl, rfl⟩ := Prod.mk.inj he
  exact hold.2 ⟨hm, rfl⟩

theorem step (h : s.Quiet b) (hv : s.toSessions.Valid) (ha : uploadOf a = some b → ∀ k, (k, b) ∉ s.flights)
    (he : Effect d s a s') : s'.Quiet b := by
  cases he with
  | same | tick | accept | register | unregistered | put => exact ⟨h.upload, h.call⟩
  | @registered k conn info authKind hk hr =>
    refine h.of_flights (fun k' hf => ⟨hf, ?_⟩) rfl rfl
    have hne : k' ≠ k := by
      rintro rfl
      have hsome := hv.flight hf
      rw [hv.agents_of_registering hk hr] at hsome
      cases hsome
    simp [Sessions.machine, hne]
  | disconnect => exact ⟨h.upload, fun hc => h.call (List.mem_filter.mp hc).1⟩
  | acquire | release =>
    exact h.of_flights (fun k' hf => ⟨hf, Sessions.machine_modifyAgent fun _ => rfl⟩) rfl rfl
  | dispatch =>
    exact h.of_flights
      (fun k' hf => ⟨List.mem_cons_of_mem _ hf, Sessions.machine_modifyAgent fun _ => rfl⟩) rfl rfl
  | @finish k b' hf =>
    refine ⟨fun hu => ?_, h.call⟩
    obtain ⟨k', hf', hm⟩ := h.finish hu
    exact ⟨k', hf', (Sessions.machine_modifyAgent (f := AgentMeta.finish b') fun _ => rfl).trans hm⟩
  | @started _ c hs =>
    refine ⟨h.upload, fun hc hb => ?_⟩
    rcases List.mem_cons.mp hc with rfl | hc
    · -- a call that passes its checks is about another build, or fetches
      have hne : uploadOf a ≠ some b := fun hb => by
        obtain ⟨k, hf⟩ := h.flight_of_started hv hs hb
        exact ha hb k hf
      cases hs with
      | presigning | verifying => exact absurd (congrArg some hb) hne
      | @fetching k m _ => exact ⟨k, m, by rw [← hb, Call.buildId]⟩
    · exact h.call hc hb
  | @presigned k m b' requests outputs hc ho =>
    refine ⟨fun hu => ?_, fun hc => h.call (List.mem_of_mem_erase hc)⟩
    rcases grant_eq_some hu with hu | ⟨r, -, hkey, -⟩
    · exact h.upload hu
    · obtain ⟨_, _, he⟩ := h.call hc (UploadKey.mk.inj hkey).2.1.symm
      cases he
  | verified hc =>
    refine ⟨h.upload, fun hc' hb => ?_⟩
    rcases List.mem_cons.mp hc' with rfl | hc'
    · obtain ⟨_, _, he⟩ := h.call hc hb
      cases he
    · exact h.call (List.mem_of_mem_erase hc') hb
  | persisted hc =>
    refine ⟨fun hu => ?_, fun hc => h.call (List.mem_of_mem_erase hc)⟩
    rcases update_eq_some.mp hu with ⟨-, hu⟩ | ⟨-, hu⟩
    · cases hu
    · exact h.upload hu
  | dropped a hc => exact ⟨h.upload, fun hc => h.call (List.mem_of_mem_erase hc)⟩

theorem request_refused (h : s.Quiet b) (hv : s.toSessions.Valid) (hf : ∀ k, (k, b) ∉ s.flights) (k : ℕ) (m : Uuid)
    (requests : List PresignedNarRequest) :
    ∃ e, requestPresignedUrls d.toServerConfig s k m b requests = .error e := by
  cases hr : requestPresignedUrls d.toServerConfig s k m b requests with
  | error e => exact ⟨e, rfl⟩
  | ok =>
    obtain ⟨k', hf'⟩ := h.flight_of_started hv (started_request hr) rfl
    exact absurd hf' (hf k')

theorem notify_refused (h : s.Quiet b) (hv : s.toSessions.Valid) (hf : ∀ k, (k, b) ∉ s.flights) (k : ℕ) (m : Uuid)
    (info : NarInfo) : ∃ e, notifyUploadComplete d.toServerConfig s k m b info = .error e := by
  cases hr : notifyUploadComplete d.toServerConfig s k m b info with
  | error e => exact ⟨e, rfl⟩
  | ok =>
    obtain ⟨k', hf'⟩ := h.flight_of_started hv (started_notify hr) rfl
    exact absurd hf' (hf k')

theorem written_ne (h : s.Quiet b) (a : Action) (m : Uuid) (row : Cache.UpsertNarInfo) :
    written d s a ≠ some (m, b, row) := by
  intro hw
  unfold written at hw
  split at hw
  next k m' b' info v signed =>
    split_ifs at hw with hc
    split at hw
    · obtain ⟨_, _, he⟩ := h.call hc (Prod.mk.inj (Prod.mk.inj (Option.some.inj hw)).2).1
      cases he
    · cases hw
  next => cases hw

end State.Quiet

end Circus.Rpc
