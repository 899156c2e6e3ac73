/-
# Cleaning up the cache

`run_cycle` of `crates/queue-runner/src/cache_gc.rs`, next to the RPC server:
a cycle lists candidates, deletes their objects, in any order, and then the
rows of those whose deletion succeeded. Objects go by URL and rows by store
path. In between the server verifies uploads and writes rows, NARs are fetched,
and the cycle or the whole process may fail.

After a cycle no row is left without its object if candidates and URLs agree:
a row that has the URL of a candidate, or one whose object was deleted by a cycle
that broke off, is a candidate itself (`Agrees`). The invariant behind it
(`Covered`) is that objects are missing only where a cycle has deleted them, and
that during a cycle every row without its object is one of the rows the cycle
will delete.
-/
import Circus.Rpc.Sessions

namespace Circus.Cache.Gc

open Cache.Db (CacheGcCandidate)
open Function (update)

/-- `CacheGcConfig`, as far as a cycle reads it. -/
structure Config where
  maxAgeDays : Option ℕ := none
  maxSizeBytes : Option ℤ := none
  targetSizeBytes : Option ℤ := none

inductive Cycle
  | idle
  /-- The candidates whose objects are still to be deleted, and those that are. -/
  | deleting (todo deleted : List CacheGcCandidate)

structure State where
  server : Rpc.State := {}
  cycle : Cycle := .idle
  /-- For the statements: the URLs whose objects were deleted since a cycle last deleted rows. -/
  removed : List String := []

namespace State

/-- The rows that point to an object of the store. -/
def uploaded (s : State) : List NarInfo := s.server.narinfos.narinfos.select NarInfo.isUploaded

/-- The candidates of the cycle that is under way. -/
def candidates (s : State) : List CacheGcCandidate :=
  match s.cycle with
  | .idle => []
  | .deleting todo deleted => todo ++ deleted

/-- What a cycle that begins now would list. -/
def listed (cfg : Config) (s : State) : List CacheGcCandidate :=
  s.server.narinfos.listGcCandidates (cfg.maxAgeDays.map fun days => s.server.now - days * 86400) cfg.maxSizeBytes
    cfg.targetSizeBytes

end State

/-- What becomes of a DELETE. -/
inductive Answer
  /-- The object is gone, or there was none. -/
  | deleted
  | refused
  /-- The object is gone, and the answer does not arrive in time. -/
  | lost
  deriving DecidableEq

inductive Action
  | server (a : Rpc.Action)
  /-- A NAR is fetched. -/
  | touch (storePath : String)
  | list
  | deleteObject (c : CacheGcCandidate) (answer : Answer)
  | deleteRows
  /-- The rows could not be deleted. -/
  | failed
  /-- The process ends and starts again. -/
  | crash
  deriving DecidableEq

def State.deleteObject (s : State) (url : String) : State :=
  { s with server := { s.server with objects := update s.server.objects url none }, removed := url :: s.removed }

def step (d : Rpc.Deployment) (cfg : Config) (s : State) : Action → Option State
  | .server a => (Rpc.step d s.server a).map fun server => { s with server := server }
  | .touch storePath => some { s with
      server := { s.server with narinfos := s.server.narinfos.touchLastFetched s.server.now storePath } }
  | .list =>
    match s.cycle with
    | .idle => some (if s.listed cfg = [] then s else { s with cycle := .deleting (s.listed cfg) [] })
    | .deleting _ _ => none
  | .deleteObject c answer =>
    match s.cycle with
    | .deleting todo deleted =>
      if c ∈ todo then
        match answer with
        | .deleted => some { s.deleteObject c.url with cycle := .deleting (todo.erase c) (c :: deleted) }
        | .refused => some { s with cycle := .deleting (todo.erase c) deleted }
        | .lost => some { s.deleteObject c.url with cycle := .deleting (todo.erase c) deleted }
      else none
    | .idle => none
  | .deleteRows =>
    match s.cycle with
    | .deleting [] deleted => some {
        server := { s.server with
          narinfos := s.server.narinfos.deleteGcCandidates (deleted.map fun c => c.storePath) }
        cycle := .idle }
    | _ => none
  | .failed => some { s with cycle := .idle }
  | .crash => some {
      server := {
        now := s.server.now
        issued := s.server.issued
        objects := s.server.objects
        narinfos := s.server.narinfos }
      removed := s.removed }

/-- The cycle ends as it should. -/
def completes (cfg : Config) (s : State) : Action → Bool
  | .deleteRows => true
  | .list => (s.listed cfg).isEmpty
  | _ => false

def State.hasObject (s : State) (n : NarInfo) : Bool := (s.server.objects n.url).isSome

/-- The URL of an upload that is verified and has no row yet. -/
def persistingUrl : Rpc.Call → Option String
  | .persisting _ _ _ info _ => some info.url
  | _ => none

def hasUrl (cands : List CacheGcCandidate) (url : String) : Bool := cands.any fun c => decide (c.url = url)

def hasPath (cands : List CacheGcCandidate) (path : String) : Bool := cands.any fun c => decide (c.storePath = path)

/-- Candidates and URLs agree. When a cycle begins, a row with the URL of a
candidate is a candidate, and so is one whose object a cycle that broke off has
deleted and nobody has uploaded again; no upload with the URL of a candidate
waits for its row, and during the cycle none is verified. And a DELETE that is
refused is for an object that is there and is no other candidate's. -/
def Agrees (cfg : Config) (s : State) : Action → Prop
  | .list =>
    (∀ n ∈ s.uploaded, n.url ∈ s.removed ∧ s.hasObject n = false ∨ hasUrl (s.listed cfg) n.url = true →
      hasPath (s.listed cfg) n.storePath = true) ∧
    ∀ c ∈ s.server.calls, ∀ url ∈ persistingUrl c, hasUrl (s.listed cfg) url = false
  | .server (.resume (.verifying _ _ _ info) _) => hasUrl s.candidates info.url = false
  | .deleteObject c .refused =>
    (s.server.objects c.url).isSome = true ∧ hasUrl (s.candidates.erase c) c.url = false
  | .deleteObject _ .lost => False
  | _ => True

instance (cfg : Config) (s : State) (a : Action) : Decidable (Agrees cfg s a) := by
  unfold Agrees
  split <;> infer_instance

/-! ### The rows of a cycle -/

/-- One of the candidates has both the path and the URL. -/
def Covers (cands : List CacheGcCandidate) (path url : String) : Prop :=
  ∃ c ∈ cands, c.storePath = path ∧ c.url = url

/-- Where objects are missing a cycle has deleted them. The rows whose objects
are gone, or may yet go, are candidates of the cycle that is under way, and the
uploads that are verified keep their objects. -/
structure Covered (s : State) : Prop where
  removed : ∀ n ∈ s.uploaded, s.hasObject n = false → n.url ∈ s.removed
  gone : s.cycle ≠ .idle → ∀ n ∈ s.uploaded, s.hasObject n = false → Covers s.candidates n.storePath n.url
  shared : ∀ n ∈ s.uploaded, hasUrl s.candidates n.url = true → Covers s.candidates n.storePath n.url
  call : ∀ c ∈ s.server.calls, ∀ url ∈ persistingUrl c,
    (s.server.objects url).isSome = true ∧ hasUrl s.candidates url = false

theorem hasUrl_iff {cands : List CacheGcCandidate} {url : String} :
    hasUrl cands url = true ↔ ∃ c ∈ cands, c.url = url := by
  simp [hasUrl]

variable {s : State}

theorem State.mem_uploaded {n : NarInfo} :
    n ∈ s.uploaded ↔ n ∈ s.server.narinfos.narinfos.rows ∧ n.isUploaded = true :=
  List.mem_filter

variable {cfg : Config}

/-- A candidate with the path of a row has its URL, when the cycle begins. -/
theorem covers_listed {n : NarInfo} (hn : n ∈ s.uploaded)
    (h : hasPath (s.listed cfg) n.storePath = true) : Covers (s.listed cfg) n.storePath n.url := by
  obtain ⟨c, hc, hp⟩ : ∃ c ∈ s.listed cfg, c.storePath = n.storePath := by simpa [hasPath] using h
  obtain ⟨n', hn', -, hp', hu⟩ := Db.mem_listGcCandidates hc
  have hnn : n' = n :=
    List.inj_on_of_nodup_map s.server.narinfos.narinfos.nodup hn' (State.mem_uploaded.mp hn).1 (hp'.trans hp)
  exact ⟨c, hc, hp, hnn ▸ hu.symm⟩

namespace Covered

/-- Outside the cycle: rows come with their objects, objects stay. -/
theorem frame {s' : State} (h : Covered s) (hcycle : s'.cycle = s.cycle) (hremoved : s'.removed = s.removed)
    (hobj : ∀ url, (s.server.objects url).isSome = true → (s'.server.objects url).isSome = true)
    (hrow : ∀ n ∈ s'.uploaded, (∃ n₀ ∈ s.uploaded, n₀.storePath = n.storePath ∧ n₀.url = n.url) ∨
      s'.hasObject n = true ∧ hasUrl s.candidates n.url = false)
    (hcall : ∀ c ∈ s'.server.calls, ∀ url ∈ persistingUrl c,
      (s'.server.objects url).isSome = true ∧ hasUrl s.candidates url = false) : Covered s' := by
  have hcand : s'.candidates = s.candidates := by
    unfold State.candidates
    rw [hcycle]
  -- a row without its object was there without it
  have hgone : ∀ n ∈ s'.uploaded, s'.hasObject n = false →
      ∃ n₀ ∈ s.uploaded, s.hasObject n₀ = false ∧ n₀.storePath = n.storePath ∧ n₀.url = n.url := by
    intro n hn hno
    rcases hrow n hn with ⟨n₀, hn₀, hp, hu⟩ | ⟨ho, -⟩
    · refine ⟨n₀, hn₀, Bool.eq_false_iff.mpr fun ho => ?_, hp, hu⟩
      have := hobj n₀.url ho
      rw [hu] at this
      exact Bool.false_ne_true (hno.symm.trans this)
    · exact absurd (hno.symm.trans ho) Bool.false_ne_true
  refine ⟨fun n hn hno => ?_, fun hc n hn hno => ?_, fun n hn hu => ?_,
    fun c hc url hu => hcand ▸ hcall c hc url hu⟩
  · obtain ⟨n₀, hn₀, hno₀, -, hu⟩ := hgone n hn hno
    exact hremoved ▸ hu ▸ h.removed n₀ hn₀ hno₀
  · obtain ⟨n₀, hn₀, hno₀, hp, hu⟩ := hgone n hn hno
    exact hcand ▸ hp ▸ hu ▸ h.gone (hcycle ▸ hc) n₀ hn₀ hno₀
  · rw [hcand] at hu ⊢
    rcases hrow n hn with ⟨n₀, hn₀, hp, hu₀⟩ | ⟨-, ho⟩
    · exact hp ▸ hu₀ ▸ h.shared n₀ hn₀ (hu₀.symm ▸ hu)
    · exact absurd (ho.symm.trans hu) Bool.false_ne_true

end Covered

/-- What a step of the server does to rows, objects and verified uploads. -/
theorem stored_of_effect {d : Rpc.Deployment} {s s' : Rpc.State} {a : Rpc.Action} (he : Rpc.Effect d s a s') :
    (∀ url, (s.objects url).isSome = true → (s'.objects url).isSome = true) ∧
    (∀ n ∈ s'.narinfos.narinfos.rows, n ∈ s.narinfos.narinfos.rows ∨ ∃ c ∈ s.calls, persistingUrl c = some n.url) ∧
    ∀ c ∈ s'.calls, ∀ url ∈ persistingUrl c, (∃ c₀ ∈ s.calls, persistingUrl c₀ = some url) ∨
      ∃ k m b info o, a = .resume (.verifying k m b info) o ∧ info.url = url ∧ (s.objects url).isSome = true := by
  have hsame : ∀ {cs : List Rpc.Call}, cs ⊆ s.calls → ∀ c ∈ cs, ∀ url ∈ persistingUrl c,
      (∃ c₀ ∈ s.calls, persistingUrl c₀ = some url) ∨ ∃ k m b info o, a = .resume (.verifying k m b info) o ∧
        info.url = url ∧ (s.objects url).isSome = true := fun hs c hc url hu => .inl ⟨c, hs hc, hu⟩
  cases he with
  | put =>
    refine ⟨fun url ho => ?_, fun n hn => .inl hn, hsame (List.Subset.refl _)⟩
    exact Rpc.isSome_update ho
  | persisted hc =>
    refine ⟨fun url ho => ho, fun n hn => ?_, hsame List.erase_subset⟩
    rcases Table.mem_upsert.mp hn with rfl | ⟨hn, -⟩
    · exact .inr ⟨_, hc, rfl⟩
    · exact .inl hn
  | verified hc ho =>
    refine ⟨fun url ho => ho, fun n hn => .inl hn, fun c hc' url hu => ?_⟩
    rcases List.mem_cons.mp hc' with rfl | hc'
    · cases hu
      exact .inr ⟨_, _, _, _, _, rfl, rfl, by rw [ho]; rfl⟩
    · exact hsame List.erase_subset c hc' url hu
  | started hs =>
    refine ⟨fun url ho => ho, fun n hn => .inl hn, fun c hc url hu => ?_⟩
    rcases List.mem_cons.mp hc with rfl | hc
    · cases hs <;> cases hu
    · exact .inl ⟨c, hc, hu⟩
  | dropped | presigned hc ho => exact ⟨fun url ho => ho, fun n hn => .inl hn, hsame List.erase_subset⟩
  | disconnect => exact ⟨fun url ho => ho, fun n hn => .inl hn, hsame (List.filter_subset_self _)⟩
  | _ => exact ⟨fun url ho => ho, fun n hn => .inl hn, hsame (List.Subset.refl _)⟩

namespace Covered

theorem server {d : Rpc.Deployment} {server : Rpc.State} {a : Rpc.Action} (h : Covered s)
    (hg : Agrees cfg s (.server a)) (hs : Rpc.step d s.server a = some server) :
    Covered { s with server := server } := by
  obtain ⟨hobj, hrow, hcall⟩ := stored_of_effect (Rpc.effect_of_step hs)
  refine h.frame rfl rfl hobj (fun n hn => ?_) fun c hc url hu => ?_
  · obtain ⟨hn, hup⟩ := State.mem_uploaded.mp hn
    rcases hrow n hn with hn | ⟨c, hc, hu⟩
    · exact .inl ⟨n, State.mem_uploaded.mpr ⟨hn, hup⟩, rfl, rfl⟩
    · obtain ⟨ho, hno⟩ := h.call c hc n.url hu
      exact .inr ⟨hobj _ ho, hno⟩
  · rcases hcall c hc url hu with ⟨c₀, hc₀, hu₀⟩ | ⟨k, m, b, info, o, rfl, rfl, ho⟩
    · obtain ⟨ho, hno⟩ := h.call c₀ hc₀ url hu₀
      exact ⟨hobj _ ho, hno⟩
    · exact ⟨hobj _ ho, hg⟩

theorem touch (h : Covered s) (storePath : String) : Covered { s with
    server := { s.server with narinfos := s.server.narinfos.touchLastFetched s.server.now storePath } } := by
  refine h.frame rfl rfl (fun _ ho => ho) (fun n hn => .inl ?_) h.call
  obtain ⟨hn, hup⟩ := State.mem_uploaded.mp hn
  obtain ⟨n₀, hn₀, he⟩ := Db.mem_touchLastFetched hn
  have hup₀ : n₀.isUploaded = true := (congrArg (fun u => u.fileHash.isSome) he).trans hup
  exact ⟨n₀, State.mem_uploaded.mpr ⟨hn₀, hup₀⟩, congrArg (fun u => u.storePath) he, congrArg (fun u => u.url) he⟩

/-- A cycle begins. -/
theorem list (h : Covered s) (hg : Agrees cfg s .list) : Covered { s with cycle := .deleting (s.listed cfg) [] } := by
  have hcand : ({ s with cycle := .deleting (s.listed cfg) [] } : State).candidates = s.listed cfg := List.append_nil _
  refine ⟨h.removed, fun _ n hn hno => ?_, fun n hn hu => ?_, fun c hc url hu => ?_⟩
  · rw [hcand]
    exact covers_listed hn (hg.1 n hn (.inl ⟨h.removed n hn hno, hno⟩))
  · rw [hcand] at hu ⊢
    exact covers_listed hn (hg.1 n hn (.inr hu))
  · rw [hcand]
    exact ⟨(h.call c hc url hu).1, hg.2 c hc url hu⟩

/-- The object of a candidate goes: the rows that had it are candidates'. -/
theorem deleted {todo deleted : List CacheGcCandidate} {c : CacheGcCandidate} (h : Covered s)
    (hcycle : s.cycle = .deleting todo deleted) (hc : c ∈ todo) :
    Covered { s.deleteObject c.url with cycle := .deleting (todo.erase c) (c :: deleted) } := by
  have hcand : ∀ x, x ∈ todo.erase c ++ c :: deleted ↔ x ∈ s.candidates := fun x => by
    have hp : (todo.erase c ++ c :: deleted).Perm (todo ++ deleted) :=
      List.perm_middle.trans ((List.perm_cons_erase hc).symm.append_right deleted)
    rw [State.candidates, hcycle]
    exact hp.mem_iff
  have hcov : ∀ {path url}, Covers s.candidates path url → Covers (todo.erase c ++ c :: deleted) path url :=
    fun ⟨x, hx, hx'⟩ => ⟨x, (hcand x).mpr hx, hx'⟩
  have hurl : ∀ {url}, hasUrl (todo.erase c ++ c :: deleted) url = true → hasUrl s.candidates url = true := fun hu => by
    obtain ⟨x, hx, hu⟩ := hasUrl_iff.mp hu
    exact hasUrl_iff.mpr ⟨x, (hcand x).mp hx, hu⟩
  have hc' : c ∈ s.candidates := (hcand c).mp (List.mem_append_right _ List.mem_cons_self)
  -- a row that had no object before
  have hbefore : ∀ {n : NarInfo}, n.url ≠ c.url → (s.deleteObject c.url).hasObject n = false →
      s.hasObject n = false := fun {n} hu hno => by
    have hkeep : update s.server.objects c.url none n.url = s.server.objects n.url := Function.update_of_ne hu _ _
    unfold State.hasObject at hno ⊢
    exact hkeep ▸ hno
  refine ⟨fun n hn hno => ?_, fun _ n hn hno => hcov ?_, fun n hn hu => hcov (h.shared n hn (hurl hu)),
    fun x hx url hu => ?_⟩
  · by_cases hu : n.url = c.url
    · exact hu ▸ List.mem_cons_self
    · exact List.mem_cons_of_mem _ (h.removed n hn (hbefore hu hno))
  · by_cases hu : n.url = c.url
    · exact h.shared n hn (hasUrl_iff.mpr ⟨c, hc', hu.symm⟩)
    · exact h.gone (by rw [hcycle]; exact Cycle.noConfusion) n hn (hbefore hu hno)
  · obtain ⟨ho, hno⟩ := h.call x hx url hu
    have hne : url ≠ c.url := fun he => by
      rw [he, hasUrl_iff.mpr ⟨c, hc', rfl⟩] at hno
      cases hno
    refine ⟨?_, Bool.eq_false_iff.mpr fun hu' => Bool.eq_false_iff.mp hno (hurl hu')⟩
    have hkeep : update s.server.objects c.url none url = s.server.objects url := Function.update_of_ne hne _ _
    exact (congrArg Option.isSome hkeep).trans ho

/-- A candidate is given up: its object is there, and stays. -/
theorem refused {todo deleted : List CacheGcCandidate} {c : CacheGcCandidate} (h : Covered s)
    (hcycle : s.cycle = .deleting todo deleted) (hc : c ∈ todo) (hg : Agrees cfg s (.deleteObject c .refused)) :
    Covered { s with cycle := .deleting (todo.erase c) deleted } := by
  have hcand : s.candidates.erase c = todo.erase c ++ deleted := by
    rw [State.candidates, hcycle]
    exact List.erase_append_left deleted hc
  obtain ⟨ho, hg⟩ := hg
  rw [hcand] at hg
  -- a row the candidate stood for has its object, and no other candidate has the URL
  have hcov : ∀ {path url}, Covers s.candidates path url → url ≠ c.url → Covers (todo.erase c ++ deleted) path url :=
    fun ⟨x, hx, hp, hu⟩ hne => by
      have hxc : x ≠ c := fun he => hne (hu ▸ he ▸ rfl)
      exact ⟨x, hcand ▸ (List.mem_erase_of_ne hxc).mpr hx, hp, hu⟩
  have hsub : ∀ {url}, hasUrl (todo.erase c ++ deleted) url = true → hasUrl s.candidates url = true := fun hu => by
    obtain ⟨x, hx, hu⟩ := hasUrl_iff.mp hu
    rw [← hcand] at hx
    exact hasUrl_iff.mpr ⟨x, List.mem_of_mem_erase hx, hu⟩
  refine ⟨h.removed, fun _ n hn hno => hcov (h.gone (by rw [hcycle]; exact Cycle.noConfusion) n hn hno) fun he => ?_,
    fun n hn hu => hcov (h.shared n hn (hsub hu)) fun he => ?_, fun x hx url hu => ?_⟩
  · rw [← he] at ho
    exact Bool.false_ne_true (hno.symm.trans ho)
  · rw [he] at hu
    exact Bool.false_ne_true (hg.symm.trans hu)
  · obtain ⟨ho, hno⟩ := h.call x hx url hu
    exact ⟨ho, Bool.eq_false_iff.mpr fun hu' => Bool.eq_false_iff.mp hno (hsub hu')⟩

/-- Between cycles nothing is a candidate. -/
theorem idle (hcycle : s.cycle = .idle) (hremoved : ∀ n ∈ s.uploaded, s.hasObject n = false → n.url ∈ s.removed)
    (hcall : ∀ c ∈ s.server.calls, ∀ url ∈ persistingUrl c, (s.server.objects url).isSome = true) : Covered s where
  removed := hremoved
  gone hc := absurd hcycle hc
  shared n _ hu := by
    rw [State.candidates, hcycle] at hu
    cases hu
  call c hc url hu := by
    refine ⟨hcall c hc url hu, ?_⟩
    rw [State.candidates, hcycle]
    rfl

/-- The end of a cycle takes the rows whose objects are gone. -/
theorem completed {d : Rpc.Deployment} {s' : State} {a : Action} (h : Covered s) (hg : Agrees cfg s a)
    (hs : Gc.step d cfg s a = some s') (hc : completes cfg s a = true) : ∀ n ∈ s'.uploaded, s'.hasObject n = true := by
  intro n hn
  refine Bool.eq_true_of_not_eq_false fun hno => ?_
  cases a with
  | list =>
    have hnil : s.listed cfg = [] := List.isEmpty_iff.mp hc
    unfold Gc.step at hs
    dsimp only at hs
    split at hs
    next =>
      rw [if_pos hnil] at hs
      cases hs
      have := hg.1 n hn (.inl ⟨h.removed n hn hno, hno⟩)
      rw [hnil] at this
      cases this
    next => cases hs
  | deleteRows =>
    unfold Gc.step at hs
    dsimp only at hs
    split at hs
    next deleted hcycle =>
      cases hs
      obtain ⟨hn, hup⟩ := State.mem_uploaded.mp hn
      obtain ⟨hn, hkept⟩ := List.mem_filter.mp hn
      obtain ⟨c, hc, hp, -⟩ := h.gone (by rw [hcycle]; exact Cycle.noConfusion) n
        (State.mem_uploaded.mpr ⟨hn, hup⟩) hno
      rw [State.candidates, hcycle] at hc
      have hmem : n.storePath ∈ deleted.map fun c => c.storePath := List.mem_map.mpr ⟨c, hc, hp⟩
      simp [hup, hmem] at hkept
    next => cases hs
  | _ => cases hc

theorem step {d : Rpc.Deployment} {s' : State} {a : Action} (h : Covered s) (hg : Agrees cfg s a)
    (hs : step d cfg s a = some s') : Covered s' := by
  have hobj : ∀ c ∈ s.server.calls, ∀ url ∈ persistingUrl c, (s.server.objects url).isSome = true :=
    fun c hc url hu => (h.call c hc url hu).1
  have hcompleted := h.completed hg hs
  unfold Gc.step at hs
  split at hs
  next a =>
    obtain ⟨server, hsv, rfl⟩ := Option.map_eq_some_iff.mp hs
    exact h.server hg hsv
  next => exact Option.some.inj hs ▸ h.touch _
  next =>
    split at hs
    next =>
      rw [← Option.some.inj hs]
      split_ifs
      · exact h
      · exact h.list hg
    next => cases hs
  next c answer =>
    split at hs
    next todo deleted hcycle =>
      split_ifs at hs with hc
      cases answer with
      | deleted => exact Option.some.inj hs ▸ h.deleted hcycle hc
      | refused => exact Option.some.inj hs ▸ h.refused hcycle hc hg
      | lost => exact hg.elim
    next => cases hs
  next =>
    split at hs
    next =>
      cases hs
      exact idle rfl (fun n hn hno => absurd (hno.symm.trans (hcompleted rfl n hn)) Bool.false_ne_true) hobj
    next => cases hs
  next => exact Option.some.inj hs ▸ idle rfl h.removed hobj
  next => exact Option.some.inj hs ▸ idle rfl h.removed (fun c hc => absurd hc List.not_mem_nil)

end Covered

/-- **No row dangles after a cycle**, where candidates and URLs agree: every
uploaded row that a completed cycle leaves has its object. -/
theorem no_dangling_after_cycle {d : Rpc.Deployment} {cfg : Config} {s₀ s s' : State} {as : List Action} {a : Action}
    (hidle : s₀.cycle = .idle) (hcalls : s₀.server.calls = [])
    (hremoved : ∀ n ∈ s₀.uploaded, s₀.hasObject n = false → n.url ∈ s₀.removed)
    (hal : Lts.Along (step d cfg) (Agrees cfg) s₀ (as ++ [a])) (hrun : Lts.exec (step d cfg) s₀ as = some s)
    (hs : step d cfg s a = some s') (hc : completes cfg s a = true) : ∀ n ∈ s'.uploaded, s'.hasObject n = true := by
  have hinit : Covered s₀ := .idle hidle hremoved (by simp [hcalls])
  have hstep : ∀ s a s', Covered s → Agrees cfg s a → step d cfg s a = some s' → Covered s' :=
    fun s a s' h hg hs => h.step hg hs
  obtain ⟨hal, hlast⟩ := hal.append
  exact (Lts.exec_inv hstep hinit hal hrun).completed (hlast s hrun).1 hs hc

/-- The upload of a NAR of one byte. -/
def uploadAt (path url : String) : UpsertNarInfo :=
  { storePath := path, narHash := "sha256:h", narSize := 1, fileHash := some "sha256:f", url := url }

/-- Two paths have been uploaded, the second a hundred days after the first. -/
def twoPaths (url : String) : State where
  server :=
    { now := 100 * 86400
      objects := fun _ => some ⟨[], Nat.zero_le _⟩
      narinfos := (Db.empty.upsert 0 (uploadAt "/nix/store/a" "nar/a.nar")).upsert (100 * 86400)
        (uploadAt "/nix/store/b" url) }

/-- What is unused for a month goes. -/
def monthly : Config := { maxAgeDays := some 30 }

def firstCycle : List Action := [.list, .deleteObject ⟨"/nix/store/a", "nar/a.nar", 1⟩ .deleted]

theorem no_dangling_after_first_cycle :
    ∃ s ∈ Lts.exec (step Rpc.smallDeployment monthly) (twoPaths "nar/b.nar") firstCycle,
      ∃ s' ∈ step Rpc.smallDeployment monthly s .deleteRows, ∀ n ∈ s'.uploaded, s'.hasObject n = true := by
  have hal : Lts.Along (step Rpc.smallDeployment monthly) (Agrees monthly) (twoPaths "nar/b.nar")
      (firstCycle ++ [.deleteRows]) := by decide +kernel
  have hrun : ∃ s ∈ Lts.exec (step Rpc.smallDeployment monthly) (twoPaths "nar/b.nar") firstCycle,
      ∃ s' ∈ step Rpc.smallDeployment monthly s .deleteRows, completes monthly s .deleteRows = true := by decide +kernel
  obtain ⟨s, hs, s', hs', hc⟩ := hrun
  exact ⟨s, hs, s', hs', no_dangling_after_cycle rfl rfl (by decide) hal hs hs' hc⟩

/-- Two paths can have one NAR, and so one object. The cycle deletes it for the
path that is not used any more, and leaves the row of the other. After a crash
it is the path itself: its object is gone, it is fetched, and the next cycle
does not list it. -/
theorem dangling_after_cycle :
    (∃ s ∈ Lts.exec (step Rpc.smallDeployment monthly) (twoPaths "nar/a.nar") (firstCycle ++ [.deleteRows]),
      ∃ n ∈ s.uploaded, n.storePath = "/nix/store/b" ∧ s.hasObject n = false) ∧
    ∃ s ∈ Lts.exec (step Rpc.smallDeployment monthly) (twoPaths "nar/b.nar")
        (firstCycle ++ [.crash, .touch "/nix/store/a"]), completes monthly s .list = true ∧
      ∃ s' ∈ step Rpc.smallDeployment monthly s .list,
        ∃ n ∈ s'.uploaded, n.storePath = "/nix/store/a" ∧ s'.hasObject n = false := by
  decide +kernel

end Circus.Cache.Gc
