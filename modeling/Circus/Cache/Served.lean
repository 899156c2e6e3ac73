/-
# From a narinfo to its NAR, and back

Two results about the routes of `Routes.lean`. A narinfo from a persisted row
has a URL that leads to its NAR exactly if the rows with this URL are as they
should be (`Linked`, `served_narinfo_leads_to_nar`). A NAR that is served for a
row has a narinfo exactly if the narinfo route accepts the row's signature, or
has another source for the path (`Acceptable`, `narinfo_of_served_nar`). Both
rest on what the NAR route answers at all (`Serves`).
-/
import Circus.Cache.Routes

namespace Circus.Cache

open Nix Rpc
open Evaluator.Webhooks (stripPrefix_append eq_append_of_stripPrefix)

/-! ### What the NAR route answers -/

/-- What is answered for a name and a hash, other than not-found. -/
inductive Site.Serves (site : Site) : String → Option String → NarResponse → Prop
  | object {name : String} {query : Option String} {n : NarInfo} {presignGet : String → String}
    (valid : isValidNarObjectName name = true) (newest : site.db.getByUrl ("nar/" ++ name) site.scope = some n)
    (signed : narinfoHasSignature n.toUpsertNarInfo = true) (presigner : site.presigner = some presignGet) :
    site.Serves name query (.redirect n (presignGet n.url))
  | row {narHash outputHash : String} {n : NarInfo} (absent : redirectUploadedNar site (narHash ++ ".nar") = none)
    (valid : isValidNarObjectName (narHash ++ ".nar") = true) (hash : isValidHash outputHash = true)
    (newest : site.db.getByUrl ("nar/" ++ (narHash ++ ".nar") ++ "?hash=" ++ outputHash) site.scope = some n)
    (same : persistedLocalNarRowMatches n.toUpsertNarInfo outputHash narHash = true)
    (onDisk : (site.storeNar n.storePath).isSome = true) : site.Serves (narHash ++ ".nar") (some outputHash) (.row n)
  | path {narHash : String} {query : Option String} {info : ValidPathInfo}
    (absent : redirectUploadedNar site (narHash ++ ".nar") = none) (hash : isValidHash (query.getD narHash) = true)
    (noRow : ∀ outputHash ∈ query, servePersistedLocalNar site (narHash ++ ".nar") outputHash narHash = none)
    (servable : site.servablePath (query.getD narHash) = some info)
    (same : query.isSome = true → narHash = encodeSha256 info.narHash) :
    site.Serves (narHash ++ ".nar") query (.path info)

variable {site : Site} {name : String} {query : Option String} {r : NarResponse}

theorem serves_of_redirect
    (h : redirectUploadedNar site name = some r) (hr : r ≠ .notFound) : site.Serves name query r := by
  unfold redirectUploadedNar at h
  split_ifs at h with hname
  obtain ⟨n, hn, rfl⟩ := Option.map_eq_some_iff.mp h
  split_ifs at hr ⊢ with hs
  · cases hp : site.presigner with
    | none =>
      rw [hp] at hr
      exact absurd rfl hr
    | some => exact .object hname hn hs hp
  · exact absurd rfl hr

theorem serves_of_local {narHash outputHash : String}
    (habsent : redirectUploadedNar site (narHash ++ ".nar") = none) (hh : isValidHash outputHash = true)
    (h : servePersistedLocalNar site (narHash ++ ".nar") outputHash narHash = some r) (hr : r ≠ .notFound) :
    site.Serves (narHash ++ ".nar") (some outputHash) r := by
  unfold servePersistedLocalNar at h
  split_ifs at h with hname
  obtain ⟨n, hn, rfl⟩ := Option.map_eq_some_iff.mp h
  split_ifs at hr ⊢ with hm hd
  · exact .row habsent hname hh hn hm hd
  · exact absurd rfl hr
  · exact absurd rfl hr

/-- Every answer is one of these. -/
theorem serves_of_serveNar (h : serveNarForSettings site name query ≠ .notFound) :
    site.enabled = true ∧ site.Serves name query (serveNarForSettings site name query) := by
  unfold serveNarForSettings at h ⊢
  split_ifs at h ⊢ with he
  · exact absurd rfl h
  · refine ⟨by simpa using he, ?_⟩
    split at h
    next r hr => exact serves_of_redirect hr h
    next habsent =>
      split at h
      next => exact absurd rfl h
      next narHash hs =>
        obtain rfl := eq_append_of_stripSuffix hs
        dsimp only at h ⊢
        split_ifs at h ⊢ with hh
        · exact absurd rfl h
        · have hh : isValidHash (query.getD narHash) = true := by simpa using hh
          split at h
          next r hr =>
            obtain ⟨outputHash, rfl, hr⟩ := Option.bind_eq_some_iff.mp hr
            exact serves_of_local habsent hh hr h
          next hnone =>
            unfold Site.localNar at h ⊢
            split at h
            next => exact absurd rfl h
            next info hi =>
              split_ifs at h ⊢ with hq
              · exact absurd rfl h
              · refine .path habsent hh (fun o ho => ?_) hi fun hsome => ?_
                · rw [Option.mem_def.mp ho] at hnone
                  exact hnone
                · simpa [hsome] using hq

theorem serveNar_of_serves
    (he : site.enabled = true) (h : site.Serves name query r) : serveNarForSettings site name query = r := by
  cases h with
  | object hname hn hs hp =>
    have hr := redirectUploadedNar_object hname hn hs hp
    simp [serveNarForSettings, he, hr]
  | row habsent hname hh hn hm hd =>
    have hl := servePersistedLocalNar_row hname hn hm hd
    simp [serveNarForSettings, he, habsent, stripSuffix_append, hh, hl]
  | @path narHash query info habsent hh hnone hi hsame =>
    have hnone : (query.bind fun o => servePersistedLocalNar site (narHash ++ ".nar") o narHash) = none := by
      cases query with
      | none => rfl
      | some o => exact hnone o rfl
    simpa [serveNarForSettings, he, habsent, stripSuffix_append, hh, hnone, Site.localNar, hi] using hsame

/-! ### From a narinfo to its NAR -/

/-- The narinfo that is answered is the one of a persisted row in the scope. -/
structure Site.Answers (site : Site) (request : String) (n : NarInfo) : Prop where
  mem : n ∈ site.db.narinfos.rows
  visible : site.db.isVisible site.scope n = true
  answer : narinfoForSettings site request = .row n ∨
    narinfoForSettings site request = .remembered (renderNarinfoRow n.toUpsertNarInfo)

/-- The URLs of narinfos: the key of an object, and `nar_url_for_path`, for the
NAR of a path on disk. -/
inductive NarUrl
  | object (name : String)
  | path (narHash outputHash : String)

def NarUrl.text : NarUrl → String
  | object name => "nar/" ++ name
  | path narHash outputHash => "nar/" ++ (narHash ++ ".nar") ++ "?hash=" ++ outputHash

/-- The NAR of the row is there, in the object store or on disk. -/
def Site.NarPresent (site : Site) (n : NarInfo) : NarUrl → Prop
  | .object name => '?' ∉ name.toList ∧ site.objectNar n.url n.compression = some n.narHash
  | .path narHash outputHash => isValidNarObjectName (narHash ++ ".nar") = true ∧ isValidHash outputHash = true ∧
      narinfoRowUsesLocalNarRoute n.toUpsertNarInfo = true ∧ site.storeNar n.storePath = some n.narHash

/-- An object or a path, where there is one, has the NAR that its row says. -/
structure Site.Honest (site : Site) : Prop where
  stored : ∀ n ∈ site.db.narinfos.rows, narinfoRowUsesLocalNarRoute n.toUpsertNarInfo = false →
    ∀ compression, ∀ h ∈ site.objectNar n.url compression, compression = n.compression ∧ h = n.narHash
  onDisk : ∀ n ∈ site.db.narinfos.rows, narinfoRowUsesLocalNarRoute n.toUpsertNarInfo = true →
    ∀ h ∈ site.storeNar n.storePath, h = n.narHash

/-- What is answered is the NAR that the narinfo names. -/
def NarResponse.IsNarOf (site : Site) (n : NarInfo) : NarResponse → Prop
  | .notFound => False
  | .redirect n' location =>
    (∃ presignGet ∈ site.presigner, location = presignGet n'.url) ∧
      site.objectNar n'.url n.compression = some n.narHash
  | .row n' => site.storeNar n'.storePath = some n.narHash
  | .path info => site.storeNar info.path = some n.narHash

/-- The rows with the URL of `n` lead to its NAR. For an object the newest is
signed, and there is a presigner. For a path, no row has the name without the
output hash, the name is that of the row's NAR, and the newest row with the URL
is signed, not compressed, of a path with the output hash that is on disk, and
names the same NAR; or the newest row with the name alone is signed, has the
same NAR and compression, its object is there and there is a presigner. -/
def Site.Linked (site : Site) (n : NarInfo) : NarUrl → Prop
  | .object name => isValidNarObjectName name = true ∧ site.presigner.isSome = true ∧
      ∃ n' ∈ site.db.getByUrl n.url site.scope, narinfoHasSignature n'.toUpsertNarInfo = true
  | .path narHash outputHash =>
    match site.db.getByUrl ("nar/" ++ (narHash ++ ".nar")) site.scope with
    | none => n.narHash = "sha256:" ++ narHash ∧ ∃ n' ∈ site.db.getByUrl n.url site.scope,
        narinfoHasSignature n'.toUpsertNarInfo = true ∧ n'.compression = "none" ∧
          storePathHashPart n'.storePath = some outputHash ∧ n'.narHash = n.narHash ∧
          (site.storeNar n'.storePath).isSome = true
    | some n' => narinfoHasSignature n'.toUpsertNarInfo = true ∧ n'.compression = n.compression ∧
        n'.narHash = n.narHash ∧ (site.objectNar n'.url n'.compression).isSome = true ∧ site.presigner.isSome = true

variable {n : NarInfo}

theorem enabled_of_answers {request : String} (h : site.Answers request n) : site.enabled = true := by
  refine Bool.eq_true_of_not_eq_false fun he => ?_
  have hnot : narinfoForSettings site request = .notFound := by
    unfold narinfoForSettings
    rw [he]
    rfl
  have hanswer := h.answer
  rw [hnot] at hanswer
  rcases hanswer with h | h <;> cases h

theorem serves_of_isNarOf (h : (serveNarForSettings site name query).IsNarOf site n) :
    site.Serves name query (serveNarForSettings site name query) := by
  refine (serves_of_serveNar fun heq => ?_).2
  rw [heq] at h
  exact h

/-- The route of a row is told by its compression and its URL. -/
theorem usesLocalNarRoute_of_url {n n' : UpsertNarInfo} (h : narinfoRowUsesLocalNarRoute n = true)
    (hc : n'.compression = "none") (hu : n'.url = n.url) : narinfoRowUsesLocalNarRoute n' = true := by
  unfold narinfoRowUsesLocalNarRoute at h ⊢
  rw [Bool.and_eq_true] at h ⊢
  exact ⟨decide_eq_true hc, hu ▸ h.2⟩

/-- The key of an object: the row itself has it, so that no path is served. -/
theorem isNarOf_object_iff (he : site.enabled = true) (hn : n ∈ site.db.narinfos.rows)
    (hv : site.db.isVisible site.scope n = true) (hu : n.url = "nar/" ++ name)
    (ho : site.objectNar n.url n.compression = some n.narHash) :
    (serveNarForSettings site name none).IsNarOf site n ↔ site.Linked n (.object name) := by
  constructor
  · intro h
    have hs := serves_of_isNarOf h
    generalize serveNarForSettings site name none = r at h hs
    cases hs with
    | object hname hn' hs hp => exact ⟨hname, Option.isSome_iff_exists.mpr ⟨_, hp⟩, _, hu ▸ hn', hs⟩
    | path habsent hh =>
      obtain ⟨n', hn'⟩ := Db.exists_getByUrl hn hu hv
      cases hn'.symm.trans (redirectUploadedNar_eq_none.mp habsent (isValidNarObjectName_of_isValidHash hh))
  · rintro ⟨hname, hp, n', hn', hs⟩
    obtain ⟨presignGet, hp⟩ := Option.isSome_iff_exists.mp hp
    rw [serveNar_of_serves he (.object hname (hu ▸ hn') hs hp)]
    refine ⟨⟨presignGet, hp, rfl⟩, ?_⟩
    rw [(Db.mem_of_getByUrl hn').2.1]
    exact ho

variable {narHash outputHash : String}

/-- The URL of a path: an object with the name comes first. -/
theorem isNarOf_path_of_object {n' : NarInfo} (he : site.enabled = true) (hh : site.Honest)
    (hname : isValidNarObjectName (narHash ++ ".nar") = true)
    (hobj : site.db.getByUrl ("nar/" ++ (narHash ++ ".nar")) site.scope = some n') :
    (serveNarForSettings site (narHash ++ ".nar") (some outputHash)).IsNarOf site n ↔
      site.Linked n (.path narHash outputHash) := by
  simp only [Site.Linked, hobj]
  obtain ⟨hn', hu', -⟩ := Db.mem_of_getByUrl hobj
  have hplain : narinfoRowUsesLocalNarRoute n'.toUpsertNarInfo = false := by
    refine Bool.eq_false_iff.mpr fun hl => ?_
    have hq := mem_of_usesLocalNarRoute hl
    rw [hu', String.toList_append, List.mem_append] at hq
    exact hq.elim (by decide) (notMem_of_isValidNarObjectName hname)
  have hsome : redirectUploadedNar site (narHash ++ ".nar") ≠ none := fun hnone => by
    cases hobj.symm.trans (redirectUploadedNar_eq_none.mp hnone hname)
  constructor
  · intro h
    have hs := serves_of_isNarOf h
    generalize serveNarForSettings site (narHash ++ ".nar") (some outputHash) = r at h hs
    generalize narHash ++ ".nar" = object at hobj hsome hs
    cases hs with
    | object _ hnewest hs hp =>
      cases hobj.symm.trans hnewest
      obtain ⟨hc, hnar⟩ := hh.stored n' hn' hplain _ _ h.2
      exact ⟨hs, hc.symm, hnar.symm, by rw [← hc, h.2]; rfl, Option.isSome_iff_exists.mpr ⟨_, hp⟩⟩
    | row habsent | path habsent => exact absurd habsent hsome
  · rintro ⟨hs, hc, hnar, ho, hp⟩
    obtain ⟨presignGet, hp⟩ := Option.isSome_iff_exists.mp hp
    obtain ⟨h, ho⟩ := Option.isSome_iff_exists.mp ho
    rw [serveNar_of_serves he (.object hname hobj hs hp)]
    refine ⟨⟨presignGet, hp, rfl⟩, ?_⟩
    rw [← hc, ho, (hh.stored n' hn' hplain _ _ ho).2, hnar]

/-- Then comes the newest row with the URL, and no path is served, as the row itself has the URL. -/
theorem isNarOf_path_of_row (he : site.enabled = true) (hh : site.Honest) (hn : n ∈ site.db.narinfos.rows)
    (hv : site.db.isVisible site.scope n = true)
    (hu : n.url = "nar/" ++ (narHash ++ ".nar") ++ "?hash=" ++ outputHash)
    (hp : site.NarPresent n (.path narHash outputHash))
    (hobj : site.db.getByUrl ("nar/" ++ (narHash ++ ".nar")) site.scope = none) :
    (serveNarForSettings site (narHash ++ ".nar") (some outputHash)).IsNarOf site n ↔
      site.Linked n (.path narHash outputHash) := by
  obtain ⟨hname, hhash, hroute, -⟩ := hp
  simp only [Site.Linked, hobj]
  have habsent : redirectUploadedNar site (narHash ++ ".nar") = none :=
    redirectUploadedNar_eq_none.mpr fun _ => hobj
  constructor
  · intro h
    have hs := serves_of_isNarOf h
    generalize serveNarForSettings site (narHash ++ ".nar") (some outputHash) = r at h hs
    generalize hobject : narHash ++ ".nar" = object at hs
    cases hs with
    | object _ hnewest => cases hobj.symm.trans (hobject ▸ hnewest)
    | @row narHash' _ n' _ _ _ hnewest hm hd =>
      obtain rfl : narHash = narHash' := by
        have := congrArg (stripSuffix ".nar") hobject
        rw [stripSuffix_append, stripSuffix_append] at this
        exact Option.some.inj this
      rw [← hu] at hnewest
      obtain ⟨hn', hu', -⟩ := Db.mem_of_getByUrl hnewest
      simp only [persistedLocalNarRowMatches, Bool.and_eq_true, decide_eq_true_eq] at hm
      obtain ⟨⟨⟨hsigned, hc⟩, hpart⟩, hnar⟩ := hm
      have heq : n.narHash = n'.narHash := hh.onDisk n' hn' (usesLocalNarRoute_of_url hroute hc hu') _ h
      exact ⟨heq.trans (eq_append_of_stripPrefix hnar), n', hnewest, hsigned, hc, hpart, heq.symm, hd⟩
    | path _ _ hnone =>
      obtain ⟨n', hn'⟩ := Db.exists_getByUrl hn hu hv
      have := servePersistedLocalNar_eq_none.mp (hnone outputHash rfl) (hobject ▸ hname)
      rw [← hobject] at this
      cases hn'.symm.trans this
  · rintro ⟨hnamed, n', hnewest, hsigned, hc, hpart, hnar, hd⟩
    obtain ⟨hn', hu', -⟩ := Db.mem_of_getByUrl hnewest
    have hm : persistedLocalNarRowMatches n'.toUpsertNarInfo outputHash narHash = true := by
      rw [persistedLocalNarRowMatches, hsigned, hnar, hnamed, stripPrefix_append]
      simp [hc, hpart]
    have hserves : site.Serves (narHash ++ ".nar") (some outputHash) (.row n') :=
      .row habsent hname hhash (hu ▸ hnewest) hm hd
    obtain ⟨h, hstore⟩ := Option.isSome_iff_exists.mp hd
    rw [serveNar_of_serves he hserves]
    change site.storeNar n'.storePath = some n.narHash
    rw [hstore, hh.onDisk n' hn' (usesLocalNarRoute_of_url hroute hc hu') _ hstore, hnar]

/-- The upload of a NAR, for a name in the store. -/
def uploadFor (name : String) (sig : Option String) : UpsertNarInfo where
  storePath := "/nix/store/" ++ name
  narHash := "sha256:h"
  narSize := 1
  compression := "zstd"
  url := "nar/h.nar.zst"
  sig := sig

/-- Two paths have the same NAR; the second is uploaded later, with this signature. -/
def twoUploads (sig : Option String) : Site where
  db := (Db.empty.upsert 0 (uploadFor "00000000000000000000000000000000-a" (some "k"))).upsert 1
    (uploadFor "11111111111111111111111111111111-b" sig)
  presigner := some id
  objectNar _ compression := if compression = "zstd" then some "sha256:h" else none

def firstRow : NarInfo := Db.upsertRow 0 none (uploadFor "00000000000000000000000000000000-a" (some "k"))

/-- The path of a local NAR. -/
def localRow : NarInfo := Db.upsertRow 0 none
  { storePath := "/nix/store/00000000000000000000000000000000-a", narHash := "sha256:h", narSize := 1,
    url := "nar/" ++ ("h" ++ ".nar") ++ "?hash=" ++ "00000000000000000000000000000000", sig := some "k" }

/-- A cache with a local NAR. -/
def localSite : Site where
  db := Db.empty.upsert 0 localRow.toUpsertNarInfo
  nixStoreDb := some [{ path := localRow.storePath, narHash := fun _ => 0 }]
  storeNar _ := some "sha256:h"

theorem honest_twoUploads (sig : Option String) : (twoUploads sig).Honest := by
  have hrows : ∀ n ∈ (twoUploads sig).db.narinfos.rows, n.compression = "zstd" ∧ n.narHash = "sha256:h" := by
    intro n hn
    rcases Table.mem_upsert.mp hn with rfl | ⟨hn, -⟩
    · exact ⟨rfl, rfl⟩
    · rcases Table.mem_upsert.mp hn with rfl | ⟨hn, -⟩
      · exact ⟨rfl, rfl⟩
      · exact absurd hn List.not_mem_nil
  refine ⟨fun n hn _ compression h hh => ?_, fun _ _ _ _ hh => by cases hh⟩
  obtain ⟨hc, hnar⟩ := hrows n hn
  obtain ⟨rfl, rfl⟩ : compression = "zstd" ∧ "sha256:h" = h := by simpa [twoUploads] using hh
  exact ⟨hc.symm, hnar.symm⟩

theorem honest_localSite : localSite.Honest := by
  refine ⟨fun _ _ _ _ _ hh => (by cases hh), fun n hn _ h hh => ?_⟩
  rcases Table.mem_upsert.mp hn with rfl | ⟨hn, -⟩
  · exact (Option.some.inj hh).symm
  · exact absurd hn List.not_mem_nil

theorem answers_firstRow : (twoUploads (some "k")).Answers "00000000000000000000000000000000.narinfo" firstRow ∧
    (twoUploads none).Answers "00000000000000000000000000000000.narinfo" firstRow :=
  ⟨⟨by decide +kernel, rfl, .inl (by decide +kernel)⟩, ⟨by decide +kernel, rfl, .inl (by decide +kernel)⟩⟩

def NarResponse.IsOfRow (n : NarInfo) : NarResponse → Prop
  | .redirect n' _ => n' = n
  | .row n' => n' = n
  | _ => False

/-- What the NAR route knows of a row whose NAR it serves. -/
structure Site.ServedRow (site : Site) (n : NarInfo) : Prop where
  mem : n ∈ site.db.narinfos.rows
  visible : site.db.isVisible site.scope n = true
  signed : narinfoHasSignature n.toUpsertNarInfo = true

theorem servedRow_of_serves (h : site.Serves name query r) (hr : r.IsOfRow n) : site.ServedRow n := by
  cases h with
  | object hname hn hs =>
    obtain rfl := hr
    exact ⟨(Db.mem_of_getByUrl hn).1, (Db.mem_of_getByUrl hn).2.2, hs⟩
  | row habsent hname hh hn hm =>
    obtain rfl := hr
    simp only [persistedLocalNarRowMatches, Bool.and_eq_true] at hm
    exact ⟨(Db.mem_of_getByUrl hn).1, (Db.mem_of_getByUrl hn).2.2, hm.1.1.1⟩
  | path => exact hr.elim

theorem servedRow_of_serveNar
    (h : (serveNarForSettings site name query).IsOfRow n) : site.enabled = true ∧ site.ServedRow n := by
  have hne : serveNarForSettings site name query ≠ .notFound := fun heq => by
    rw [heq] at h
    exact h
  obtain ⟨he, hs⟩ := serves_of_serveNar hne
  exact ⟨he, servedRow_of_serves hs h⟩

variable {hash : String}

theorem narinfoForSettings_ne_notFound (he : site.enabled = true) :
    narinfoForSettings site (hash ++ ".narinfo") ≠ .notFound ↔ isValidHash hash = true ∧
      ((site.remembered hash).isSome = true ∨ (site.servablePath hash).isSome = true ∨
        ∃ n' ∈ site.db.getByHashPart hash site.scope, persistedRowIsTrusted site.publicKey n'.toUpsertNarInfo = true ∧
          narinfoRowUsesLocalNarRoute n'.toUpsertNarInfo = false) := by
  have hlocal : site.localNarinfo hash ≠ .notFound ↔ (site.servablePath hash).isSome = true := by
    unfold Site.localNarinfo
    cases site.servablePath hash <;> simp
  unfold narinfoForSettings
  rw [stripSuffix_append, Option.getD_some]
  cases hh : isValidHash hash with
  | false => simp [he, hh]
  | true =>
    cases hm : site.remembered hash with
    | some => simp [he, hh, hm]
    | none =>
      cases hg : site.db.getByHashPart hash site.scope with
      | none => simpa [he, hh, hm, hg] using hlocal
      | some n' =>
        cases ht : persistedRowIsTrusted site.publicKey n'.toUpsertNarInfo with
        | false => simpa [he, hh, hm, hg, ht] using hlocal
        | true =>
          -- a trusted row is answered, unless its NAR is local and its path may not be served
          cases hs : site.servablePath hash <;> cases hl : narinfoRowUsesLocalNarRoute n'.toUpsertNarInfo <;>
            simp [he, hh, hm, hg, ht, hs, hl]

/-- Of the checks on the row of a path that may be served, the NAR route leaves the key to be asked. -/
theorem hasSignedPersistedNarinfo_iff (h : site.ServedRow n) : site.hasSignedPersistedNarinfo n.storePath = true ↔
    ∀ key ∈ site.publicKey, narinfoSignatureVerifies key n.toUpsertNarInfo = true := by
  have hget : site.db.narinfos.get n.storePath = some n := Table.get_of_mem h.mem
  have hspaces : (n.sig.any fun sig => !sig.toList.all fun c => decide (c = ' ')) = true := by
    obtain ⟨sig, hsig, hne⟩ := (Option.any_eq_true _ _).mp h.signed
    rw [hsig, Option.any_some]
    refine Bool.not_eq_true' _ ▸ Bool.eq_false_iff.mpr fun hall => ?_
    have hblank : sig.toList.all isWhitespace = true := List.all_eq_true.mpr fun c hc => by
      have hc' := List.all_eq_true.mp hall c hc
      rw [of_decide_eq_true hc']
      decide
    simp [hblank] at hne
  have hrow : site.signedPersistedNarinfo n.storePath = some n := by
    rw [Site.signedPersistedNarinfo, hget, Option.filter_some_pos (by rw [hspaces, h.visible]; rfl)]
  rw [Site.hasSignedPersistedNarinfo, hrow, Option.any_some]
  exact Option.all_eq_true _ _

theorem persistedRowIsTrusted_iff (h : site.ServedRow n) :
    persistedRowIsTrusted site.publicKey n.toUpsertNarInfo = true ↔
    ∀ key ∈ site.publicKey, narinfoSignatureVerifies key n.toUpsertNarInfo = true := by
  unfold persistedRowIsTrusted
  cases site.publicKey with
  | none => simp [h.signed]
  | some => simp

/-- `hash` is the hash part of the row's path, and of no other path. -/
structure Site.IsHashPart (site : Site) (n : NarInfo) (hash : String) : Prop where
  valid : isValidHash hash = true
  row : Db.hasHashPart hash n = true
  rows : ∀ n' ∈ site.db.narinfos.rows, Db.hasHashPart hash n' = true → n' = n
  paths : ∀ paths ∈ site.nixStoreDb, ∀ info ∈ queryBinaryCachePathInfo paths hash, info.path = n.storePath

/-- The path may be served whatever rows there are: it is a derivation of
Circus, a product that is addressed by its content or referred to by a
derivation, or a product with signatures. -/
def Site.OfCircus (site : Site) (paths : List ValidPathInfo) (info : ValidPathInfo) : Prop :=
  hasExtension "drv" info.path.toList = true ∧ site.hasCircusDerivationPath info.path = true ∨
    if info.ca.isSome then
      site.hasCircusBuildProduct info.path = true ∨ site.hasCircusDerivationDirectReference paths info.path = true
    else info.signatures ≠ [] ∧ site.hasCircusSignedBuildProduct info.path = true

/-- What is missing for the narinfo of a row whose NAR is served: there is one in
memory; or the signature is one of the key, if one is loaded, and the local Nix
database has the path, if its NAR is local; or the database has the path, and it
may be served without the row. -/
def Site.Acceptable (site : Site) (n : NarInfo) (hash : String) : Prop :=
  (site.remembered hash).isSome = true ∨
    ((∀ key ∈ site.publicKey, narinfoSignatureVerifies key n.toUpsertNarInfo = true) ∧
      (narinfoRowUsesLocalNarRoute n.toUpsertNarInfo = true →
        ∃ paths ∈ site.nixStoreDb, (queryBinaryCachePathInfo paths hash).isSome = true)) ∨
    ∃ paths ∈ site.nixStoreDb, ∃ info ∈ queryBinaryCachePathInfo paths hash, site.OfCircus paths info

theorem isServableBinaryCachePath_iff {paths : List ValidPathInfo} {info : ValidPathInfo} :
    site.isServableBinaryCachePath paths info = true ↔
      site.hasSignedPersistedNarinfo info.path = true ∨ site.OfCircus paths info := by
  unfold Site.isServableBinaryCachePath Site.OfCircus
  split_ifs with h1 h2 h3 h4 <;> simp_all

/-- The row is found by its hash part. -/
theorem getByHashPart_of_servedRow (h : site.ServedRow n) (hi : site.IsHashPart n hash) :
    site.db.getByHashPart hash site.scope = some n := by
  cases hg : site.db.getByHashPart hash site.scope with
  | some n' =>
    obtain ⟨hn', hpart, -⟩ := Db.mem_of_getByHashPart hg
    rw [hi.rows n' hn' hpart]
  | none =>
    have hm : n ∈ site.db.narinfos.select fun n => Db.hasHashPart hash n && site.db.isVisible site.scope n :=
      List.mem_filter.mpr ⟨h.mem, by rw [hi.row, h.visible]; rfl⟩
    rw [Db.newest_eq_none.mp hg] at hm
    cases hm

/-- **The NAR route trusts no more than the narinfo route**: where it serves the
NAR of a row, there is a narinfo for the path exactly if the row, or another
source, passes the checks that the NAR route leaves out. -/
theorem narinfo_of_served_nar {site : Site} {name hash : String} {query : Option String} {n : NarInfo}
    (h : (serveNarForSettings site name query).IsOfRow n) (hi : site.IsHashPart n hash) :
    narinfoForSettings site (hash ++ ".narinfo") ≠ .notFound ↔ site.Acceptable n hash := by
  obtain ⟨he, hs⟩ := servedRow_of_serveNar h
  have hpath : (site.servablePath hash).isSome = true ↔ ∃ paths ∈ site.nixStoreDb,
      ∃ info ∈ queryBinaryCachePathInfo paths hash,
        (∀ key ∈ site.publicKey, narinfoSignatureVerifies key n.toUpsertNarInfo = true) ∨ site.OfCircus paths info := by
    have hsome : (site.servablePath hash).isSome = true ↔ ∃ paths ∈ site.nixStoreDb,
        ∃ info ∈ queryBinaryCachePathInfo paths hash, site.isServableBinaryCachePath paths info = true := by
      simp only [Site.servablePath, Option.isSome_iff_exists, Option.bind_eq_some_iff, Option.filter_eq_some_iff]
      exact ⟨fun ⟨info, paths, hdb, hq⟩ => ⟨paths, hdb, info, hq⟩, fun ⟨paths, hdb, info, hq⟩ => ⟨info, paths, hdb, hq⟩⟩
    rw [hsome]
    refine exists_congr fun paths => and_congr_right fun hdb => exists_congr fun info => and_congr_right fun hq => ?_
    rw [isServableBinaryCachePath_iff, hi.paths paths hdb info hq, hasSignedPersistedNarinfo_iff hs]
  have hrow : (∃ n' ∈ some n, persistedRowIsTrusted site.publicKey n'.toUpsertNarInfo = true ∧
      narinfoRowUsesLocalNarRoute n'.toUpsertNarInfo = false) ↔
      (∀ key ∈ site.publicKey, narinfoSignatureVerifies key n.toUpsertNarInfo = true) ∧
        narinfoRowUsesLocalNarRoute n.toUpsertNarInfo = false := by
    simp [persistedRowIsTrusted_iff hs]
  rw [narinfoForSettings_ne_notFound he, and_iff_right hi.valid, getByHashPart_of_servedRow hs hi, hpath, hrow]
  refine or_congr_right ⟨?_, ?_⟩
  · rintro (⟨paths, hdb, info, hq, hkey | hcircus⟩ | ⟨hkey, hplain⟩)
    · exact .inl ⟨hkey, fun _ => ⟨paths, hdb, Option.isSome_iff_exists.mpr ⟨info, hq⟩⟩⟩
    · exact .inr ⟨paths, hdb, info, hq, hcircus⟩
    · exact .inl ⟨hkey, fun hl => absurd (hplain.symm.trans hl) Bool.false_ne_true⟩
  · rintro (⟨hkey, hlocal⟩ | ⟨paths, hdb, info, hq, hcircus⟩)
    · cases hl : narinfoRowUsesLocalNarRoute n.toUpsertNarInfo with
      | false => exact .inr ⟨hkey, rfl⟩
      | true =>
        obtain ⟨paths, hdb, hq⟩ := hlocal hl
        obtain ⟨info, hq⟩ := Option.isSome_iff_exists.mp hq
        exact .inl ⟨paths, hdb, info, hq, .inl hkey⟩
    · exact .inl ⟨paths, hdb, info, hq, .inr hcircus⟩

/-- `twoUploads` with a key that accepts the signature `k` only. -/
def keyedUploads (sig : String) : Site := { twoUploads (some sig) with publicKey := some fun _ s => decide (s = "k") }

def secondRow (sig : String) : NarInfo :=
  Db.upsertRow 1 none (uploadFor "11111111111111111111111111111111-b" (some sig))

theorem narinfo_of_served_nar_signed :
    (serveNarForSettings (keyedUploads "k") "h.nar.zst" none).IsOfRow (secondRow "k") ∧
      narinfoForSettings (keyedUploads "k") ("11111111111111111111111111111111" ++ ".narinfo") ≠ .notFound := by
  have hserve : serveNarForSettings (keyedUploads "k") "h.nar.zst" none =
      .redirect (secondRow "k") "nar/h.nar.zst" := by
    decide +kernel
  have h : (serveNarForSettings (keyedUploads "k") "h.nar.zst" none).IsOfRow (secondRow "k") := by
    rw [hserve]
    rfl
  have hlocal : narinfoRowUsesLocalNarRoute (secondRow "k").toUpsertNarInfo = false := by decide +kernel
  have hi : (keyedUploads "k").IsHashPart (secondRow "k") "11111111111111111111111111111111" :=
    ⟨by decide +kernel, by decide +kernel, by decide +kernel, nofun⟩
  refine ⟨h, (narinfo_of_served_nar h hi).mpr (.inr (.inl ⟨fun key hk => ?_, fun hl => ?_⟩))⟩
  · rw [← Option.some.inj hk]
    decide +kernel
  · rw [hlocal] at hl
    cases hl

/-- The signature is not one of the key: the NAR is served, the narinfo is not found. -/
theorem served_nar_without_narinfo :
    serveNarForSettings (keyedUploads "x") "h.nar.zst" none = .redirect (secondRow "x") "nar/h.nar.zst" ∧
      narinfoForSettings (keyedUploads "x") ("11111111111111111111111111111111" ++ ".narinfo") = .notFound := by
  decide +kernel

end Circus.Cache
