/-
# The routes of the binary cache

`crates/server/src/routes/cache.rs`: `narinfo_for_settings` answers a store
hash with a narinfo and `serve_nar_for_settings` the URL in it with a NAR. Both
look for a persisted row first and then into the local Nix store. They look by
different keys, the hash part of the path and the URL, each for the newest row
in the scope of the cache, and they check different things: the narinfo route
verifies the signature of its row, the NAR route asks for one to be there.

A `Site` is the state both see, with one cache's settings. The queries that
read builds are predicates of it; what is on disk and in the object store is
known by the hash of its NAR. Rows of the local Nix database are as Nix has
written them, and URLs have no escapes.
-/
import Circus.Cache.Text

namespace Circus.Cache

open Nix Rpc
open Evaluator.Webhooks (stripPrefix stripPrefix_append eq_append_of_stripPrefix)

/-! ### Names and URLs -/

def isWhitespace (c : Char) : Bool :=
  decide (9 ≤ c.toNat ∧ c.toNat ≤ 13 ∨ 0x2000 ≤ c.toNat ∧ c.toNat ≤ 0x200A ∨
    c.toNat ∈ [0x20, 0x85, 0xA0, 0x1680, 0x2028, 0x2029, 0x202F, 0x205F, 0x3000])

def trim (s : String) : String :=
  String.ofList ((s.toList.dropWhile isWhitespace).reverse.dropWhile isWhitespace).reverse

def stripSuffix (tail s : String) : Option String :=
  (tail.toList.reverse.isPrefixOf? s.toList.reverse).map fun l => String.ofList l.reverse

theorem stripSuffix_append (tail s : String) : stripSuffix tail (s ++ tail) = some s := by
  simp [stripSuffix]

theorem eq_append_of_stripSuffix {tail s rest : String} (h : stripSuffix tail s = some rest) : s = rest ++ tail := by
  obtain ⟨l, hl, rfl⟩ := Option.map_eq_some_iff.mp h
  have happ := congrArg List.reverse (List.append_eq_of_isPrefixOf?_eq_some hl)
  rw [← String.toList_inj, String.toList_append, String.toList_ofList]
  simpa using happ.symm

/-- Cut at the first `sep`. -/
def splitFirst (sep : Char) : List Char → Option (List Char × List Char)
  | [] => none
  | c :: rest => if c = sep then some ([], rest) else (splitFirst sep rest).map fun p => (c :: p.1, p.2)

def fileName (path : List Char) : Option (List Char) :=
  ((path.splitOn '/').filter fun part => part ≠ [] ∧ part ≠ ['.']).getLast?.filter fun part => part ≠ ['.', '.']

/-- `Path::file_stem` and `Path::extension`: a name is cut at its last dot, unless it begins with it. -/
def stemAndExtension (name : List Char) : List Char × Option (List Char) :=
  match splitFirst '.' name.reverse with
  | some (ext, stem) => if stem = [] then (name, none) else (stem.reverse, some ext.reverse)
  | none => (name, none)

def eqIgnoreCase (a b : List Char) : Bool := decide (a.map Char.toLower = b.map Char.toLower)

def hasExtension (ext : String) (path : List Char) : Bool :=
  (fileName path).any fun name => (stemAndExtension name).2.any fun e => eqIgnoreCase e ext.toList

def isValidNarObjectName (name : String) : Bool :=
  decide (name ≠ "") && decide (name.utf8ByteSize ≤ 512) && decide (".nar".toList <:+: name.toList) &&
    name.toList.all isKeyChar

def storePathHashPart (path : String) : Option String :=
  (splitFirst '-' (storePathName path).toList).map fun p => String.ofList p.1

/-- The values of `hash` in a query. -/
def hashParams (query : List Char) : List String :=
  (query.splitOn '&').filterMap fun part => stripPrefix "hash=" (String.ofList part)

/-! ### Rows -/

def narinfoHasSignature (n : UpsertNarInfo) : Bool := n.sig.any fun sig => !sig.toList.all isWhitespace

/-- The public key of the cache: whether it accepts a signature of a text. -/
abbrev PublicKey := (text sig : String) → Bool

def narinfoSignatureVerifies (key : PublicKey) (n : UpsertNarInfo) : Bool :=
  n.sig.any fun sig => key (fingerprint n.storePath n.narHash n.narSize n.references) sig

def persistedRowIsTrusted (publicKey : Option PublicKey) (n : UpsertNarInfo) : Bool :=
  match publicKey with
  | none => narinfoHasSignature n
  | some key => narinfoSignatureVerifies key n

def narinfoRowUsesLocalNarRoute (n : UpsertNarInfo) : Bool :=
  decide (n.compression = "none") &&
    (((stripPrefix "nar/" n.url).bind fun path => splitFirst '?' path.toList).any fun p =>
      hasExtension "nar" p.1 && (fileName p.1).any (fun name => decide ((stemAndExtension name).1 ≠ [])) &&
        (hashParams p.2).any isValidHash)

def persistedLocalNarRowMatches (n : UpsertNarInfo) (outputHash narHash : String) : Bool :=
  narinfoHasSignature n && decide (n.compression = "none") &&
    decide (storePathHashPart n.storePath = some outputHash) && decide (stripPrefix "sha256:" n.narHash = some narHash)

/-! ### The state -/

/-- A row of `ValidPaths` in the local Nix database, with its references. -/
structure ValidPathInfo where
  path : String
  narHash : Digest
  references : List String := []
  signatures : List String := []
  ca : Option String := none
  deriving DecidableEq

/-- What the routes of one cache see. -/
structure Site where
  enabled : Bool := true
  /-- The project of a project cache. -/
  scope : Option Uuid := none
  db : Db
  /-- `narinfo_cache`, the narinfos remembered for this scope. -/
  remembered : String → Option String := fun _ => none
  publicKey : Option PublicKey := none
  /-- `presign_get`. -/
  presigner : Option (String → String) := none
  /-- The local Nix database, unless it cannot be opened. -/
  nixStoreDb : Option (List ValidPathInfo) := none
  hasCircusDerivationPath : String → Bool := fun _ => false
  hasCircusDerivationPathAny : List String → Bool := fun _ => false
  hasCircusBuildProduct : String → Bool := fun _ => false
  hasCircusSignedBuildProduct : String → Bool := fun _ => false
  /-- The hash of the NAR of a path on disk. -/
  storeNar : String → Option String := fun _ => none
  /-- The hash of the NAR in an object, for a key and a compression. -/
  objectNar : String → String → Option String := fun _ _ => none

def Site.signedPersistedNarinfo (site : Site) (storePath : String) : Option NarInfo :=
  (site.db.narinfos.get storePath).filter fun n =>
    n.sig.any (fun sig => !sig.toList.all fun c => decide (c = ' ')) && site.db.isVisible site.scope n

def Site.hasSignedPersistedNarinfo (site : Site) (storePath : String) : Bool :=
  (site.signedPersistedNarinfo storePath).any fun n =>
    site.publicKey.all fun key => narinfoSignatureVerifies key n.toUpsertNarInfo

/-- `query_binary_cache_path_info`: the first path from the hash on, if it begins with it. -/
def queryBinaryCachePathInfo (paths : List ValidPathInfo) (hash : String) : Option ValidPathInfo :=
  if isValidHash hash then
    let start := "/nix/store/" ++ hash
    ((paths.filter fun p => decide (start.toList ≤ p.path.toList)).argmin fun p => p.path.toList).filter fun p =>
      (stripPrefix start p.path).isSome
  else none

def Site.hasCircusDerivationDirectReference (site : Site) (paths : List ValidPathInfo) (storePath : String) : Bool :=
  let referrers := (paths.filter fun p =>
    decide (storePath ∈ p.references) && decide (".drv".toList <:+ p.path.toList.map Char.toLower)).map fun p => p.path
  !referrers.isEmpty && site.hasCircusDerivationPathAny referrers

def Site.isServableBinaryCachePath (site : Site) (paths : List ValidPathInfo) (info : ValidPathInfo) : Bool :=
  if site.hasSignedPersistedNarinfo info.path then true
  else if hasExtension "drv" info.path.toList && site.hasCircusDerivationPath info.path then true
  else if info.ca.isSome then
    site.hasCircusBuildProduct info.path || site.hasCircusDerivationDirectReference paths info.path
  else if info.signatures.isEmpty then false
  else site.hasCircusSignedBuildProduct info.path

/-- The path of the local store that may be served for a hash. -/
def Site.servablePath (site : Site) (hash : String) : Option ValidPathInfo :=
  site.nixStoreDb.bind fun paths =>
    (queryBinaryCachePathInfo paths hash).filter fun info => site.isServableBinaryCachePath paths info

/-! ### The routes -/

/-- The answer to a request for a narinfo. -/
inductive NarinfoResponse
  | notFound
  /-- From memory. -/
  | remembered (body : String)
  /-- The text of a persisted row. -/
  | row (n : NarInfo)
  /-- The text for a path of the local store. -/
  | path (info : ValidPathInfo)
  deriving DecidableEq

/-- The answer to a request for a NAR. -/
inductive NarResponse
  | notFound
  /-- To the object of a persisted row. -/
  | redirect (n : NarInfo) (location : String)
  /-- The path of a persisted row, as a NAR. -/
  | row (n : NarInfo)
  /-- A path of the local store, as a NAR. -/
  | path (info : ValidPathInfo)
  deriving DecidableEq

def Site.localNarinfo (site : Site) (hash : String) : NarinfoResponse :=
  (site.servablePath hash).elim .notFound .path

def narinfoForSettings (site : Site) (request : String) : NarinfoResponse :=
  if !site.enabled then .notFound
  else
    let hash := (stripSuffix ".narinfo" request).getD request
    if !isValidHash hash then .notFound
    else
      match site.remembered hash with
      | some body => .remembered body
      | none =>
        match site.db.getByHashPart hash site.scope with
        | some n =>
          if persistedRowIsTrusted site.publicKey n.toUpsertNarInfo then
            if narinfoRowUsesLocalNarRoute n.toUpsertNarInfo && (site.servablePath hash).isNone then .notFound
            else .row n
          else site.localNarinfo hash
        | none => site.localNarinfo hash

def redirectUploadedNar (site : Site) (objectName : String) : Option NarResponse :=
  if isValidNarObjectName objectName then
    (site.db.getByUrl ("nar/" ++ objectName) site.scope).map fun n =>
      if narinfoHasSignature n.toUpsertNarInfo then
        site.presigner.elim .notFound fun presignGet => .redirect n (presignGet n.url)
      else .notFound
  else none

def servePersistedLocalNar (site : Site) (objectName outputHash narHash : String) : Option NarResponse :=
  if isValidNarObjectName objectName then
    (site.db.getByUrl ("nar/" ++ objectName ++ "?hash=" ++ outputHash) site.scope).map fun n =>
      if persistedLocalNarRowMatches n.toUpsertNarInfo outputHash narHash then
        if (site.storeNar n.storePath).isSome then .row n else .notFound
      else .notFound
  else none

/-- The NAR of a path of the local store; with a query its hash is checked. -/
def Site.localNar (site : Site) (outputHash stripped : String) (query : Option String) : NarResponse :=
  match site.servablePath outputHash with
  | none => .notFound
  | some info => if query.isSome && decide (stripped ≠ encodeSha256 info.narHash) then .notFound else .path info

def serveNarForSettings (site : Site) (hash : String) (query : Option String) : NarResponse :=
  if !site.enabled then .notFound
  else
    match redirectUploadedNar site hash with
    | some response => response
    | none =>
      match stripSuffix ".nar" hash with
      | none => .notFound
      | some stripped =>
        let outputHash := query.getD stripped
        if !isValidHash outputHash then .notFound
        else
          match query.bind fun outputHash => servePersistedLocalNar site hash outputHash stripped with
          | some response => response
          | none => site.localNar outputHash stripped query

/-- The parameters of a request for the URL of a narinfo; `hash` may be given once. -/
def narRequest (url : String) : Option (String × Option String) :=
  (stripPrefix "nar/" url).bind fun path =>
    match splitFirst '?' path.toList with
    | none => some (path, none)
    | some (name, query) =>
      match hashParams query with
      | [] => some (String.ofList name, none)
      | [hash] => some (String.ofList name, some hash)
      | _ => none

/-- A request for the URL of a narinfo. -/
def serveUrl (site : Site) (url : String) : NarResponse :=
  (narRequest url).elim .notFound fun r => serveNarForSettings site r.1 r.2

/-! ### Requests -/

theorem splitFirst_eq_none {sep : Char} : ∀ {l : List Char}, sep ∉ l → splitFirst sep l = none
  | [], _ => rfl
  | c :: l, h => by
    obtain ⟨hc, hl⟩ := not_or.mp (List.mem_cons.not.mp h)
    rw [splitFirst, if_neg (Ne.symm hc), splitFirst_eq_none hl, Option.map_none]

theorem splitFirst_append {sep : Char} {rest : List Char} : ∀ {l : List Char}, sep ∉ l →
    splitFirst sep (l ++ sep :: rest) = some (l, rest)
  | [], _ => by simp [splitFirst]
  | c :: l, h => by
    have hc : c ≠ sep := fun he => h (he ▸ List.mem_cons_self)
    rw [List.cons_append, splitFirst, if_neg hc, splitFirst_append fun hm => h (List.mem_cons_of_mem c hm)]
    rfl

variable {name : String}

theorem notMem_of_isValidNarObjectName (h : isValidNarObjectName name = true) : '?' ∉ name.toList := by
  have hall : name.toList.all isKeyChar = true := by
    simp only [isValidNarObjectName, Bool.and_eq_true] at h
    exact h.2
  intro hm
  have := List.all_eq_true.mp hall _ hm
  revert this
  decide

theorem isValidNarObjectName_of_isValidHash {hash : String} (h : isValidHash hash = true) :
    isValidNarObjectName (hash ++ ".nar") = true := by
  obtain ⟨hlen, hall⟩ := (Bool.and_eq_true _ _).mp h
  have hlen : hash.toList.length = 32 := of_decide_eq_true hlen
  have hbase32 : ∀ c ∈ hash.toList, isBase32Char c = true := List.all_eq_true.mp hall
  have hsize : (hash ++ ".nar").utf8ByteSize ≤ 512 := by
    have hhash := utf8ByteSize_of_base32 hbase32
    rw [String.ofList_toList, hlen] at hhash
    rw [String.utf8ByteSize_append, hhash]
    decide
  have hkey : (hash ++ ".nar").toList.all isKeyChar = true := by
    rw [String.toList_append, List.all_append, Bool.and_eq_true]
    exact ⟨List.all_eq_true.mpr fun c hc => isKeyChar_of_isBase32Char (hbase32 c hc), by decide⟩
  have hnar : ".nar".toList <:+: (hash ++ ".nar").toList :=
    ⟨hash.toList, [], by rw [String.toList_append, List.append_nil]⟩
  have hne : hash ++ ".nar" ≠ "" := fun he => by
    have := congrArg String.length he
    simp at this
  rw [isValidNarObjectName, decide_eq_true hne, decide_eq_true hsize, decide_eq_true hnar, hkey]
  rfl

theorem mem_of_usesLocalNarRoute {n : UpsertNarInfo} (h : narinfoRowUsesLocalNarRoute n = true) :
    '?' ∈ n.url.toList := by
  by_contra hq
  obtain ⟨-, h⟩ := (Bool.and_eq_true _ _).mp h
  obtain ⟨p, hp, -⟩ := (Option.any_eq_true _ _).mp h
  obtain ⟨path, hpath, hp⟩ := Option.bind_eq_some_iff.mp hp
  rw [eq_append_of_stripPrefix hpath, String.toList_append, List.mem_append, not_or] at hq
  rw [splitFirst_eq_none hq.2] at hp
  cases hp

theorem narRequest_object (h : '?' ∉ name.toList) : narRequest ("nar/" ++ name) = some (name, none) := by
  rw [narRequest, stripPrefix_append, Option.bind_some, splitFirst_eq_none h]

theorem narRequest_path {outputHash : String} (h : '?' ∉ name.toList) (ho : isValidHash outputHash = true) :
    narRequest ("nar/" ++ name ++ "?hash=" ++ outputHash) = some (name, some outputHash) := by
  have hpath : (name ++ "?hash=" ++ outputHash).toList = name.toList ++ '?' :: ("hash=" ++ outputHash).toList := by simp
  have hamp : '&' ∉ ("hash=" ++ outputHash).toList := by
    intro hc
    rcases List.mem_append.mp (String.toList_append ▸ hc) with hc | hc
    · revert hc
      decide
    · have := List.all_eq_true.mp ((Bool.and_eq_true _ _).mp ho).2 _ hc
      revert this
      decide
  have hparams : hashParams ("hash=" ++ outputHash).toList = [outputHash] := by
    rw [hashParams, List.splitOn_eq_singleton hamp, List.filterMap_cons, String.ofList_toList, stripPrefix_append]
    rfl
  rw [String.append_assoc, String.append_assoc, narRequest, stripPrefix_append, Option.bind_some, ← String.append_assoc,
    hpath, splitFirst_append h]
  simp only [hparams, String.ofList_toList]

/-! ### Answers -/

variable {site : Site}

theorem redirectUploadedNar_object {n : NarInfo} {presignGet : String → String}
    (hname : isValidNarObjectName name = true) (hn : site.db.getByUrl ("nar/" ++ name) site.scope = some n)
    (hs : narinfoHasSignature n.toUpsertNarInfo = true) (hp : site.presigner = some presignGet) :
    redirectUploadedNar site name = some (.redirect n (presignGet n.url)) := by
  rw [redirectUploadedNar, if_pos hname, hn, Option.map_some, if_pos hs, hp]
  rfl

theorem redirectUploadedNar_eq_none : redirectUploadedNar site name = none ↔
    (isValidNarObjectName name = true → site.db.getByUrl ("nar/" ++ name) site.scope = none) := by
  unfold redirectUploadedNar
  split_ifs with hname <;> simp [hname]

theorem servePersistedLocalNar_row {n : NarInfo} {outputHash narHash : String}
    (hname : isValidNarObjectName name = true)
    (hn : site.db.getByUrl ("nar/" ++ name ++ "?hash=" ++ outputHash) site.scope = some n)
    (hm : persistedLocalNarRowMatches n.toUpsertNarInfo outputHash narHash = true)
    (hd : (site.storeNar n.storePath).isSome = true) :
    servePersistedLocalNar site name outputHash narHash = some (.row n) := by
  rw [servePersistedLocalNar, if_pos hname, hn, Option.map_some, if_pos hm, if_pos hd]

theorem servePersistedLocalNar_eq_none {outputHash narHash : String} :
    servePersistedLocalNar site name outputHash narHash = none ↔ (isValidNarObjectName name = true →
      site.db.getByUrl ("nar/" ++ name ++ "?hash=" ++ outputHash) site.scope = none) := by
  unfold servePersistedLocalNar
  split_ifs with hname <;> simp [hname]

end Circus.Cache
