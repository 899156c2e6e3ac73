/-
# Which URIs an evaluation may fetch

`crates/evaluator/src/nix/flake_lock.rs`, `flake_ref.rs` and `eval_command.rs`:
under `restrict-eval` Nix fetches what an entry of `allowed-uris` authorises.
The entries come from the configuration, from the lock files of the repository
and from the repository itself. `Lockfile.parse` is modelled from the decoded
JSON on; an object is the list of its entries.

The strings of a lock file are the repository's. What they are cut to authorises
nothing but the repository or the site they name exactly if they are delimited,
and the entries, joined with blanks, are read back exactly if they are words
(`Origin.confines_iff`, `words_join_iff`).
-/
import Circus.Uri
import Circus.Evaluator.Jobsets

namespace Circus.NixEval

open Cache (join toList_join splitFirst splitFirst_append stripSuffix trim)
open Evaluator.Webhooks (stripPrefix)

/-! ### Lock files -/

inductive Value
  | null
  | bool (b : Bool)
  | number (text : String)
  | string (s : String)
  | array (items : List Value)
  | object (entries : List (String × Value))

namespace Value

def asObject : Value → Option (List (String × Value))
  | object entries => some entries
  | _ => none

def asStr : Value → Option String
  | string s => some s
  | _ => none

def get (v : Value) (key : String) : Option Value := v.asObject.bind fun entries => entries.lookup key

def str (v : Value) (key : String) : Option String := (v.get key).bind asStr

end Value

/-- A supported committed lockfile. -/
inductive Lockfile
  | flake (root : Option String) (nodes : List (String × Value))
  | pins (entries : List (String × Value))
  | unknown

/-- Parse and identify a lockfile by its JSON structure. -/
def Lockfile.parse (root : Value) : Lockfile :=
  match root.asObject with
  | none => .unknown
  | some entries =>
    match (entries.lookup "nodes").bind Value.asObject with
    | some nodes => .flake ((entries.lookup "root").bind Value.asStr) nodes
    | none => if entries.any fun e => (e.2.get "type").isSome then .pins entries else .unknown

/-- The hosts with a shorthand. -/
inductive Forge
  | github
  | gitlab
  | sourcehut
  deriving DecidableEq, Repr

namespace Forge

def name : Forge → String
  | github => "github"
  | gitlab => "gitlab"
  | sourcehut => "sourcehut"

def ofName (kind : String) : Option Forge := [github, gitlab, sourcehut].find? fun f => f.name = kind

end Forge

def fromUri (uri : String) : List String := (Uri.fromUri uri.toList).map String.ofList

/-- A source entry from any supported lockfile. -/
structure LockedSource where
  value : Value

namespace LockedSource

def kind (s : LockedSource) : String := (s.value.str "type").getD ""

def url (s : LockedSource) : Option String := s.value.str "url"

def allowedUris (s : LockedSource) : List String :=
  match Forge.ofName s.kind with
  | some forge =>
    match s.value.str "owner", s.value.str "repo" with
    | some owner, some repo => [forge.name ++ ":" ++ owner ++ "/" ++ repo]
    | _, _ => []
  | none =>
    if s.kind = "git" ∨ s.kind = "mercurial" then
      (s.url.map fun url => fromUri ((if s.kind = "git" then "git+" else "hg+") ++ url)).getD []
    else if s.kind = "path" ∨ s.kind = "indirect" then []
    -- `tarball` and `file`, and with a warning every other type
    else (s.url.map fromUri).getD []

end LockedSource

def sortDedup (uris : List String) : List String := (uris.insertionSort (· ≤ ·)).dedup

/-- The inputs: every node but the root. -/
def lockedSources (nodes : List (String × Value)) (rootName : Option String) : List LockedSource :=
  (nodes.filter fun n => some n.1 ≠ rootName).map fun n => ⟨(n.2.get "locked").getD n.2⟩

def allowedUrisFromNodes (nodes : List (String × Value)) (rootName : Option String) : List String :=
  sortDedup ((lockedSources nodes rootName).flatMap LockedSource.allowedUris)

namespace Lockfile

def allowedUris : Lockfile → List String
  | flake root nodes => allowedUrisFromNodes nodes root
  | pins entries => allowedUrisFromNodes entries none
  | unknown => []

def sources : Lockfile → List LockedSource
  | flake root nodes => lockedSources nodes root
  | pins entries => lockedSources entries none
  | unknown => []

end Lockfile

/-! ### The source of a jobset -/

inductive CiError
  | nixEval (message : String)
  | timeout (message : String)
  deriving DecidableEq, Repr

structure SourceFlakeRef where
  flakeRef : String
  allowedUris : List String
  deriving DecidableEq, Repr

/-- One byte of `form_urlencoded`. -/
def encodeByte (b : UInt8) : List Char :=
  let c := Char.ofNat b.toNat
  if b.toNat < 128 ∧ (c.isAlphanum ∨ c ∈ ['*', '-', '.', '_']) then [c]
  else if c = ' ' then ['+']
  else ['%', (Nat.digitChar (b.toNat / 16)).toUpper, (Nat.digitChar (b.toNat % 16)).toUpper]

def urlEncode (s : String) : List Char := (s.toList.flatMap String.utf8EncodeChar).flatMap encodeByte

/-- `form_urlencoded::Serializer`. -/
def serialize (query : List (String × String)) : String :=
  String.ofList (['&'].intercalate (query.map fun p => urlEncode p.1 ++ '=' :: urlEncode p.2))

/-- Preserve Nix fetcher attributes and replace any caller-supplied revision. -/
def withPinnedQuery (base rev : String) (query : List (String × String)) : String :=
  let query := serialize ((query.filter fun p => p.1 ≠ "rev") ++ if rev = "" then [] else [("rev", rev)])
  if query = "" then base else base ++ "?" ++ query

def pinned (base rev : String) (query : List (String × String)) : SourceFlakeRef where
  flakeRef := withPinnedQuery base rev query
  allowedUris := fromUri base

/-- `<forge>:<path>/<rev>` plus the `<forge>:<path>` allowed-uri. -/
def forgeRef (forge : Forge) (path rev : String) : SourceFlakeRef :=
  let allowed := forge.name ++ ":" ++ path
  { flakeRef := if rev = "" then allowed else allowed ++ "/" ++ rev, allowedUris := [allowed] }

inductive Scheme
  | https
  | http
  | ssh
  | other (s : String)
  deriving DecidableEq, Repr

namespace Scheme

def ofString (s : String) : Scheme :=
  let s := String.ofList (s.toList.map Char.toLower)
  if s ∈ ["https", "git+https"] then .https
  else if s ∈ ["http", "git+http"] then .http
  else if s ∈ ["ssh", "git+ssh", "git"] then .ssh
  else .other s

def gitPrefix : Scheme → String
  | https => "git+https"
  | http => "git+http"
  | ssh => "git+ssh"
  | other s => "git+" ++ s

end Scheme

inductive ParsedRepo
  | local (path : String) (query : List (String × String))
  | remote (scheme : Scheme) (user : Option String) (host path : String) (query : List (String × String))
  deriving DecidableEq, Repr

/-- What `Url::parse` reads. -/
structure Url where
  scheme : String
  username : String
  host : Option String
  path : String
  query : List (String × String)

/-- Cut at the first occurrence of a text. -/
def splitAtText (sep : List Char) : List Char → Option (List Char × List Char)
  | [] => none
  | c :: l =>
    match sep.isPrefixOf? (c :: l) with
    | some rest => some ([], rest)
    | none => (splitAtText sep l).map fun p => (c :: p.1, p.2)

def trimSlashes (l : List Char) : List Char :=
  ((l.dropWhile (· = '/')).reverse.dropWhile (· = '/')).reverse

/-- Strip leading/trailing slashes and a single trailing `.git`. -/
def cleanPath (path : String) : String :=
  let path := String.ofList (trimSlashes path.toList)
  String.ofList (trimSlashes ((stripSuffix ".git" path).getD path).toList)

/-- Split `[user@]host[:port]` into the user and the lowercased host. -/
def splitUserHost (authority : List Char) : Option String × String :=
  let (user, hostport) := match splitFirst '@' authority with
    | some (u, h) => (some (String.ofList u), h)
    | none => (none, authority)
  let host := (splitFirst ':' hostport).elim hostport Prod.fst
  (user, String.ofList (host.map Char.toLower))

/-- Split an scp-like `git@host:owner/repo`. -/
def scpSplit (url : List Char) : Option (List Char × List Char) :=
  (splitFirst ':' url).filter fun p =>
    !((p.2.takeWhile (· ≠ '/')).all Char.isDigit && p.2.contains '/') && !p.1.isEmpty && !p.2.isEmpty

namespace ParsedRepo

/-- A URL that does not parse, or has no host. -/
def parseText (url : List Char) : ParsedRepo :=
  match splitAtText "://".toList url with
  | none =>
    match scpSplit url with
    | some (authority, path) =>
      let (user, host) := splitUserHost authority
      .remote .ssh user host (cleanPath (String.ofList path)) []
    | none => .local (String.ofList url) []
  | some (scheme, rest) =>
    let (authority, path) := (splitFirst '/' rest).getD (rest, [])
    let (user, host) := splitUserHost authority
    .remote (.ofString (String.ofList scheme)) user host (cleanPath (String.ofList path)) []

def parse (parseUrl : String → Option Url) (url : String) : ParsedRepo :=
  match parseUrl (trim url) with
  | none => parseText (trim url).toList
  | some parsed =>
    if parsed.scheme = "file" then .local parsed.path parsed.query
    else match parsed.host with
      | none => parseText (trim url).toList
      | some host =>
        .remote (.ofString parsed.scheme) (if parsed.username = "" then none else some parsed.username)
          (String.ofList (host.toList.map Char.toLower)) (cleanPath parsed.path) parsed.query

end ParsedRepo

/-- The base of the reference for hosts without a shorthand. -/
def genericBase (scheme : Scheme) (user : Option String) (host path : String) : String :=
  let userinfo := match scheme, user with
    | .ssh, some u => u ++ "@"
    | _, _ => ""
  scheme.gitPrefix ++ "://" ++ userinfo ++ host ++ "/" ++ path

def genericGitRef (scheme : Scheme) (user : Option String) (host path rev : String) (query : List (String × String)) :
    SourceFlakeRef :=
  pinned (genericBase scheme user host path) rev query

/-- `checkout` is the file URL of the working checkout. -/
def ParsedRepo.intoFlakeRef (rev : String) (checkout : Except CiError String) :
    ParsedRepo → Except CiError SourceFlakeRef
  | .local _ query => checkout.map fun url => pinned ("git+" ++ url) rev query
  | .remote scheme user host path query =>
    let segments := ((path.toList.splitOn '/').filter fun s => !s.isEmpty).length
    let forge := match host with
      | "github.com" => some Forge.github
      | "gitlab.com" => some Forge.gitlab
      | "git.sr.ht" => some Forge.sourcehut
      | _ => none
    match forge with
    | some forge =>
      if segments = 2 ∧ query.all fun p => decide (p.1 ∈ ["ref", "rev"]) then .ok (forgeRef forge path rev)
      else .ok (genericGitRef scheme user host path rev query)
    | none => .ok (genericGitRef scheme user host path rev query)

/-! ### The policy -/

/-- The fields of the evaluator's configuration that evaluations read. -/
structure EvaluatorConfig where
  restrictEval : Bool := true
  allowIfd : Bool := true
  allowedUris : List String := []
  autoAllowedUris : Bool := true
  requireLockedFlake : Bool := false
  evalWorkers : ℕ := 1
  memoryLimitMb : Option ℕ := none
  deriving DecidableEq, Repr

structure NixEvalPolicy where
  restrictEval : Bool
  allowIfd : Bool
  allowedUris : List String
  deriving DecidableEq, Repr

namespace NixEvalPolicy

def ofConfig (config : EvaluatorConfig) : NixEvalPolicy where
  restrictEval := config.restrictEval
  allowIfd := config.allowIfd
  allowedUris := config.allowedUris

/-- Merge extra `allowed-uris`, sorted and deduped. -/
def withExtraAllowedUris (p : NixEvalPolicy) (extra : List String) : NixEvalPolicy :=
  { p with allowedUris := sortDedup (p.allowedUris ++ extra) }

def nixOptions (p : NixEvalPolicy) : List (String × String) :=
  (if p.restrictEval then [("restrict-eval", "true")] else []) ++
  (if p.allowIfd then [] else [("allow-import-from-derivation", "false")]) ++
  if p.allowedUris = [] then [] else [("allowed-uris", join ' ' p.allowedUris)]

/-- The policy as `--option KEY VALUE` flags. -/
def args (p : NixEvalPolicy) : List String :=
  (if p.restrictEval then ["--option", "restrict-eval", "true"] else []) ++
  (if p.allowIfd then [] else ["--option", "allow-import-from-derivation", "false"]) ++
  if p.allowedUris = [] then [] else ["--option", "allowed-uris", join ' ' p.allowedUris]

end NixEvalPolicy

/-! ### Where an input is -/

/-- Nix's matcher. -/
def Authorises (pre uri : String) : Prop := Uri.Authorises pre.toList uri.toList

/-- The forge, the owner and the repository of a shorthand. -/
def repositoryOf (uri : List Char) : Option (List Char × List Char × List Char) :=
  (splitFirst ':' uri).bind fun p =>
    match (Uri.withoutQuery p.2).splitOn '/' with
    | owner :: repo :: _ => some (p.1, owner, repo)
    | _ => none

/-- What a lock file or a source says about where it is fetched from. -/
inductive Origin
  | repository (forge : Forge) (owner repo : String)
  | url (uri : String)

namespace Origin

def prefixes : Origin → List String
  | repository forge owner repo => [forge.name ++ ":" ++ owner ++ "/" ++ repo]
  | url uri => fromUri uri

/-- Of the same owner and repository; of the same scheme and authority, for a URL that has them. -/
def Covers : Origin → String → Prop
  | repository forge owner repo, uri =>
    repositoryOf uri.toList = some (forge.name.toList, owner.toList, repo.toList)
  | url u, uri => ∀ site ∈ Uri.site u.toList, Uri.site uri.toList = some site

/-- All that the prefixes authorise is there. -/
def Confines (o : Origin) (prefixes : List String) : Prop := ∀ pre ∈ prefixes, ∀ uri, Authorises pre uri → o.Covers uri

/-- Owner and repository are segments; a slash follows the authority. -/
def Delimited : Origin → Prop
  | repository _ owner repo => Uri.Plain owner.toList ∧ Uri.Plain repo.toList ∧ repo ≠ ""
  | url u => ∀ p ∈ Uri.parts u.toList, p.tail.head? = some '/'

end Origin

/-- The separators of a list in Nix's settings. -/
def isSeparator (c : Char) : Bool := decide (c ∈ [' ', '\t', '\n', '\r'])

/-- The text cut at whitespace. -/
def words (text : String) : List String := (Words.tokens isSeparator text.toList).map String.ofList

def IsWord (w : String) : Prop := w ≠ "" ∧ ∀ c ∈ w.toList, isSeparator c = false

/-- There are no separators in the names. -/
def Origin.IsWord : Origin → Prop
  | repository _ owner repo => ∀ c ∈ owner.toList ++ repo.toList, isSeparator c = false
  | url u => NixEval.IsWord (String.ofList (Uri.withoutQuery u.toList))

def LockedSource.origin (s : LockedSource) : Option Origin :=
  match Forge.ofName s.kind with
  | some forge =>
    (s.value.str "owner").bind fun owner => (s.value.str "repo").map fun repo => .repository forge owner repo
  | none =>
    if s.kind = "git" ∨ s.kind = "mercurial" then
      s.url.map fun url => .url ((if s.kind = "git" then "git+" else "hg+") ++ url)
    else if s.kind = "path" ∨ s.kind = "indirect" then none
    else s.url.map .url

/-- **The prefixes of an input are those of its origin.** -/
theorem LockedSource.allowedUris_eq (s : LockedSource) : s.allowedUris = (s.origin.map Origin.prefixes).getD [] := by
  unfold allowedUris origin
  cases Forge.ofName s.kind with
  | some => cases s.value.str "owner" <;> cases s.value.str "repo" <;> rfl
  | none => split_ifs <;> cases s.url <;> rfl

theorem mem_sortDedup {uri : String} {uris : List String} : uri ∈ sortDedup uris ↔ uri ∈ uris := by
  rw [sortDedup, List.mem_dedup, List.mem_insertionSort]

theorem Lockfile.allowedUris_eq (lock : Lockfile) :
    lock.allowedUris = sortDedup (lock.sources.flatMap LockedSource.allowedUris) := by
  cases lock <;> rfl

theorem Lockfile.mem_allowedUris {uri : String} {lock : Lockfile} :
    uri ∈ lock.allowedUris ↔ ∃ s ∈ lock.sources, ∃ o ∈ s.origin, uri ∈ o.prefixes := by
  rw [lock.allowedUris_eq, mem_sortDedup, List.mem_flatMap]
  refine exists_congr fun s => and_congr_right fun _ => ?_
  rw [s.allowedUris_eq]
  cases s.origin <;> simp

/-! ### What the prefixes authorise -/

theorem eq_append_of_splitFirst {sep : Char} : ∀ {l a b : List Char}, splitFirst sep l = some (a, b) →
    l = a ++ sep :: b ∧ sep ∉ a
  | [], a, b, h => by cases h
  | c :: l, a, b, h => by
    rw [splitFirst] at h
    by_cases hc : c = sep
    · rw [if_pos hc] at h
      cases h
      exact ⟨by rw [hc]; rfl, List.not_mem_nil⟩
    · rw [if_neg hc] at h
      obtain ⟨⟨a', b'⟩, hrec, heq⟩ := Option.map_eq_some_iff.mp h
      cases heq
      obtain ⟨hl, hsep⟩ := eq_append_of_splitFirst hrec
      refine ⟨by rw [hl]; rfl, fun hm => ?_⟩
      rcases List.mem_cons.mp hm with h | h
      · exact hc h.symm
      · exact hsep h

theorem Forge.colon_notMem_name (forge : Forge) : ':' ∉ forge.name.toList := by
  cases forge <;> decide

theorem toList_repository (forge : Forge) (owner repo : String) :
    (forge.name ++ ":" ++ owner ++ "/" ++ repo).toList =
      forge.name.toList ++ ':' :: (owner.toList ++ '/' :: repo.toList) := by
  simp [String.toList_append]

theorem slash_notMem_of_plain {l : List Char} (h : Uri.Plain l) : '/' ∉ l := fun hm => by
  have := h _ hm
  revert this
  decide

/-- What comes after the repository starts with a slash. -/
theorem repositoryOf_plain (forge : Forge) {owner repo tail : List Char} (ho : Uri.Plain owner) (hr : Uri.Plain repo)
    (ht : tail = [] ∨ tail.head? = some '/') :
    repositoryOf (forge.name.toList ++ ':' :: (owner ++ '/' :: (repo ++ tail))) =
      some (forge.name.toList, owner, repo) := by
  have hquery : Uri.withoutQuery (owner ++ '/' :: (repo ++ tail)) =
      owner ++ '/' :: (repo ++ Uri.withoutQuery tail) := by
    rw [Uri.withoutQuery_plain ho]
    exact congrArg (owner ++ '/' :: ·) (Uri.withoutQuery_plain hr)
  have hrepo : ∃ more, (repo ++ Uri.withoutQuery tail).splitOn '/' = repo :: more := by
    have hone := List.splitOn_eq_singleton (slash_notMem_of_plain hr)
    rcases ht with rfl | ht
    · exact ⟨[], by rw [Uri.withoutQuery, List.takeWhile_nil, List.append_nil, hone]⟩
    · cases tail with
      | nil => cases ht
      | cons c tail =>
        cases ht
        have hcons : Uri.withoutQuery ('/' :: tail) = '/' :: Uri.withoutQuery tail := rfl
        exact ⟨_, by rw [hcons, List.splitOn_append_cons_self, hone, List.singleton_append]⟩
  obtain ⟨more, hmore⟩ := hrepo
  rw [repositoryOf, splitFirst_append forge.colon_notMem_name, Option.bind_some, hquery, List.splitOn_append_cons_self,
    List.splitOn_eq_singleton (slash_notMem_of_plain ho), hmore]
  rfl

/-- An owner and a repository that are read are segments. -/
theorem plain_of_repositoryOf {uri kind owner repo : List Char} (h : repositoryOf uri = some (kind, owner, repo)) :
    Uri.Plain owner ∧ Uri.Plain repo := by
  obtain ⟨⟨k, rest⟩, -, h⟩ := Option.bind_eq_some_iff.mp h
  have hseg : ∀ seg ∈ (Uri.withoutQuery rest).splitOn '/', Uri.Plain seg := by
    intro seg hs c hc
    have hslash : c ≠ '/' := fun he => List.notMem_of_mem_splitOn hs (he ▸ hc)
    have hquery : Uri.isQueryStart c = false := by
      have := List.mem_takeWhile_imp (Cache.mem_of_mem_splitOn hs hc)
      simpa using this
    simp only [Uri.isQueryStart] at hquery
    simp [Uri.isDelim, hslash, Bool.or_assoc, hquery]
  revert h hseg
  generalize (Uri.withoutQuery rest).splitOn '/' = segs
  intro h hseg
  cases segs with
  | nil => cases h
  | cons o segs =>
    cases segs with
    | nil => cases h
    | cons =>
      obtain ⟨-, he⟩ := Prod.mk.inj (Option.some.inj h)
      obtain ⟨rfl, rfl⟩ := Prod.mk.inj he
      exact ⟨hseg _ List.mem_cons_self, hseg _ (List.mem_cons_of_mem _ List.mem_cons_self)⟩

namespace Origin

/-- **The shorthand of a repository authorises only the repository** exactly if the owner and the
repository are segments and the repository is not empty. -/
theorem repository_confines_iff {forge : Forge} {owner repo : String} :
    (repository forge owner repo).Confines (repository forge owner repo).prefixes ↔
      (repository forge owner repo).Delimited := by
  simp only [Confines, prefixes, List.mem_singleton, forall_eq, Authorises, Covers, Delimited, toList_repository]
  constructor
  · intro h
    have hself := h (forge.name ++ ":" ++ owner ++ "/" ++ repo) (by
      rw [toList_repository]
      exact ⟨[], (List.append_nil _).symm, .inl rfl⟩)
    obtain ⟨ho, hr⟩ := plain_of_repositoryOf hself
    refine ⟨ho, hr, fun he => ?_⟩
    subst he
    -- an empty repository stands for all of the owner's
    have hplain : Uri.Plain ['x'] := by simp [Uri.Plain, Uri.isDelim]
    have hauth := Uri.authorises_of_slash (forge.name.toList ++ ':' :: owner.toList) ['x']
    have hother := h (String.ofList (forge.name.toList ++ ':' :: owner.toList ++ ['/', 'x'])) (by
      rw [String.toList_ofList]
      simpa using hauth)
    have hrepo := repositoryOf_plain forge ho hplain (.inl rfl : ([] : List Char) = [] ∨ _)
    rw [String.toList_ofList, List.append_assoc, List.cons_append] at hother
    rw [List.append_nil, hother] at hrepo
    simp at hrepo
  · rintro ⟨ho, hr, hne⟩ uri ⟨rest, huri, hrest⟩
    have htail : rest = [] ∨ rest.head? = some '/' := by
      rcases hrest with h | h | h
      · exact .inl h
      · -- the last character is the repository's
        have hrepo : repo.toList ≠ [] := fun he => hne (String.toList_eq_nil_iff.mp he)
        rw [← List.cons_append, ← List.append_assoc, List.append_cons, List.getLast?_append_of_ne_nil _ hrepo] at h
        exact absurd (List.mem_of_getLast? h) (slash_notMem_of_plain hr)
      · exact .inr h
    have := repositoryOf_plain forge ho hr htail
    rw [huri]
    simpa using this

theorem url_confines_iff {u : String} : (url u).Confines (url u).prefixes ↔ (url u).Delimited := by
  simp only [Confines, prefixes, fromUri, List.mem_map, Authorises, Covers, Delimited]
  cases hp : Uri.parts u.toList with
  | none => simp [Uri.site, hp]
  | some p =>
    have htext := Uri.text_of_parts hp
    rw [← htext, Uri.site_text]
    simp only [Option.mem_def, Option.some.injEq, forall_eq']
    rw [← Uri.fromUri_confined_iff p]
    constructor
    · intro h pre hpre uri hauth
      have := h (String.ofList pre) ⟨pre, hpre, rfl⟩ (String.ofList uri)
      rw [String.toList_ofList, String.toList_ofList] at this
      exact this hauth
    · rintro h _ ⟨pre, hpre, rfl⟩ uri hauth
      rw [String.toList_ofList] at hauth
      exact h pre hpre uri.toList hauth

/-- **An origin's prefixes authorise only what is there** exactly if it is delimited. -/
theorem confines_iff (o : Origin) : o.Confines o.prefixes ↔ o.Delimited := by
  cases o with
  | repository => exact repository_confines_iff
  | url => exact url_confines_iff

end Origin

/-! ### The entries of the option -/

/-- **The entries are read back** exactly if each is a word. -/
theorem words_join_iff {uris : List String} : words (join ' ' uris) = uris ↔ ∀ uri ∈ uris, IsWord uri := by
  have hback : (uris.map String.toList).map String.ofList = uris := by
    simp [List.map_map, Function.comp_def]
  have hinj : Function.Injective (List.map String.ofList) := List.map_injective_iff.mpr fun a b h => by
    simpa using congrArg String.toList h
  have hiff : words (join ' ' uris) = uris ↔
      Words.tokens isSeparator ([' '].intercalate (uris.map String.toList)) = uris.map String.toList := by
    rw [words, toList_join]
    nth_rewrite 2 [← hback]
    exact hinj.eq_iff
  rw [hiff, Words.tokens_intercalate_iff (by decide), List.forall_mem_map]
  simp only [IsWord, ne_eq, String.toList_eq_nil_iff]

theorem Origin.isWord_prefixes_iff (o : Origin) : (∀ uri ∈ o.prefixes, NixEval.IsWord uri) ↔ o.IsWord := by
  cases o with
  | repository forge =>
    have hforge : ∀ c ∈ forge.name.toList, isSeparator c = false := by
      cases forge <;> simp [Forge.name, isSeparator]
    have hcolon : isSeparator ':' = false := by decide
    have hslash : isSeparator '/' = false := by decide
    simp only [prefixes, List.mem_singleton, forall_eq, NixEval.IsWord, Origin.IsWord, toList_repository]
    constructor
    · rintro ⟨-, h⟩ c hc
      refine h c ?_
      simp only [List.mem_append, List.mem_cons] at hc ⊢
      tauto
    · intro h
      refine ⟨fun he => ?_, fun c hc => ?_⟩
      · have := congrArg String.toList he
        rw [toList_repository] at this
        simp at this
      · simp only [List.mem_append, List.mem_cons] at hc h
        rcases hc with hc | rfl | hc | rfl | hc
        · exact hforge c hc
        · exact hcolon
        · exact h c (.inl hc)
        · exact hslash
        · exact h c (.inr hc)
  | url =>
    simp only [prefixes, fromUri, List.forall_mem_map, Uri.fromUri, List.forall_mem_cons, Origin.IsWord]
    refine ⟨And.left, fun h => ⟨h, fun p hp => ?_⟩⟩
    -- what ends at the last slash is a part of the URI
    obtain ⟨hne, hpre⟩ := Uri.isPrefix_of_upToLast (Option.mem_toList.mp hp)
    refine ⟨by simpa using hne, fun c hc => h.2 c ?_⟩
    rw [String.toList_ofList] at hc ⊢
    exact hpre.subset hc

theorem NixEvalPolicy.mem_nixOptions {p : NixEvalPolicy} {value : String} :
    ("allowed-uris", value) ∈ p.nixOptions ↔ p.allowedUris ≠ [] ∧ value = join ' ' p.allowedUris := by
  have h₁ : ("allowed-uris", value) ∉ if p.restrictEval then [("restrict-eval", "true")] else [] := by
    split_ifs <;> simp
  have h₂ : ("allowed-uris", value) ∉ if p.allowIfd then [] else [("allow-import-from-derivation", "false")] := by
    split_ifs <;> simp
  rw [nixOptions, List.mem_append, List.mem_append, or_iff_right (by tauto)]
  split_ifs with h <;> simp [h]

theorem NixEvalPolicy.words_nixOptions_iff {p : NixEvalPolicy} :
    (∀ value, ("allowed-uris", value) ∈ p.nixOptions → words value = p.allowedUris) ↔
      ∀ uri ∈ p.allowedUris, IsWord uri := by
  simp only [mem_nixOptions, and_imp]
  by_cases h : p.allowedUris = []
  · simp [h]
  · rw [← words_join_iff]
    simp [h]

/-! ### The derived list -/

/-- The prefixes derived from the input authorise nothing else. -/
def LockedSource.Confined (s : LockedSource) : Prop := ∀ o ∈ s.origin, o.Confines s.allowedUris

theorem LockedSource.confined_iff (s : LockedSource) : s.Confined ↔ ∀ o ∈ s.origin, o.Delimited := by
  refine forall₂_congr fun o ho => ?_
  have huris : s.allowedUris = o.prefixes := by rw [s.allowedUris_eq, Option.mem_def.mp ho]; rfl
  rw [huris, o.confines_iff]

/-- A source flake ref: pinned at a revision, or the shorthand of a forge, whose path has a slash. -/
inductive Source
  | pinned (base rev : String) (query : List (String × String))
  | forge (forge : Forge) (owner repo rev : String)

namespace Source

def ref : Source → SourceFlakeRef
  | pinned base rev query => NixEval.pinned base rev query
  | forge f owner repo rev => forgeRef f (owner ++ "/" ++ repo) rev

def origin : Source → Origin
  | pinned base _ _ => .url base
  | forge f owner repo _ => .repository f owner repo

theorem allowedUris_ref (source : Source) : source.ref.allowedUris = source.origin.prefixes := by
  cases source with
  | pinned => rfl
  | forge => simp only [ref, forgeRef, origin, Origin.prefixes, String.append_assoc]

/-- **There are no other source flake refs.** -/
theorem exists_of_intoFlakeRef {parsed : ParsedRepo} {rev : String} {checkout : Except CiError String}
    {ref : SourceFlakeRef} (h : parsed.intoFlakeRef rev checkout = .ok ref) : ∃ source : Source, source.ref = ref := by
  cases parsed with
  | «local» raw query =>
    cases checkout with
    | error => cases h
    | ok => exact ⟨.pinned _ rev query, Except.ok.inj h⟩
  | remote scheme user host path query =>
    unfold ParsedRepo.intoFlakeRef at h
    dsimp only at h
    split at h
    next f _ =>
      split_ifs at h with hsegs
      · -- two segments have a slash between them
        have hslash : '/' ∈ path.toList := by
          by_contra hno
          have hle := List.length_filter_le (fun s : List Char => !s.isEmpty) (path.toList.splitOn '/')
          rw [hsegs.1, List.splitOn_eq_singleton hno] at hle
          exact absurd hle (by simp)
        obtain ⟨owner, repo, hpath, -⟩ := List.eq_append_cons_of_mem hslash
        have hjoin : String.ofList owner ++ "/" ++ String.ofList repo = path := by
          rw [← String.toList_inj, hpath]
          simp
        refine ⟨.forge f (String.ofList owner) (String.ofList repo) rev, ?_⟩
        rw [Source.ref, hjoin]
        exact Except.ok.inj h
      · exact ⟨.pinned _ rev query, Except.ok.inj h⟩
    next => exact ⟨.pinned _ rev query, Except.ok.inj h⟩

end Source

/-- The policy of an evaluation of the source with the lock file. -/
def derivedPolicy (config : EvaluatorConfig) (lock : Lockfile) (source : SourceFlakeRef) : NixEvalPolicy :=
  (NixEvalPolicy.ofConfig config).withExtraAllowedUris (lock.allowedUris ++ source.allowedUris)

theorem isWord_derivedPolicy_iff {config : EvaluatorConfig} {lock : Lockfile} {source : Source} :
    (∀ uri ∈ (derivedPolicy config lock source.ref).allowedUris, IsWord uri) ↔
      (∀ uri ∈ config.allowedUris, IsWord uri) ∧ (∀ s ∈ lock.sources, ∀ o ∈ s.origin, o.IsWord) ∧
        source.origin.IsWord := by
  have hsources : (∀ uri ∈ lock.allowedUris, IsWord uri) ↔ ∀ s ∈ lock.sources, ∀ o ∈ s.origin, o.IsWord := by
    simp only [Lockfile.mem_allowedUris, ← Origin.isWord_prefixes_iff]
    exact ⟨fun h s hs o ho uri hu => h uri ⟨s, hs, o, ho, hu⟩, fun h uri ⟨s, hs, o, ho, hu⟩ => h s hs o ho uri hu⟩
  rw [← hsources, ← source.origin.isWord_prefixes_iff]
  simp only [derivedPolicy, NixEvalPolicy.withExtraAllowedUris, NixEvalPolicy.ofConfig, mem_sortDedup,
    List.forall_mem_append, source.allowedUris_ref]

/-- **Allowed URIs do not widen** exactly if every input and the source are delimited and made of words: then what
the prefixes of each authorise is at its site or repository, and the option holds the derived list. -/
theorem allowed_uris_exact_iff (root : Value) (config : EvaluatorConfig) (source : Source) :
    ((∀ s ∈ (Lockfile.parse root).sources, s.Confined) ∧ source.origin.Confines source.ref.allowedUris ∧
        ∀ value, ("allowed-uris", value) ∈ (derivedPolicy config (Lockfile.parse root) source.ref).nixOptions →
          words value = (derivedPolicy config (Lockfile.parse root) source.ref).allowedUris) ↔
      (∀ s ∈ (Lockfile.parse root).sources, ∀ o ∈ s.origin, o.Delimited ∧ o.IsWord) ∧
        (source.origin.Delimited ∧ source.origin.IsWord) ∧ ∀ uri ∈ config.allowedUris, IsWord uri := by
  rw [NixEvalPolicy.words_nixOptions_iff, isWord_derivedPolicy_iff, source.allowedUris_ref, Origin.confines_iff]
  simp only [LockedSource.confined_iff]
  constructor
  · rintro ⟨hd, hbd, hc, hw, hbw⟩
    exact ⟨fun s hs o ho => ⟨hd s hs o ho, hw s hs o ho⟩, ⟨hbd, hbw⟩, hc⟩
  · rintro ⟨h, ⟨hbd, hbw⟩, hc⟩
    exact ⟨fun s hs o ho => (h s hs o ho).1, hbd, hc, fun s hs o ho => (h s hs o ho).2, hbw⟩

/-- A lock file with one input. -/
def lockOf (locked : List (String × String)) : Value :=
  .object [("nodes", .object [("input", .object [("locked", .object (locked.map fun p => (p.1, .string p.2)))])])]

def blankLock : Value := lockOf [("type", "tarball"), ("url", "https://example.com/a https://example.org/b")]

def blankPolicy : NixEvalPolicy :=
  derivedPolicy {} (Lockfile.parse blankLock) (pinned "git+https://example.com/repo" "" [])

/-- A URL without a path allows every host, an empty repository every repository of its owner, and a
blank in a URL is an entry of its own. -/
theorem allowed_uris_widen :
    ("https://" ∈ (Lockfile.parse (lockOf [("type", "tarball"), ("url", "https://example.com")])).allowedUris ∧
      Authorises "https://" "https://example.org/x" ∧
      Uri.site "https://example.org/x".toList ≠ Uri.site "https://example.com".toList) ∧
    ("github:owner/" ∈
        (Lockfile.parse (lockOf [("type", "github"), ("owner", "owner"), ("repo", "")])).allowedUris ∧
      Authorises "github:owner/" "github:owner/other" ∧
      ¬ (Origin.repository .github "owner" "").Covers "github:owner/other") ∧
    ∃ value, ("allowed-uris", value) ∈ blankPolicy.nixOptions ∧ "https://example.org/" ∈ words value ∧
      "https://example.org/" ∉ blankPolicy.allowedUris := by
  refine ⟨⟨by decide +kernel, ⟨"example.org/x".toList, by decide, .inr (.inl (by decide))⟩, ?_⟩,
    ⟨by decide +kernel, ⟨"other".toList, by decide, .inr (.inl (by decide))⟩, ?_⟩, ?_⟩
  · simp [Uri.site, Uri.parts, Uri.isSchemeChar, Uri.IsScheme, Uri.isDelim]
  · change repositoryOf _ ≠ _
    decide +kernel
  · have huris : blankPolicy.allowedUris = ["git+https://example.com/", "git+https://example.com/repo",
        "https://example.com/a https://example.org/", "https://example.com/a https://example.org/b"] := by
      decide +kernel
    refine ⟨_, NixEvalPolicy.mem_nixOptions.mpr ⟨by simp [huris], rfl⟩, ?_, by simp [huris]⟩
    rw [huris]
    decide +kernel

end Circus.NixEval
