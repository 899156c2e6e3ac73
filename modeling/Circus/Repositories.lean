/-
# One repository, three readers

Three crates take the owner and the repository off a project's URL:
the evaluator to build `github:owner/repo` (`ParsedRepo`), the notifications to
post commit statuses (`parse_github_repo` of `crates/notification/src/lib.rs`)
and the scheduler to check the repository of an OIDC token
(`github_repository_slug` of `crates/queue-runner/src/dispatch.rs`).

The evaluator takes off one `.git` and the slashes around the path. The
notifications take off every `.git` at the end of the path and the slashes
before it; the scheduler takes every `.git` off the URL before it parses it, and
knows one spelling of the host. `repository_agrees_iff` says on which of the
URLs that the evaluator maps to GitHub the other two agree with it.
-/
import Circus.NixEval.SourceRef
import Circus.Strip

namespace Circus.Repositories

open Cache (splitFirst splitFirst_append trim)
open Evaluator.Webhooks (stripPrefix stripPrefix_append eq_append_of_stripPrefix)
open NixEval

/-! ### The notifications -/

def git : List Char := ".git".toList

def normalizeRepoPath (path : List Char) : Option (List Char) :=
  let path := Strip.trimEnd git (path.dropWhile (· = '/'))
  if path = [] then none else some path

structure ForgeUrl where
  host : List Char
  path : List Char
  deriving DecidableEq

def ForgeUrl.parse (parseUrl : String → Option Url) (raw : String) : Option ForgeUrl :=
  let raw := trim raw
  if raw = "" then none
  else
    match parseUrl raw with
    | some url => url.host.bind fun host =>
        (normalizeRepoPath url.path.toList).map fun path => { host := host.toList.map Char.toLower, path := path }
    | none => (splitFirst ':' raw.toList).bind fun p => (stripPrefix "git@" (String.ofList p.1)).bind fun host =>
        (normalizeRepoPath p.2).map fun path => { host := host.toList.map Char.toLower, path := path }

def ForgeUrl.ownerRepo (u : ForgeUrl) : Option (String × String) :=
  (splitFirst '/' u.path).map fun p => (String.ofList p.1, String.ofList p.2)

def parseGithubRepo (parseUrl : String → Option Url) (url : String) : Option (String × String) :=
  (ForgeUrl.parse parseUrl url).bind fun u => if u.host = "github.com".toList then u.ownerRepo else none

/-! ### The scheduler -/

def ownerRepoFromPath (path : List Char) : Option String :=
  match segments path with
  | [owner, repo] => some (String.ofList owner ++ "/" ++ String.ofList repo)
  | _ => none

/-- The slug of a URL that does not end in `.git`. -/
def slugOf (parseUrl : String → Option Url) (url : String) : Option String :=
  match stripPrefix "git@github.com:" url with
  | some rest => ownerRepoFromPath rest.toList
  | none =>
    match parseUrl url with
    | some parsed =>
      if parsed.host = some "github.com" then ownerRepoFromPath (parsed.path.toList.dropWhile (· = '/')) else none
    | none => none

def githubRepositorySlug (parseUrl : String → Option Url) (url : String) : Option String :=
  slugOf parseUrl (String.ofList (Strip.trimEnd git (trim url).toList))

/-! ### The URLs they agree on -/

/-- A segment that stands for the path up to it, or for the one above. -/
def isDotSegment (s : List Char) : Bool :=
  decide (String.ofList (s.map Char.toLower) ∈ [".", "..", "%2e", ".%2e", "%2e.", "%2e%2e"])

/-- A URL that goes on after `start` loses nothing else if it ends there: no blanks are at its end, which `Url::parse`
takes off (tabs and line ends it takes off anywhere), and no segment is one of dots. -/
def Settled (start : List Char) (segs : List (List Char)) : Prop :=
  ((start.reverse.takeWhile fun c => decide (c.toNat ≤ 32)).all fun c => decide (c ∈ ['\t', '\n', '\r'])) = true ∧
    ∀ s ∈ segs, isDotSegment s = false

/-- `Url::parse`. What is before the first colon of a URL is a scheme, with no `@` in it. A `.git` that a text ends in
is at the end of the fragment or the query, or of the path if there are segments: without it host and path are the same,
or the path ends there. -/
structure UrlParser where
  parse : String → Option Url
  empty : parse "" = none
  scheme : ∀ {text : String} {start rest : List Char}, text.toList = start ++ ':' :: rest → ':' ∉ start → '@' ∈ start →
    parse text = none
  query : ∀ {start : List Char} {k : ℕ} {u : Url}, parse (String.ofList (start ++ Strip.copies git (k + 1))) = some u →
    '?' ∈ start ∨ '#' ∈ start → ∃ cut, parse (String.ofList start) = some cut ∧ cut.host = u.host ∧ cut.path = u.path
  path : ∀ {start : List Char} {k : ℕ} {u : Url}, parse (String.ofList (start ++ Strip.copies git (k + 1))) = some u →
    ¬ ('?' ∈ start ∨ '#' ∈ start) → u.scheme ≠ "file" → u.host ≠ none → segments u.path.toList ≠ [] →
    ∃ path cut, u.path.toList = path ++ Strip.copies git (k + 1) ∧ parse (String.ofList start) = some cut ∧
      cut.host = u.host ∧ (Settled start (segments path) → cut.path.toList = path) ∧
      (¬ Settled start (segments path) → segments cut.path.toList ≠ segments path)

/-- Slashes, owner and repository, and at most one `.git`. -/
def Plainly (owner repo path : List Char) : Prop :=
  ∃ lead, IsSlashes lead ∧ (path = lead ++ (owner ++ '/' :: repo) ∨ path = lead ++ (owner ++ '/' :: repo ++ git))

/-- The URLs on which the readers agree. -/
inductive Agreed (p : UrlParser) (owner repo : List Char) (text : String) : Prop
  /-- A URL on `github.com` whose path is slashes, owner and repository. -/
  | url {u : Url} {lead : List Char} (hu : p.parse text = some u) (hhost : u.host = some "github.com")
      (hlead : IsSlashes lead) (hpath : u.path.toList = lead ++ (owner ++ '/' :: repo))
  /-- One whose path has a `.git` after them, with which the text ends. -/
  | dotGit {u : Url} {lead : List Char} (hu : p.parse text = some u) (hhost : u.host = some "github.com")
      (hlead : IsSlashes lead) (hpath : u.path.toList = lead ++ (owner ++ '/' :: repo ++ git))
      (htext : git <:+ text.toList) (hquery : ¬ ('?' ∈ text.toList ∨ '#' ∈ text.toList))
      (hsettled : Settled (Strip.trimEnd git text.toList) [owner, repo])
  /-- `git@github.com:` and a plain path. -/
  | scp {path : List Char} (hu : p.parse text = none) (htext : text.toList = "git@github.com:".toList ++ path)
      (hpath : Plainly owner repo path)

/-! ### Paths -/

section Paths

variable {owner repo : List Char}

theorem git_ne_nil : git ≠ [] := by decide

theorem slash_notMem_git : '/' ∉ git := by decide

/-- An ending of a repository's path is one of the repository. -/
theorem git_suffix_iff : git <:+ owner ++ '/' :: repo ↔ git <:+ repo := by
  constructor
  · intro h
    have hsuf : '/' :: repo <:+ owner ++ '/' :: repo := List.suffix_append _ _
    rcases Nat.le_total git.length ('/' :: repo).length with hle | hle
    · rcases List.suffix_cons_iff.mp (List.suffix_of_suffix_length_le h hsuf hle) with heq | h
      · exact absurd (heq ▸ List.mem_cons_self) slash_notMem_git
      · exact h
    · exact absurd ((List.suffix_of_suffix_length_le hsuf h hle).subset List.mem_cons_self) slash_notMem_git
  · exact fun h => h.trans ((List.suffix_cons _ _).trans (List.suffix_append _ _))

theorem trimmed_pair (ho : owner ≠ [] ∧ '/' ∉ owner) (hr : repo ≠ [] ∧ '/' ∉ repo) :
    Trimmed (owner ++ '/' :: repo) where
  head hc := by
    rw [List.head?_append_of_ne_nil _ ho.1] at hc
    exact ho.2 (List.mem_of_mem_head? hc)
  last hc := by
    rw [List.getLast?_append, List.getLast?_cons, List.getLast?_eq_some_getLast hr.1] at hc
    exact hr.2 (Option.some.inj hc ▸ List.getLast_mem hr.1)

/-- A repository followed by `.git`s is a segment. -/
theorem copies_segment (hr : repo ≠ [] ∧ '/' ∉ repo) (k : ℕ) :
    repo ++ Strip.copies git k ≠ [] ∧ '/' ∉ repo ++ Strip.copies git k := by
  refine ⟨by simp [hr.1], fun hc => ?_⟩
  rcases List.mem_append.mp hc with h | h
  · exact hr.2 h
  · exact slash_notMem_git (Strip.mem_of_mem_copies h)

/-- **The notifications' path**: every `.git` goes, and what is left must not end in one. -/
theorem normalizeRepoPath_iff (ho : owner ≠ [] ∧ '/' ∉ owner) {path : List Char} :
    normalizeRepoPath path = some (owner ++ '/' :: repo) ↔
      ¬ git <:+ repo ∧ ∃ lead k, IsSlashes lead ∧ path = lead ++ (owner ++ '/' :: repo ++ Strip.copies git k) := by
  have hsplit : normalizeRepoPath path = some (owner ++ '/' :: repo) ↔
      Strip.trimEnd git (path.dropWhile (· = '/')) = owner ++ '/' :: repo := by
    rw [normalizeRepoPath]
    split_ifs with hnil
    · rw [hnil]
      simp
    · exact Option.some_inj
  rw [hsplit]
  constructor
  · intro h
    refine ⟨fun hg => ?_, ?_⟩
    · exact Strip.not_suffix_trimEnd git_ne_nil _ (h ▸ git_suffix_iff.mpr hg)
    · obtain ⟨k, hk⟩ := @Strip.exists_trimEnd _ git _ (path.dropWhile (· = '/'))
      refine ⟨path.takeWhile (· = '/'), k, isSlashes_takeWhile path, ?_⟩
      rw [← h, ← hk, List.takeWhile_append_dropWhile]
  · rintro ⟨hg, lead, k, hlead, rfl⟩
    have hhead : (owner ++ '/' :: repo ++ Strip.copies git k).head? ≠ some '/' := by
      intro hc
      rw [List.append_assoc, List.head?_append_of_ne_nil _ ho.1] at hc
      exact ho.2 (List.mem_of_mem_head? hc)
    rw [dropWhile_slashes_append hlead hhead, Strip.trimEnd_append_copies git_ne_nil]
    exact Strip.trimEnd_of_not_suffix fun hs => hg (git_suffix_iff.mp hs)

/-- The evaluator takes off one of them. -/
theorem segments_cleanPath {path : String} {lead : List Char} {k : ℕ} (ho : owner ≠ [] ∧ '/' ∉ owner)
    (hr : repo ≠ [] ∧ '/' ∉ repo) (hlead : IsSlashes lead) (hgit : ¬ git <:+ repo)
    (hpath : path.toList = lead ++ (owner ++ '/' :: repo ++ Strip.copies git k)) :
    segments (cleanPath path).toList = [owner, repo ++ Strip.copies git (k - 1)] := by
  have hassoc : owner ++ '/' :: repo ++ Strip.copies git k = owner ++ '/' :: (repo ++ Strip.copies git k) := by simp
  have htrim : trimSlashes path.toList = owner ++ '/' :: repo ++ Strip.copies git k := by
    have := @trimSlashes_append lead _ [] hlead (trimmed_pair ho (copies_segment hr k))
      fun _ hc => absurd hc List.not_mem_nil
    rw [hpath, hassoc]
    simpa using this
  cases k with
  | zero =>
    rw [Strip.copies_zero, List.append_nil] at htrim
    rw [cleanPath_of_not_git (htrim ▸ fun hs => hgit (git_suffix_iff.mp hs)), htrim, Strip.copies_zero, List.append_nil]
    exact segments_pair ho hr
  | succ k =>
    rw [Strip.copies_succ, ← List.append_assoc] at htrim
    rw [cleanPath_of_git htrim, Nat.add_sub_cancel, List.append_assoc, List.cons_append,
      trimSlashes_of_trimmed (trimmed_pair ho (copies_segment hr k))]
    exact segments_pair ho (copies_segment hr k)

theorem normalizeRepoPath_of_plainly (ho : owner ≠ [] ∧ '/' ∉ owner) (hgit : ¬ git <:+ repo) {path : List Char}
    (h : Plainly owner repo path) : normalizeRepoPath path = some (owner ++ '/' :: repo) := by
  refine (normalizeRepoPath_iff ho).mpr ⟨hgit, ?_⟩
  obtain ⟨lead, hlead, hpath | hpath⟩ := h
  · exact ⟨lead, 0, hlead, by simpa using hpath⟩
  · exact ⟨lead, 1, hlead, by rw [hpath, Strip.copies_succ, Strip.copies_zero, List.nil_append]⟩

/-- **A path that notifications and evaluator read alike** is plain. -/
theorem plainly_iff {path : String} (ho : owner ≠ [] ∧ '/' ∉ owner) (hr : repo ≠ [] ∧ '/' ∉ repo)
    (hclean : segments (cleanPath path).toList = [owner, repo]) :
    normalizeRepoPath path.toList = some (owner ++ '/' :: repo) ↔ ¬ git <:+ repo ∧ Plainly owner repo path.toList := by
  constructor
  · intro h
    obtain ⟨hgit, lead, k, hlead, hpath⟩ := (normalizeRepoPath_iff ho).mp h
    rw [segments_cleanPath ho hr hlead hgit hpath] at hclean
    have hk : Strip.copies git (k - 1) = [] := by simpa using hclean
    refine ⟨hgit, lead, hlead, ?_⟩
    cases k with
    | zero => exact .inl (by simpa using hpath)
    | succ =>
      rw [Nat.add_sub_cancel] at hk
      exact .inr (by rw [hpath, Strip.copies_succ, hk, List.nil_append])
  · rintro ⟨hgit, hplain⟩
    exact normalizeRepoPath_of_plainly ho hgit hplain

/-- What is joined at a separator is known from it. -/
theorem splitFirst_inj {sep : Char} {a b a' b' : List Char} (ha : sep ∉ a) (ha' : sep ∉ a')
    (h : a ++ sep :: b = a' ++ sep :: b') : a = a' ∧ b = b' := by
  have hsplit : splitFirst sep (a ++ sep :: b) = some (a, b) := splitFirst_append ha
  rw [h, splitFirst_append ha'] at hsplit
  obtain ⟨h1, h2⟩ := Prod.mk.inj (Option.some.inj hsplit)
  exact ⟨h1.symm, h2.symm⟩

theorem ownerRepo_iff (ho : '/' ∉ owner) {u : ForgeUrl} :
    u.ownerRepo = some (String.ofList owner, String.ofList repo) ↔ u.path = owner ++ '/' :: repo := by
  constructor
  · intro h
    obtain ⟨⟨a, b⟩, hsplit, heq⟩ := Option.map_eq_some_iff.mp h
    simp only [Prod.mk.injEq, String.ofList_inj] at heq
    rw [(eq_append_of_splitFirst hsplit).1, heq.1, heq.2]
  · intro h
    rw [ForgeUrl.ownerRepo, h, splitFirst_append ho, Option.map_some]

theorem ownerRepoFromPath_iff (ho : '/' ∉ owner) {path : List Char} :
    ownerRepoFromPath path = some (String.ofList owner ++ "/" ++ String.ofList repo) ↔
      segments path = [owner, repo] := by
  constructor
  · intro h
    rw [ownerRepoFromPath] at h
    split at h
    · rename_i owner' repo' hsegs
      have ho' : '/' ∉ owner' := (mem_segments (hsegs ▸ List.mem_cons_self)).2
      have hjoin := congrArg String.toList (Option.some.inj h)
      simp only [String.toList_append, String.toList_ofList, List.append_assoc] at hjoin
      obtain ⟨rfl, rfl⟩ := splitFirst_inj ho' ho hjoin
      exact hsegs
    · cases h
  · intro h
    rw [ownerRepoFromPath, h]

end Paths

/-! ### How the evaluator comes to GitHub -/

section Evaluator

variable {rev path : String} {checkout : Except CiError String}

theorem eq_append_of_splitAtText {sep : List Char} : ∀ {l a b : List Char}, splitAtText sep l = some (a, b) →
    l = a ++ (sep ++ b)
  | [], a, b, h => by cases h
  | c :: l, a, b, h => by
    rw [splitAtText] at h
    cases hpre : sep.isPrefixOf? (c :: l) with
    | some =>
      rw [hpre] at h
      cases h
      exact (List.append_eq_of_isPrefixOf?_eq_some hpre).symm
    | none =>
      rw [hpre] at h
      obtain ⟨⟨a', b'⟩, hrec, heq⟩ := Option.map_eq_some_iff.mp h
      cases heq
      rw [eq_append_of_splitAtText hrec]
      rfl

/-- A `git+` reference is no shorthand. -/
theorem not_git_of_forgeRef : ¬ "git+".toList <+: (forgeRef .github path rev).flakeRef.toList := by
  have hstart : "github:".toList <+: (forgeRef .github path rev).flakeRef.toList := by
    rw [forgeRef]
    dsimp only [Forge.name]
    split_ifs
    · rw [String.toList_append, String.toList_append, List.append_assoc]
      exact List.prefix_append _ _
    · simp only [String.toList_append, List.append_assoc]
      exact List.prefix_append _ _
  intro hgit
  have := List.prefix_of_prefix_length_le hgit hstart (by decide)
  revert this
  decide

theorem git_isPrefix_genericBase (scheme : Scheme) (user : Option String) (host path : String) :
    "git+".toList <+: (genericBase scheme user host path).toList := by
  have hscheme : "git+".toList <+: scheme.gitPrefix.toList := by
    cases scheme with
    | other =>
      rw [Scheme.gitPrefix, String.toList_append]
      exact List.prefix_append _ _
    | _ => decide
  unfold genericBase
  simp only [String.toList_append, List.append_assoc]
  exact hscheme.trans (List.prefix_append _ _)

theorem forgeRef_inj {forge forge' : Forge} {raw : String} (h : forgeRef forge raw rev = forgeRef forge' path rev) :
    forge = forge' ∧ raw = path := by
  have huris : [forge.name ++ ":" ++ raw] = [forge'.name ++ ":" ++ path] := congrArg SourceFlakeRef.allowedUris h
  have htext := congrArg String.toList (List.cons.inj huris).1
  simp only [String.toList_append, List.append_assoc] at htext
  obtain ⟨hname, hraw⟩ := splitFirst_inj forge.colon_notMem_name forge'.colon_notMem_name htext
  refine ⟨?_, String.toList_inj.mp hraw⟩
  revert hname
  cases forge <;> cases forge' <;> decide

/-- Only a repository on GitHub has its shorthand. -/
theorem of_forgeRef {parsed : ParsedRepo} (h : parsed.intoFlakeRef rev checkout = .ok (forgeRef .github path rev)) :
    ∃ scheme user query, parsed = .remote scheme user "github.com" path query := by
  have hpinned : ∀ (base : String) (query : List (String × String)), "git+".toList <+: base.toList →
      pinned base rev query ≠ forgeRef .github path rev := by
    intro base query hbase heq
    refine @not_git_of_forgeRef rev path ?_
    rw [← heq]
    exact hbase.trans (isPrefix_withPinnedQuery _ _ _)
  cases parsed with
  | «local» raw query =>
    cases checkout with
    | error => cases h
    | ok =>
      refine absurd (Except.ok.inj h) (hpinned _ _ ?_)
      rw [String.toList_append]
      exact List.prefix_append _ _
  | remote scheme user host raw query =>
    have hgeneric : genericGitRef scheme user host raw rev query ≠ forgeRef .github path rev :=
      hpinned _ _ (git_isPrefix_genericBase scheme user host raw)
    unfold ParsedRepo.intoFlakeRef at h
    dsimp only at h
    split at h
    · rename_i forge hforge
      split_ifs at h
      · obtain ⟨rfl, rfl⟩ := forgeRef_inj (Except.ok.inj h)
        split at hforge
        · exact ⟨scheme, user, query, rfl⟩
        · cases hforge
        · cases hforge
        · cases hforge
      · exact absurd (Except.ok.inj h) hgeneric
    · exact absurd (Except.ok.inj h) hgeneric

/-- Where the path is in a text that is no URL. -/
inductive PathIn (path : String) (text : List Char) : Prop
  /-- After the colon of an scp-like address. -/
  | scp {auth raw : List Char} (htext : text = auth ++ ':' :: raw) (hcolon : ':' ∉ auth)
      (hclean : cleanPath (String.ofList raw) = path)
  /-- After the authority. -/
  | authority {start auth raw : List Char} (htext : text = start ++ ':' :: '/' :: '/' :: (auth ++ '/' :: raw))
      (hauth : auth ≠ [] ∧ '/' ∉ auth) (hclean : cleanPath (String.ofList raw) = path)

theorem pathIn_of_parseText {text : List Char} {scheme : Scheme} {user : Option String}
    {query : List (String × String)} (hpath : path ≠ "")
    (h : ParsedRepo.parseText text = .remote scheme user "github.com" path query) : PathIn path text := by
  unfold ParsedRepo.parseText at h
  split at h
  · split at h
    · rename_i auth raw hscp
      obtain ⟨heq, hcolon⟩ := eq_append_of_splitFirst (Option.filter_eq_some_iff.mp hscp).1
      exact .scp heq hcolon (ParsedRepo.remote.inj h).2.2.2.1
    · cases h
  · rename_i start rest hsplit
    have heq := eq_append_of_splitAtText hsplit
    cases hslash : splitFirst '/' rest with
    | none =>
      have hempty : cleanPath (String.ofList []) = "" := by decide
      simp only [hslash, Option.getD_none, ParsedRepo.remote.injEq] at h
      exact absurd (h.2.2.2.1.symm.trans hempty) hpath
    | some p =>
      obtain ⟨auth, raw⟩ := p
      obtain ⟨hrest, hauth⟩ := eq_append_of_splitFirst hslash
      simp only [hslash, Option.getD_some, ParsedRepo.remote.injEq] at h
      have hne : auth ≠ [] := by
        rintro rfl
        exact absurd h.2.2.1 (by decide)
      exact .authority (by rw [heq, hrest]; rfl) ⟨hne, hauth⟩ h.2.2.2.1

/-- The path is that of a URL with a host, or is found in the text. -/
theorem parse_cases {parse : String → Option Url} {url : String} {scheme : Scheme} {user : Option String}
    {query : List (String × String)} (hpath : path ≠ "")
    (h : ParsedRepo.parse parse url = .remote scheme user "github.com" path query) :
    (∃ u host, parse (trim url) = some u ∧ u.scheme ≠ "file" ∧ u.host = some host ∧
      host.toList.map Char.toLower = "github.com".toList ∧ cleanPath u.path = path) ∨
    (∀ u, parse (trim url) = some u → u.host = none) ∧ PathIn path (trim url).toList := by
  cases hu : parse (trim url) with
  | none =>
    rw [ParsedRepo.parse, hu] at h
    exact .inr ⟨fun u hu => (by cases hu), pathIn_of_parseText hpath h⟩
  | some u =>
    rw [ParsedRepo.parse, hu] at h
    by_cases hfile : u.scheme = "file"
    · simp only [hfile, if_true] at h
      cases h
    · simp only [if_neg hfile] at h
      cases hhost : u.host with
      | none =>
        rw [hhost] at h
        exact .inr ⟨fun u' hu' => Option.some.inj hu' ▸ hhost, pathIn_of_parseText hpath h⟩
      | some host =>
        rw [hhost] at h
        obtain ⟨-, -, hlower, hclean, -⟩ := ParsedRepo.remote.inj h
        refine .inl ⟨u, host, rfl, hfile, hhost, ?_, hclean⟩
        have := congrArg String.toList hlower
        rwa [String.toList_ofList] at this

end Evaluator

/-! ### What the other two read -/

section Readers

variable {p : UrlParser} {url : String} {owner repo : List Char}

theorem scp_toList : "git@github.com:".toList = "git@github.com".toList ++ [':'] := by decide

theorem stripPrefix_cases (start : String) (l : List Char) :
    (∃ rest, stripPrefix start (String.ofList l) = some rest ∧ l = start.toList ++ rest.toList) ∨
      stripPrefix start (String.ofList l) = none ∧ ∀ rest, l ≠ start.toList ++ rest := by
  cases hs : stripPrefix start (String.ofList l) with
  | some rest =>
    have := congrArg String.toList (eq_append_of_stripPrefix hs)
    rw [String.toList_ofList, String.toList_append] at this
    exact .inl ⟨rest, rfl, this⟩
  | none =>
    refine .inr ⟨rfl, ?_⟩
    rintro rest rfl
    have hstrip := stripPrefix_append start (String.ofList rest)
    rw [String.ofList_append, String.ofList_toList, hstrip] at hs
    cases hs

theorem bind_ownerRepo_iff (ho : '/' ∉ owner) {forge host path : List Char} :
    ((normalizeRepoPath path).map fun path => ({ host := host, path := path } : ForgeUrl)).bind
        (fun u => if u.host = forge then u.ownerRepo else none) = some (String.ofList owner, String.ofList repo) ↔
      host = forge ∧ normalizeRepoPath path = some (owner ++ '/' :: repo) := by
  cases hpath : normalizeRepoPath path with
  | none => simp
  | some =>
    rw [Option.map_some, Option.bind_some, Option.some_inj]
    by_cases hhost : host = forge
    · rw [if_pos hhost, ownerRepo_iff ho, and_iff_right hhost]
    · rw [if_neg hhost]
      simp [hhost]

variable {u : Url}

theorem parseGithubRepo_url (ho : '/' ∉ owner) {host : String} (hu : p.parse (trim url) = some u)
    (hhost : u.host = some host) (hlower : host.toList.map Char.toLower = "github.com".toList) :
    parseGithubRepo p.parse url = some (String.ofList owner, String.ofList repo) ↔
      normalizeRepoPath u.path.toList = some (owner ++ '/' :: repo) := by
  have hne : trim url ≠ "" := by
    intro hempty
    rw [hempty, p.empty] at hu
    cases hu
  rw [parseGithubRepo, ForgeUrl.parse, if_neg hne, hu]
  dsimp only
  rw [hhost, Option.bind_some, hlower, bind_ownerRepo_iff ho, and_iff_right rfl]

variable {auth raw : List Char}

theorem parseGithubRepo_scp (ho : '/' ∉ owner) (hu : p.parse (trim url) = none)
    (htext : (trim url).toList = auth ++ ':' :: raw) (hcolon : ':' ∉ auth) :
    parseGithubRepo p.parse url = some (String.ofList owner, String.ofList repo) ↔
      (∃ host, auth = "git@".toList ++ host ∧ host.map Char.toLower = "github.com".toList) ∧
        normalizeRepoPath raw = some (owner ++ '/' :: repo) := by
  have hne : trim url ≠ "" := by
    intro hempty
    rw [hempty] at htext
    exact absurd htext.symm (by simp)
  rw [parseGithubRepo, ForgeUrl.parse, if_neg hne, hu]
  dsimp only
  rw [htext, splitFirst_append hcolon, Option.bind_some]
  dsimp only
  rcases stripPrefix_cases "git@" auth with ⟨host, hstrip, hauth⟩ | ⟨hstrip, hauth⟩
  · rw [hstrip, Option.bind_some, bind_ownerRepo_iff ho]
    refine and_congr_left fun _ => ⟨fun h => ⟨host.toList, hauth, h⟩, ?_⟩
    rintro ⟨host', hauth', h⟩
    rwa [List.append_cancel_left (hauth.symm.trans hauth')]
  · rw [hstrip, Option.bind_none]
    exact iff_of_false (fun h => by cases h) fun ⟨⟨host, h, _⟩, _⟩ => hauth host h

/-- **The slug of a URL** is that of its text without `.git`. -/
theorem githubRepositorySlug_url (ho : '/' ∉ owner) (hu : p.parse (trim url) = some u) :
    githubRepositorySlug p.parse url = some (String.ofList owner ++ "/" ++ String.ofList repo) ↔
      ∃ cut, p.parse (String.ofList (Strip.trimEnd git (trim url).toList)) = some cut ∧
        cut.host = some "github.com" ∧ segments cut.path.toList = [owner, repo] := by
  have hstrip : stripPrefix "git@github.com:" (String.ofList (Strip.trimEnd git (trim url).toList)) = none := by
    rcases stripPrefix_cases "git@github.com:" (Strip.trimEnd git (trim url).toList) with ⟨rest, -, hcut⟩ | ⟨hstrip, -⟩
    · -- then the URL itself starts so, and does not parse
      obtain ⟨k, hk⟩ := @Strip.exists_trimEnd _ git _ (trim url).toList
      have htext : (trim url).toList = "git@github.com".toList ++ ':' :: (rest.toList ++ Strip.copies git k) := by
        rw [hk, hcut, scp_toList]
        simp only [List.append_assoc, List.cons_append, List.nil_append]
      have hnone := p.scheme htext (by decide) (by decide)
      rw [hu] at hnone
      cases hnone
    · exact hstrip
  rw [githubRepositorySlug, slugOf, hstrip]
  dsimp only
  cases hcut : p.parse (String.ofList (Strip.trimEnd git (trim url).toList)) with
  | none => simp
  | some cut =>
    dsimp only
    by_cases hhost : cut.host = some "github.com"
    · rw [if_pos hhost, ownerRepoFromPath_iff ho, segments_dropWhile]
      exact ⟨fun h => ⟨cut, rfl, hhost, h⟩, fun ⟨_, hc, _, h⟩ => Option.some.inj hc ▸ h⟩
    · rw [if_neg hhost]
      refine iff_of_false (by simp) ?_
      rintro ⟨cut', hc, hhost', -⟩
      exact hhost (Option.some.inj hc ▸ hhost')

theorem githubRepositorySlug_scp (ho : '/' ∉ owner)
    (htext : (trim url).toList = auth ++ ':' :: raw) (hcolon : ':' ∉ auth) (hat : '@' ∈ auth) (hslash : '/' ∈ raw) :
    githubRepositorySlug p.parse url = some (String.ofList owner ++ "/" ++ String.ofList repo) ↔
      auth = "git@github.com".toList ∧ segments (Strip.trimEnd git raw) = [owner, repo] := by
  have hcut : Strip.trimEnd git (trim url).toList = auth ++ ':' :: Strip.trimEnd git raw := by
    have := @Strip.trimEnd_append_of_mem _ git _ git_ne_nil (auth ++ [':']) raw '/' hslash slash_notMem_git
    rw [htext]
    simpa using this
  have hparse : p.parse (String.ofList (auth ++ ':' :: Strip.trimEnd git raw)) = none :=
    p.scheme (String.toList_ofList) hcolon hat
  rw [githubRepositorySlug, hcut, slugOf]
  rcases stripPrefix_cases "git@github.com:" (auth ++ ':' :: Strip.trimEnd git raw) with ⟨rest, hstrip, h⟩ | ⟨hstrip, h⟩
  · rw [scp_toList, List.append_assoc, List.singleton_append] at h
    obtain ⟨hauth, hrest⟩ := splitFirst_inj hcolon (by decide) h
    simp only [hstrip]
    rw [ownerRepoFromPath_iff ho, hrest, and_iff_right hauth]
  · simp only [hstrip, hparse]
    refine iff_of_false (fun h => by cases h) ?_
    rintro ⟨rfl, -⟩
    refine h (Strip.trimEnd git raw) ?_
    rw [scp_toList, List.append_assoc, List.singleton_append]

/-- What follows the first colon has the authority in it. -/
theorem exists_authority {start rest tail : List Char} (hcolon : ':' ∉ auth)
    (h : start ++ ':' :: '/' :: '/' :: tail = auth ++ ':' :: rest) : ∃ x, rest = x ++ '/' :: tail := by
  by_cases hstart : ':' ∈ start
  · obtain ⟨a, b, rfl, ha⟩ := List.eq_append_cons_of_mem hstart
    rw [List.append_assoc, List.cons_append] at h
    obtain ⟨-, hrest⟩ := splitFirst_inj ha hcolon h
    exact ⟨b ++ [':', '/'], by simp [← hrest]⟩
  · obtain ⟨-, hrest⟩ := splitFirst_inj hstart hcolon h
    exact ⟨['/'], by simp [← hrest]⟩

/-- The notifications do not see past an authority. -/
theorem normalizeRepoPath_ne_of_authority {x : List Char} (ho : owner ≠ [] ∧ '/' ∉ owner)
    (hr : repo ≠ [] ∧ '/' ∉ repo) (hauth : auth ≠ [] ∧ '/' ∉ auth) (hraw : 2 ≤ (segments raw).length) :
    normalizeRepoPath (x ++ '/' :: (auth ++ '/' :: raw)) ≠ some (owner ++ '/' :: repo) := by
  intro h
  obtain ⟨-, lead, k, hlead, hpath⟩ := (normalizeRepoPath_iff ho).mp h
  have hsegs := congrArg (fun l => (segments l).length) hpath
  rw [List.append_assoc owner, List.cons_append, segments_slashes _ hlead, segments_pair ho (copies_segment hr k),
    segments_append_slash, segments_append_slash, segments_single hauth.2 hauth.1] at hsegs
  simp only [List.length_append, List.length_cons, List.length_nil] at hsegs
  omega

theorem slash_mem_of_plainly {path : List Char} (h : Plainly owner repo path) : '/' ∈ path := by
  obtain ⟨lead, -, rfl | rfl⟩ := h <;> simp

/-- Without its `.git` a plain path is owner and repository. -/
theorem segments_trimEnd_of_plainly {path : List Char} (ho : owner ≠ [] ∧ '/' ∉ owner) (hr : repo ≠ [] ∧ '/' ∉ repo)
    (hgit : ¬ git <:+ repo) (h : Plainly owner repo path) : segments (Strip.trimEnd git path) = [owner, repo] := by
  have hbare : Strip.trimEnd git (owner ++ '/' :: repo) = owner ++ '/' :: repo :=
    Strip.trimEnd_of_not_suffix fun hs => hgit (git_suffix_iff.mp hs)
  have hcut : ∃ lead, IsSlashes lead ∧ Strip.trimEnd git path = lead ++ (owner ++ '/' :: repo) := by
    obtain ⟨lead, hlead, rfl | rfl⟩ := h
    · refine ⟨lead, hlead, ?_⟩
      rw [Strip.trimEnd_append_of_mem git_ne_nil (x := '/') (by simp) slash_notMem_git, hbare]
    · refine ⟨lead, hlead, ?_⟩
      rw [Strip.trimEnd_append_of_mem git_ne_nil (x := '/') (by simp) slash_notMem_git, Strip.trimEnd_append git_ne_nil,
        hbare]
  obtain ⟨lead, hlead, hcut⟩ := hcut
  rw [hcut, segments_slashes _ hlead, segments_pair ho hr]

/-- On a text that is no URL: only `git@github.com:` is read alike. -/
theorem agrees_iff_of_text {path : String} (ho : owner ≠ [] ∧ '/' ∉ owner) (hr : repo ≠ [] ∧ '/' ∉ repo)
    (hu : p.parse (trim url) = none) (hin : PathIn path (trim url).toList)
    (hsegs : segments path.toList = [owner, repo]) :
    (parseGithubRepo p.parse url = some (String.ofList owner, String.ofList repo) ∧
      githubRepositorySlug p.parse url = some (String.ofList owner ++ "/" ++ String.ofList repo)) ↔
      ¬ git <:+ repo ∧ Agreed p owner repo (trim url) := by
  constructor
  · rintro ⟨hnotify, hslug⟩
    have hmem : ':' ∈ (trim url).toList := by
      cases hin with
      | scp htext | authority htext => simp [htext]
    obtain ⟨auth, raw, htext, hcolon⟩ := List.eq_append_cons_of_mem hmem
    obtain ⟨⟨host, hauth, -⟩, hraw⟩ := (parseGithubRepo_scp ho.2 hu htext hcolon).mp hnotify
    cases hin with
    | scp htext' hcolon' hclean =>
      obtain ⟨rfl, rfl⟩ := splitFirst_inj hcolon hcolon' (htext.symm.trans htext')
      have hplain : ¬ git <:+ repo ∧ Plainly owner repo raw := by
        have := (@plainly_iff owner repo (String.ofList raw) ho hr (by rw [hclean, hsegs])).mp
        rw [String.toList_ofList] at this
        exact this hraw
      have hat : '@' ∈ auth := by
        rw [hauth]
        exact List.mem_append_left _ (by decide)
      obtain ⟨hgithub, -⟩ :=
        (githubRepositorySlug_scp ho.2 htext hcolon hat (slash_mem_of_plainly hplain.2)).mp hslug
      exact ⟨hplain.1, .scp hu (by rw [htext, hgithub, scp_toList, List.append_assoc, List.singleton_append]) hplain.2⟩
    | @authority _ _ raw' htext' hauth' hclean =>
      obtain ⟨x, rfl⟩ := exists_authority hcolon (htext'.symm.trans htext)
      refine absurd hraw (normalizeRepoPath_ne_of_authority ho hr hauth' ?_)
      have := length_segments_cleanPath_le (String.ofList raw')
      rw [hclean, hsegs, String.toList_ofList] at this
      exact this
  · rintro ⟨hgit, hagreed⟩
    cases hagreed with
    | url hu' | dotGit hu' =>
      rw [hu] at hu'
      cases hu'
    | @scp raw _ htext hplain =>
      rw [scp_toList, List.append_assoc, List.singleton_append] at htext
      have hcolon : ':' ∉ "git@github.com".toList := by decide
      refine ⟨(parseGithubRepo_scp ho.2 hu htext hcolon).mpr ⟨⟨"github.com".toList, by decide, by decide⟩,
        normalizeRepoPath_of_plainly ho hgit hplain⟩, ?_⟩
      exact (githubRepositorySlug_scp ho.2 htext hcolon (by decide) (slash_mem_of_plainly hplain)).mpr
        ⟨rfl, segments_trimEnd_of_plainly ho hr hgit hplain⟩

/-- On a URL they agree by its host and its path. -/
theorem agreed_iff_of_url {text : String} (hu : p.parse text = some u) :
    Agreed p owner repo text ↔ u.host = some "github.com" ∧ ∃ lead, IsSlashes lead ∧
      (u.path.toList = lead ++ (owner ++ '/' :: repo) ∨
        u.path.toList = lead ++ (owner ++ '/' :: repo ++ git) ∧ git <:+ text.toList ∧
          ¬ ('?' ∈ text.toList ∨ '#' ∈ text.toList) ∧ Settled (Strip.trimEnd git text.toList) [owner, repo]) := by
  constructor
  · intro h
    cases h with
    | url hu' hhost hlead hpath =>
      cases hu.symm.trans hu'
      exact ⟨hhost, _, hlead, .inl hpath⟩
    | dotGit hu' hhost hlead hpath htext hquery hsettled =>
      cases hu.symm.trans hu'
      exact ⟨hhost, _, hlead, .inr ⟨hpath, htext, hquery, hsettled⟩⟩
    | scp hu' => cases hu.symm.trans hu'
  · rintro ⟨hhost, lead, hlead, hpath | ⟨hpath, htext, hquery, hsettled⟩⟩
    · exact .url hu hhost hlead hpath
    · exact .dotGit hu hhost hlead hpath htext hquery hsettled

/-- **The slug and the path**: a URL with a plain path is one also without its `.git`s, on the same host. Its path is
then that of owner and repository if it was, or if the `.git` went. -/
theorem exists_cut {text : String} {lead : List Char} (ho : owner ≠ [] ∧ '/' ∉ owner) (hr : repo ≠ [] ∧ '/' ∉ repo)
    (hgit : ¬ git <:+ repo) (hu : p.parse text = some u) (hfile : u.scheme ≠ "file") (hhost : u.host ≠ none)
    (hlead : IsSlashes lead)
    (hpath : u.path.toList = lead ++ (owner ++ '/' :: repo) ∨ u.path.toList = lead ++ (owner ++ '/' :: repo ++ git)) :
    ∃ cut, p.parse (String.ofList (Strip.trimEnd git text.toList)) = some cut ∧ cut.host = u.host ∧
      (segments cut.path.toList = [owner, repo] ↔ u.path.toList = lead ++ (owner ++ '/' :: repo) ∨
        git <:+ text.toList ∧ ¬ ('?' ∈ text.toList ∨ '#' ∈ text.toList) ∧
          Settled (Strip.trimEnd git text.toList) [owner, repo]) := by
  have hnot := Strip.not_suffix_trimEnd git_ne_nil text.toList
  obtain ⟨k, hk⟩ := @Strip.exists_trimEnd _ git _ text.toList
  generalize Strip.trimEnd git text.toList = start at hk hnot ⊢
  have htext : p.parse (String.ofList (start ++ Strip.copies git k)) = some u := by rw [← hk, String.ofList_toList, hu]
  have hbare : ∀ {x : List Char}, x ++ git ≠ lead ++ (owner ++ '/' :: repo) := fun {x} hx => by
    rw [← List.append_assoc] at hx
    exact hgit (git_suffix_iff.mp ⟨x, hx⟩)
  have hsegs : segments (lead ++ (owner ++ '/' :: repo)) = [owner, repo] := by
    rw [segments_slashes _ hlead, segments_pair ho hr]
  have hsegs' : segments (lead ++ (owner ++ '/' :: repo ++ git)) = [owner, repo ++ git] := by
    rw [segments_slashes _ hlead, List.append_assoc, List.cons_append,
      segments_pair ho (by simpa [Strip.copies] using copies_segment hr 1)]
  -- where the path is read as it was, it must not have a `.git`
  have hsame : ∀ {cut : Url}, cut.path = u.path → (git <:+ text.toList → '?' ∈ text.toList ∨ '#' ∈ text.toList) →
      (segments cut.path.toList = [owner, repo] ↔ u.path.toList = lead ++ (owner ++ '/' :: repo) ∨
        git <:+ text.toList ∧ ¬ ('?' ∈ text.toList ∨ '#' ∈ text.toList) ∧ Settled start [owner, repo]) := by
    intro cut hcp hmarks
    rw [hcp, or_iff_left fun h => h.2.1 (hmarks h.1)]
    rcases hpath with hpath | hpath
    · exact iff_of_true (hpath ▸ hsegs) hpath
    · rw [hpath, hsegs', ← List.append_assoc]
      exact iff_of_false (by simp [git]) hbare
  cases k with
  | zero =>
    rw [Strip.copies_zero, List.append_nil] at htext hk
    exact ⟨u, htext, rfl, hsame rfl fun ht => absurd (hk ▸ ht) hnot⟩
  | succ k =>
    have hmem : ∀ {c : Char}, c ∉ git → (c ∈ text.toList ↔ c ∈ start) := fun hc => by
      rw [hk, List.mem_append, or_iff_left fun h => hc (Strip.mem_of_mem_copies h)]
    have hmarks : '?' ∈ text.toList ∨ '#' ∈ text.toList ↔ '?' ∈ start ∨ '#' ∈ start :=
      or_congr (hmem (by decide)) (hmem (by decide))
    by_cases hq : '?' ∈ start ∨ '#' ∈ start
    · obtain ⟨cut, hcut, hch, hcp⟩ := p.query htext hq
      exact ⟨cut, hcut, hch, hsame hcp fun _ => hmarks.mpr hq⟩
    · have hne : segments u.path.toList ≠ [] := by
        rcases hpath with hpath | hpath
        · rw [hpath, hsegs]
          exact List.cons_ne_nil _ _
        · rw [hpath, hsegs']
          exact List.cons_ne_nil _ _
      obtain ⟨path, cut, hy, hcut, hch, hset, hunset⟩ := p.path htext hq hfile hhost hne
      rw [Strip.copies_succ, ← List.append_assoc] at hy
      rcases hpath with hpath | hpath
      · exact absurd (hy.symm.trans hpath) hbare
      · -- the path without its `.git`, of which there is one
        rw [hy, ← List.append_assoc] at hpath
        replace hpath := List.append_cancel_right hpath
        obtain rfl : k = 0 := by
          cases k with
          | zero => rfl
          | succ =>
            rw [Strip.copies_succ, ← List.append_assoc] at hpath
            exact absurd hpath hbare
        rw [Strip.copies_zero, List.append_nil] at hpath
        rw [hpath, hsegs] at hset hunset
        refine ⟨cut, hcut, hch, ?_⟩
        rw [or_iff_right (hy ▸ hbare), and_iff_right ⟨start, by rw [hk]; rfl⟩, and_iff_right (hmarks.not.mpr hq)]
        exact ⟨fun hs => by_contra fun hno => hunset hno hs, fun h => by rw [hset h, hsegs]⟩

end Readers

/-- **The repository is the same everywhere** exactly for these URLs. For every URL that the evaluator maps to GitHub,
the notifications and the scheduler succeed and give its owner and repository if and only if the repository does not
end in `.git` and the URL is one they agree on. -/
theorem repository_agrees_iff {p : UrlParser} {url rev path : String} {checkout : Except CiError String}
    {owner repo : List Char}
    (hmap : (ParsedRepo.parse p.parse url).intoFlakeRef rev checkout = .ok (forgeRef .github path rev))
    (hsegs : segments path.toList = [owner, repo]) :
    (parseGithubRepo p.parse url = some (String.ofList owner, String.ofList repo) ∧
      githubRepositorySlug p.parse url = some (String.ofList owner ++ "/" ++ String.ofList repo)) ↔
      ¬ git <:+ repo ∧ Agreed p owner repo (trim url) := by
  have ho : owner ≠ [] ∧ '/' ∉ owner := mem_segments (hsegs ▸ List.mem_cons_self)
  have hr : repo ≠ [] ∧ '/' ∉ repo := mem_segments (hsegs ▸ List.mem_cons_of_mem _ List.mem_cons_self)
  have hpath : path ≠ "" := by
    rintro rfl
    cases hsegs
  obtain ⟨scheme, user, query, hparsed⟩ := of_forgeRef hmap
  rcases parse_cases hpath hparsed with ⟨u, host, hu, hfile, hhost, hlower, rfl⟩ | ⟨hnone, hin⟩
  · -- a URL with a host
    rw [parseGithubRepo_url ho.2 hu hhost hlower, githubRepositorySlug_url ho.2 hu, plainly_iff ho hr hsegs, and_assoc]
    rw [agreed_iff_of_url hu]
    refine and_congr_right fun hgit => ⟨?_, ?_⟩
    · rintro ⟨⟨lead, hlead, hpath⟩, cut, hcut, hgithub, hs⟩
      obtain ⟨cut', hcut', hch, hiff⟩ := exists_cut ho hr hgit hu hfile (by simp [hhost]) hlead hpath
      cases hcut.symm.trans hcut'
      refine ⟨hch ▸ hgithub, lead, hlead, hpath.imp_right fun h => ⟨h, (hiff.mp hs).resolve_left fun h' => ?_⟩⟩
      simp [h, git] at h'
    · rintro ⟨hgithub, lead, hlead, hpath⟩
      have hpath' := hpath.imp_right And.left
      obtain ⟨cut, hcut, hch, hiff⟩ := exists_cut ho hr hgit hu hfile (by simp [hhost]) hlead hpath'
      exact ⟨⟨lead, hlead, hpath'⟩, cut, hcut, hch.trans hgithub, hiff.mpr (hpath.imp_right And.right)⟩
  · cases hu : p.parse (trim url) with
    | some u =>
      -- a URL without a host: the notifications give up
      have hhost := hnone u hu
      have hno : parseGithubRepo p.parse url = none := by
        rw [parseGithubRepo, ForgeUrl.parse]
        split_ifs
        · rfl
        · rw [hu]
          dsimp only
          rw [hhost]
          rfl
      refine iff_of_false ?_ ?_
      · rintro ⟨h, -⟩
        rw [hno] at h
        cases h
      · rintro ⟨-, hagreed⟩
        have hhost' := ((agreed_iff_of_url hu).mp hagreed).1
        rw [hhost] at hhost'
        cases hhost'
    | none => exact agrees_iff_of_text ho hr hu hin hsegs

def githubUrl (path : String) (query : List (String × String)) : Url where
  scheme := "https"
  username := ""
  host := some "github.com"
  path := path
  query := query

/-- What the texts with an `https` in front parse as. -/
def tableOf (table : List (String × Url)) (text : String) : Option Url :=
  if "https:".toList <+: text.toList then table.lookup text else none

theorem tableOf_scheme {table : List (String × Url)} {text : String} {start rest : List Char}
    (h : text.toList = start ++ ':' :: rest) (hcolon : ':' ∉ start) (hat : '@' ∈ start) :
    tableOf table text = none := by
  refine if_neg ?_
  rintro ⟨tail, htail⟩
  have hsplit : "https".toList ++ ':' :: tail = start ++ ':' :: rest := htail.trans h
  obtain ⟨rfl, -⟩ := splitFirst_inj (by decide) hcolon hsplit
  revert hat
  decide

instance (start : List Char) (segs : List (List Char)) : Decidable (Settled start segs) :=
  inferInstanceAs (Decidable (_ ∧ _))

/-- A text of the table that ends in `.git` is there without it. -/
def Closed (table : List (String × Url)) (e : String × Url) : Prop :=
  git <:+ e.1.toList → e.1.toList = Strip.trimEnd git e.1.toList ++ git ∧
    ¬ ('?' ∈ Strip.trimEnd git e.1.toList ∨ '#' ∈ Strip.trimEnd git e.1.toList) ∧
    ∃ cut ∈ tableOf table (String.ofList (Strip.trimEnd git e.1.toList)), cut.host = e.2.host ∧
      e.2.path.toList = cut.path.toList ++ git ∧ Settled (Strip.trimEnd git e.1.toList) (segments cut.path.toList)

instance (table : List (String × Url)) (e : String × Url) : Decidable (Closed table e) :=
  inferInstanceAs (Decidable (_ → _))

theorem eq_of_tableOf {table : List (String × Url)} (h : ∀ e ∈ table, Closed table e) {start : List Char} {k : ℕ}
    {u : Url} (hu : tableOf table (String.ofList (start ++ Strip.copies git (k + 1))) = some u) :
    k = 0 ∧ ¬ ('?' ∈ start ∨ '#' ∈ start) ∧ ∃ cut ∈ tableOf table (String.ofList start), cut.host = u.host ∧
      u.path.toList = cut.path.toList ++ git ∧ Settled start (segments cut.path.toList) := by
  unfold tableOf at hu
  split_ifs at hu
  obtain ⟨l₁, l₂, heq, -⟩ := List.lookup_eq_some_iff.mp hu
  have hclosed : Closed table (_, u) := h _ (by rw [heq]; exact List.mem_append_right _ List.mem_cons_self)
  rw [Closed, String.toList_ofList, Strip.copies_succ, ← List.append_assoc] at hclosed
  obtain ⟨htext, hmarks, hcut⟩ := hclosed ⟨_, rfl⟩
  have hstart := List.append_cancel_right htext
  have hnot := Strip.not_suffix_trimEnd git_ne_nil (start ++ Strip.copies git k ++ git)
  rw [← hstart] at hnot hmarks hcut
  cases k with
  | zero =>
    rw [Strip.copies_zero, List.append_nil] at hmarks hcut
    exact ⟨rfl, hmarks, hcut⟩
  | succ =>
    rw [Strip.copies_succ, ← List.append_assoc] at hnot
    exact absurd ⟨_, rfl⟩ hnot

def parserOf (table : List (String × Url)) (h : ∀ e ∈ table, Closed table e) : UrlParser where
  parse := tableOf table
  empty := if_neg (by decide)
  scheme := tableOf_scheme
  query hu hq := absurd hq (eq_of_tableOf h hu).2.1
  path hu _ _ _ _ := by
    obtain ⟨rfl, -, cut, hcut, hhost, hpath, hsettled⟩ := eq_of_tableOf h hu
    exact ⟨_, cut, by simpa [Strip.copies] using hpath, hcut, hhost, fun _ => rfl, fun hno => absurd hsettled hno⟩

def withGit : UrlParser := parserOf
  [("https://github.com/owner/repo.git", githubUrl "/owner/repo.git" []),
    ("https://github.com/owner/repo", githubUrl "/owner/repo" [])] (by decide +kernel)

theorem repository_agrees_iff_git :
    parseGithubRepo withGit.parse "https://github.com/owner/repo.git" = some ("owner", "repo") ∧
      githubRepositorySlug withGit.parse "https://github.com/owner/repo.git" = some ("owner" ++ "/" ++ "repo") := by
  have htrim : trim "https://github.com/owner/repo.git" = "https://github.com/owner/repo.git" := by decide +kernel
  refine (@repository_agrees_iff withGit "https://github.com/owner/repo.git" "c0ffee" "owner/repo" (.ok "")
    "owner".toList "repo".toList (by decide +kernel) (by decide +kernel)).mpr ⟨by decide, ?_⟩
  rw [htrim]
  exact @Agreed.dotGit _ _ _ _ (githubUrl "/owner/repo.git" []) ['/'] rfl rfl (fun c hc => List.mem_singleton.mp hc)
    (by decide +kernel) (by decide +kernel) (by decide +kernel) (by decide +kernel)

def withMore : UrlParser := parserOf
  [("https://github.com/owner/repo/", githubUrl "/owner/repo/" []),
    ("https://github.com/owner/repo.git?ref=main", githubUrl "/owner/repo.git" [("ref", "main")])] (by decide +kernel)

/-- With a slash at the end the statuses are not for the repository that is built. With an attribute the scheduler
keeps the `.git`. -/
theorem readers_differ :
    ((ParsedRepo.parse withMore.parse "https://github.com/owner/repo/").intoFlakeRef "c0ffee" (.ok "") =
        .ok (forgeRef .github "owner/repo" "c0ffee") ∧
      parseGithubRepo withMore.parse "https://github.com/owner/repo/" = some ("owner", "repo/")) ∧
    (ParsedRepo.parse withMore.parse "https://github.com/owner/repo.git?ref=main").intoFlakeRef "c0ffee" (.ok "") =
        .ok (forgeRef .github "owner/repo" "c0ffee") ∧
      githubRepositorySlug withMore.parse "https://github.com/owner/repo.git?ref=main" = some "owner/repo.git" := by
  refine ⟨⟨?_, ?_⟩, ?_, ?_⟩
  · decide +kernel
  · decide +kernel
  · decide +kernel
  · decide +kernel

end Circus.Repositories
