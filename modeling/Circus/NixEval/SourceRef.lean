/-
# What a source reference keeps of the repository

`source_flake_ref` of `crates/evaluator/src/nix/flake_ref.rs` writes a
repository without a shorthand as a `git+` reference at a revision.
`readReference` takes such a text apart again, and `Keeps` compares the parts
with those of the URL.

The URL is as `Url::parse` returns it, with its parts delimited
(`ParsedUrl`). Its port is not written, `git` becomes `ssh`, a scheme that has
its `git+` already gets another, and the host of a `file` URL is dropped with
the path. Everything else is kept (`source_kept_iff`).
-/
import Circus.NixEval.Evaluate
import Circus.NixEval.Query
import Circus.NixEval.RepoPath

namespace Circus.NixEval

open Cache (splitFirst splitFirst_append splitFirst_eq_none trim)
open Evaluator.Webhooks (stripPrefix stripPrefix_append eq_append_of_stripPrefix)

/-! ### References -/

/-- The colons of a host are in brackets. -/
structure PlainHost (host : List Char) : Prop where
  ne_nil : host ≠ []
  plain : Uri.Plain host
  no_at : '@' ∉ host
  colon : ':' ∈ host → host.getLast? = some ']'

/-- A URL as `Url::parse` returns it. -/
structure ParsedUrl extends Url where
  /-- `Url::port`. -/
  port : Option ℕ
  isScheme : Uri.IsScheme scheme.toList
  lower : scheme.toList.map Char.toLower = scheme.toList
  plainUser : Uri.Plain username.toList ∧ '@' ∉ username.toList
  plainHost : ∀ h ∈ host, PlainHost h.toList
  plainPath : ∀ c ∈ path.toList, Uri.isQueryStart c = false

structure Reference where
  scheme : List Char
  host : List Char
  port : Option ℕ
  path : List Char
  query : List (String × String)
  deriving DecidableEq

/-- The port is after the last colon, unless that is in brackets. -/
def splitPort (hostport : List Char) : List Char × Option ℕ :=
  if hostport.getLast? = some ']' then (hostport, none)
  else
    match splitFirst ':' hostport.reverse with
    | some (port, host) => (host.reverse, (String.ofList port.reverse).toNat?)
    | none => (hostport, none)

/-- The query of the tail of a URI. -/
def queryOf (tail : List Char) : List Char :=
  match tail.dropWhile fun c => !Uri.isQueryStart c with
  | '?' :: query => query.takeWhile (· ≠ '#')
  | _ => []

def readReference (text : String) : Option Reference :=
  (Uri.parts text.toList).bind fun p =>
    let hostport := (splitFirst '@' p.authority).elim p.authority Prod.snd
    (readQuery (queryOf p.tail)).map fun query => {
      scheme := p.scheme
      host := (splitPort hostport).1
      port := (splitPort hostport).2
      path := Uri.withoutQuery p.tail
      query := query }

/-! ### What is kept -/

/-- The protocol under a scheme: `https` for `https` and for `git+https`. -/
def transport (scheme : String) : String := (stripPrefix "git+" scheme).getD scheme

/-- The reference is that of the URL at the revision. -/
structure Keeps (u : ParsedUrl) (host rev : String) (ref : Reference) : Prop where
  transport : ref.scheme = ("git+" ++ transport u.scheme).toList
  host : ref.host = host.toList.map Char.toLower
  port : ref.port = u.port
  path : SamePath u.path.toList ref.path
  query : (ref.query.filter fun p => p.1 ≠ "rev") = u.query.filter fun p => p.1 ≠ "rev"
  rev : (ref.query.filter fun p => p.1 = "rev") = [("rev", rev)]

/-- A scheme whose protocol the reference has. -/
structure KeptScheme (scheme : String) : Prop where
  not_file : scheme ≠ "file"
  not_git : scheme ≠ "git"
  once : ∀ rest, scheme = "git+" ++ rest → rest ∈ ["https", "http", "ssh"]

def HasShorthand (u : ParsedUrl) (host : String) : Prop :=
  String.ofList (host.toList.map Char.toLower) ∈ ["github.com", "gitlab.com", "git.sr.ht"] ∧
    (segments (cleanPath u.path).toList).length = 2 ∧ ∀ p ∈ u.query, p.1 ∈ ["ref", "rev"]

section Reading

/-! ### Reading a reference -/

theorem splitPort_of_plainHost {host : List Char} (h : PlainHost host) : splitPort host = (host, none) := by
  by_cases hlast : host.getLast? = some ']'
  · exact if_pos hlast
  · have hcolon : ':' ∉ host.reverse := fun hc => hlast (h.colon (List.mem_reverse.mp hc))
    rw [splitPort, if_neg hlast, splitFirst_eq_none hcolon]

theorem queryOf_append {path query : List Char} (hp : ∀ c ∈ path, Uri.isQueryStart c = false) (hq : '#' ∉ query) :
    queryOf (path ++ '?' :: query) = query := by
  have hdrop : (path ++ '?' :: query).dropWhile (fun c => !Uri.isQueryStart c) = '?' :: query := by
    rw [List.dropWhile_append_of_pos fun c hc => by rw [hp c hc]; rfl]
    rfl
  rw [queryOf, hdrop]
  exact List.takeWhile_eq_self_iff.mpr fun c hc => by
    simpa using fun he : c = '#' => hq (he ▸ hc)

theorem withoutQuery_append {path query : List Char} (hp : ∀ c ∈ path, Uri.isQueryStart c = false) :
    Uri.withoutQuery (path ++ '?' :: query) = path := by
  rw [Uri.withoutQuery, List.takeWhile_append_of_pos fun c hc => by rw [hp c hc]; rfl]
  exact List.append_nil _

/-- What stands before the host. -/
inductive UserInfo : List Char → Prop
  | none : UserInfo []
  | user {u : List Char} (hplain : Uri.Plain u) (hat : '@' ∉ u) : UserInfo (u ++ ['@'])

theorem UserInfo.plain {l : List Char} (h : UserInfo l) : Uri.Plain l := by
  cases h with
  | none => exact fun _ hc => absurd hc List.not_mem_nil
  | user hplain =>
    intro c hc
    rcases List.mem_append.mp hc with h | h
    · exact hplain c h
    · rw [List.mem_singleton.mp h]
      rfl

/-- **A reference is read as it is written.** -/
theorem readReference_written {scheme userinfo host path : List Char} {query : List (String × String)}
    (hs : Uri.IsScheme scheme) (hu : UserInfo userinfo) (hh : PlainHost host)
    (hp : ∀ c ∈ path, Uri.isQueryStart c = false) :
    readReference (String.ofList (scheme ++ ':' :: '/' :: '/' :: (userinfo ++ host ++
      ('/' :: path ++ '?' :: (serialize query).toList)))) =
      some { scheme := scheme, host := host, port := none, path := '/' :: path, query := query } := by
  have hauth : Uri.Plain (userinfo ++ host) := fun c hc => by
    rcases List.mem_append.mp hc with h | h
    · exact hu.plain c h
    · exact hh.plain c h
  have hparts := Uri.parts_text ⟨scheme, userinfo ++ host, '/' :: path ++ '?' :: (serialize query).toList, hs, hauth,
    fun c hc => by cases hc; rfl⟩
  simp only [Uri.Parts.text] at hparts
  have hpath : ∀ c ∈ '/' :: path, Uri.isQueryStart c = false := by
    intro c hc
    rcases List.mem_cons.mp hc with rfl | h
    · rfl
    · exact hp c h
  have hhost : (splitFirst '@' (userinfo ++ host)).elim (userinfo ++ host) Prod.snd = host := by
    cases hu with
    | none => rw [List.nil_append, splitFirst_eq_none hh.no_at, Option.elim_none]
    | user hplain hat =>
      rw [List.append_assoc, List.singleton_append, splitFirst_append hat, Option.elim_some]
  rw [readReference, String.toList_ofList, hparts]
  simp only [Option.bind_some, hhost, splitPort_of_plainHost hh, queryOf_append hpath (hash_notMem_serialize query),
    readQuery_serialize, withoutQuery_append hpath, Option.map_some]

end Reading

section Writing

/-! ### Writing a reference -/

/-- Only letters have another lower case. -/
theorem eq_of_toLower {c d : Char} (hd : d.isLower = false) (h : c.toLower = d) : c = d := by
  subst h
  unfold Char.toLower at *
  split at hd
  next hc =>
    exfalso
    simp only [Char.isLower, UInt32.le_iff_toNat_le, Bool.and_eq_false_iff, decide_eq_false_iff_not] at hd hc
    simp at hd hc
    omega
  next hc => rw [dif_neg hc]

theorem mem_of_mem_map_toLower {c : Char} {l : List Char} (hc : c.isLower = false) (h : c ∈ l.map Char.toLower) :
    c ∈ l := by
  obtain ⟨d, hd, he⟩ := List.mem_map.mp h
  exact eq_of_toLower hc he ▸ hd

theorem PlainHost.map_toLower {host : List Char} (h : PlainHost host) : PlainHost (host.map Char.toLower) where
  ne_nil := by simpa using h.ne_nil
  plain c hc := by
    by_contra hd
    have hdelim : c = '/' ∨ c = '?' ∨ c = '#' := by
      rw [Bool.not_eq_false] at hd
      simpa [Uri.isDelim, or_assoc] using hd
    have hlower : c.isLower = false := by
      rcases hdelim with rfl | rfl | rfl <;> rfl
    exact hd (h.plain c (mem_of_mem_map_toLower hlower hc))
  no_at hc := h.no_at (mem_of_mem_map_toLower rfl hc)
  colon hc := by
    rw [List.getLast?_map, h.colon (mem_of_mem_map_toLower rfl hc)]
    rfl

/-- The scheme of the reference is that of the protocol exactly for these. -/
theorem gitPrefix_eq_iff {scheme : String} (hlower : scheme.toList.map Char.toLower = scheme.toList) :
    (Scheme.ofString scheme).gitPrefix = "git+" ++ transport scheme ↔
      scheme ≠ "git" ∧ ∀ rest, scheme = "git+" ++ rest → rest ∈ ["https", "http", "ssh"] := by
  have honce : (∀ rest, scheme = "git+" ++ rest → rest ∈ ["https", "http", "ssh"]) ↔
      ∀ rest ∈ stripPrefix "git+" scheme, rest ∈ ["https", "http", "ssh"] := by
    constructor
    · exact fun h rest hrest => h rest (eq_append_of_stripPrefix hrest)
    · rintro h rest rfl
      exact h rest (stripPrefix_append _ _)
  rw [honce]
  unfold Scheme.ofString
  simp only [hlower, String.ofList_toList]
  split_ifs with h1 h2 h3
  · rw [List.mem_cons, List.mem_singleton] at h1
    rcases h1 with rfl | rfl <;> decide
  · rw [List.mem_cons, List.mem_singleton] at h2
    rcases h2 with rfl | rfl <;> decide
  · rw [List.mem_cons, List.mem_cons, List.mem_singleton] at h3
    rcases h3 with rfl | rfl | rfl <;> decide
  · have hgit : scheme ≠ "git" := fun he => h3 (by simp [he])
    cases hs : stripPrefix "git+" scheme with
    | none => simp [transport, hs, Scheme.gitPrefix, hgit]
    | some rest =>
      obtain rfl := eq_append_of_stripPrefix hs
      refine iff_of_false (fun h => ?_) fun h => ?_
      · have hlen := congrArg (fun t : String => t.toList.length) h
        simp only [Scheme.gitPrefix, transport, hs, Option.getD_some, String.toList_append, List.length_append] at hlen
        revert hlen
        simp
      · have hrest := h.2 rest rfl
        simp only [List.mem_cons, List.not_mem_nil, or_false] at hrest
        rcases hrest with rfl | rfl | rfl
        · exact h1 (by decide)
        · exact h2 (by decide)
        · exact h3 (by decide)

theorem isScheme_gitPrefix {scheme : String} (h : Uri.IsScheme scheme.toList)
    (hlower : scheme.toList.map Char.toLower = scheme.toList) :
    Uri.IsScheme (Scheme.ofString scheme).gitPrefix.toList := by
  unfold Scheme.ofString
  simp only [hlower, String.ofList_toList]
  split_ifs
  · exact ⟨rfl, by simp [Scheme.gitPrefix, Uri.isSchemeChar]⟩
  · exact ⟨rfl, by simp [Scheme.gitPrefix, Uri.isSchemeChar]⟩
  · exact ⟨rfl, by simp [Scheme.gitPrefix, Uri.isSchemeChar]⟩
  · have hgit : ∀ c ∈ "git+".toList, Uri.isSchemeChar c = true := by simp [Uri.isSchemeChar]
    rw [Scheme.gitPrefix, String.toList_append]
    refine ⟨rfl, fun c hc => ?_⟩
    rcases List.mem_append.mp hc with hc | hc
    · exact hgit c hc
    · exact h.2 c hc

/-- Without a shorthand the reference is a `git+` one. -/
theorem intoFlakeRef_generic {rev : String} {checkout : Except CiError String} {scheme : Scheme} {user : Option String}
    {host path : String} {query : List (String × String)}
    (h : ¬ (host ∈ ["github.com", "gitlab.com", "git.sr.ht"] ∧ (segments path.toList).length = 2 ∧
      ∀ p ∈ query, p.1 ∈ ["ref", "rev"])) :
    (ParsedRepo.remote scheme user host path query).intoFlakeRef rev checkout =
      .ok (genericGitRef scheme user host path rev query) := by
  unfold ParsedRepo.intoFlakeRef
  dsimp only
  split
  · rename_i forge hforge
    have hhost : host ∈ ["github.com", "gitlab.com", "git.sr.ht"] := by
      split at hforge
      · decide
      · decide
      · decide
      · cases hforge
    refine if_neg fun hc => h ⟨hhost, hc.1, fun p hp => ?_⟩
    exact of_decide_eq_true (List.all_eq_true.mp hc.2 p hp)
  · rfl

theorem serialize_ne_empty {query : List (String × String)} (h : query ≠ []) : serialize query ≠ "" := by
  intro hempty
  have hread := readQuery_serialize query
  rw [hempty] at hread
  exact h (Option.some.inj hread).symm

def written (u : ParsedUrl) (host rev : String) : Reference where
  scheme := (Scheme.ofString u.scheme).gitPrefix.toList
  host := host.toList.map Char.toLower
  port := none
  path := '/' :: (cleanPath u.path).toList
  query := (u.query.filter fun p => p.1 ≠ "rev") ++ [("rev", rev)]

/-- **The reference of a repository**, taken apart. -/
theorem readReference_generic {u : ParsedUrl} {host rev : String} {user : Option String} (hhost : u.host = some host)
    (huser : ∀ name ∈ user, name = u.username) (hrev : rev ≠ "") :
    readReference (genericGitRef (.ofString u.scheme) user (String.ofList (host.toList.map Char.toLower))
      (cleanPath u.path) rev u.query).flakeRef = some (written u host rev) := by
  have huserinfo : ∃ userinfo : String, UserInfo userinfo.toList ∧
      genericBase (.ofString u.scheme) user (String.ofList (host.toList.map Char.toLower)) (cleanPath u.path) =
        (Scheme.ofString u.scheme).gitPrefix ++ "://" ++ userinfo ++
          String.ofList (host.toList.map Char.toLower) ++ "/" ++ cleanPath u.path := by
    unfold genericBase
    dsimp only
    split
    · rename_i name hscheme
      refine ⟨name ++ "@", ?_, rfl⟩
      rw [huser name rfl, String.toList_append]
      exact .user u.plainUser.1 u.plainUser.2
    · exact ⟨"", .none, rfl⟩
  obtain ⟨userinfo, hinfo, hbase⟩ := huserinfo
  have hquery : serialize ((u.query.filter fun p => p.1 ≠ "rev") ++ [("rev", rev)]) ≠ "" := serialize_ne_empty (by simp)
  have hread := @readReference_written _ _ _ _ ((u.query.filter fun p => p.1 ≠ "rev") ++ [("rev", rev)])
    (isScheme_gitPrefix u.isScheme u.lower) hinfo (u.plainHost host hhost).map_toLower
    fun c hc => u.plainPath c (cleanPath_subset u.path hc)
  refine (congrArg readReference ?_).trans hread
  simp only [genericGitRef, pinned, withPinnedQuery]
  rw [if_neg hrev, if_neg hquery, hbase, ← String.toList_inj]
  simp [String.toList_append]

/-- All but the scheme and the port is kept. -/
theorem keeps_written_iff {u : ParsedUrl} {host rev : String} : Keeps u host rev (written u host rev) ↔
    (Scheme.ofString u.scheme).gitPrefix = "git+" ++ transport u.scheme ∧ u.port = none := by
  have hscheme : (written u host rev).scheme = (Scheme.ofString u.scheme).gitPrefix.toList := by
    rw [written]
  constructor
  · intro h
    have htransport := h.transport
    rw [hscheme, String.toList_inj] at htransport
    exact ⟨htransport, h.port.symm⟩
  · rintro ⟨htransport, hport⟩
    refine ⟨?_, ?_, ?_, ?_, ?_, ?_⟩
    · rw [hscheme, htransport]
    · rfl
    · rw [hport]
      rfl
    · exact samePath_cleanPath u.path
    · simp [written, List.filter_append]
    · simp [written, List.filter_append]

end Writing

/-- The text of a local source has no host. -/
theorem host_of_file {text : String} {ref : Reference} (htext : "git+file:///".toList <+: text.toList)
    (h : readReference text = some ref) : ref.host = [] := by
  obtain ⟨rest, hrest⟩ := htext
  have hscheme : Uri.IsScheme "git+file".toList := ⟨rfl, by simp [Uri.isSchemeChar]⟩
  have hparts := Uri.parts_text ⟨"git+file".toList, [], '/' :: rest, hscheme,
    fun _ hc => absurd hc List.not_mem_nil, fun c hc => by cases hc; rfl⟩
  simp only [Uri.Parts.text] at hparts
  have htoList : text.toList = "git+file".toList ++ ':' :: '/' :: '/' :: ([] ++ '/' :: rest) := hrest.symm
  rw [readReference, htoList, hparts, Option.bind_some] at h
  obtain ⟨query, -, rfl⟩ := Option.map_eq_some_iff.mp h
  rfl

theorem isPrefix_withPinnedQuery (base rev : String) (query : List (String × String)) :
    base.toList <+: (withPinnedQuery base rev query).toList := by
  have h : ∀ text : String, base.toList <+: (if text = "" then base else base ++ "?" ++ text).toList := by
    intro text
    split_ifs
    · exact List.prefix_rfl
    · rw [String.toList_append, String.toList_append, List.append_assoc]
      exact List.prefix_append _ _
  exact h _

/-- **The source keeps the repository** exactly if its scheme is kept and it names no port. For every URL with a host
that has no shorthand and every revision that is not empty, the source is a `git+` reference of the same protocol, host
and port, with the path up to slashes and one `.git`, the attributes other than `rev` in order, and one `rev`, if and
only if this is so. -/
theorem source_kept_iff {w : World} {r : Request} {u : ParsedUrl} {host : String}
    (hparse : w.parseUrl (trim r.repositoryUrl) = some u.toUrl) (hhost : u.host = some host)
    (hcheckout : ∀ url, w.checkoutUrl = .ok url → "file:///".toList <+: url.toList)
    (hforge : ¬ HasShorthand u host) (hrev : r.commitHash ≠ "") :
    (∃ source ref, sourceFlakeRef w r = .ok source ∧ readReference source.flakeRef = some ref ∧
      Keeps u host r.commitHash ref) ↔ KeptScheme u.scheme ∧ u.port = none := by
  by_cases hfile : u.scheme = "file"
  · refine iff_of_false ?_ fun h => h.1.not_file hfile
    rintro ⟨source, ref, hsource, hread, hkeeps⟩
    have hparsed : ParsedRepo.parse w.parseUrl r.repositoryUrl = .local u.path u.query := by
      simp [ParsedRepo.parse, hparse, hfile]
    rw [sourceFlakeRef, hparsed] at hsource
    cases hcheck : w.checkoutUrl with
    | error =>
      rw [hcheck] at hsource
      cases hsource
    | ok url =>
      rw [hcheck] at hsource
      obtain rfl := Except.ok.inj hsource
      have hbase : "git+file:///".toList <+: ("git+" ++ url).toList := by
        rw [String.toList_append]
        exact (List.prefix_append_right_inj "git+".toList).mpr (hcheckout url hcheck)
      have hempty := host_of_file (hbase.trans (isPrefix_withPinnedQuery _ _ _)) hread
      exact (u.plainHost host hhost).map_toLower.ne_nil (hkeeps.host.symm.trans hempty)
  · have hparsed : ParsedRepo.parse w.parseUrl r.repositoryUrl = .remote (.ofString u.scheme)
        (if u.username = "" then none else some u.username) (String.ofList (host.toList.map Char.toLower))
        (cleanPath u.path) u.query := by
      simp [ParsedRepo.parse, hparse, hfile, hhost]
    have huser : ∀ name ∈ (if u.username = "" then none else some u.username : Option String), name = u.username := by
      intro name hname
      split_ifs at hname
      · cases hname
      · exact (Option.some.inj hname).symm
    have hsource : sourceFlakeRef w r = .ok (genericGitRef (.ofString u.scheme)
        (if u.username = "" then none else some u.username) (String.ofList (host.toList.map Char.toLower))
        (cleanPath u.path) r.commitHash u.query) := by
      rw [sourceFlakeRef, hparsed]
      exact intoFlakeRef_generic hforge
    have hread := readReference_generic hhost huser hrev
    constructor
    · rintro ⟨source, ref, hsource', hread', hkeeps⟩
      obtain rfl := Except.ok.inj (hsource.symm.trans hsource')
      obtain rfl := Option.some.inj (hread.symm.trans hread')
      obtain ⟨hscheme, hport⟩ := keeps_written_iff.mp hkeeps
      obtain ⟨hgit, honce⟩ := (gitPrefix_eq_iff u.lower).mp hscheme
      exact ⟨⟨hfile, hgit, honce⟩, hport⟩
    · rintro ⟨hscheme, hport⟩
      have hgit := (gitPrefix_eq_iff u.lower).mpr ⟨hscheme.not_git, hscheme.once⟩
      exact ⟨_, _, hsource, hread, keeps_written_iff.mpr ⟨hgit, hport⟩⟩

theorem plainHost_example : ∀ h ∈ some "git.example.org", PlainHost h.toList := by
  rintro _ ⟨⟩
  exact ⟨by simp, by simp [Uri.Plain, Uri.isDelim], by simp, by simp⟩

/-- The URL of a repository on a host without shorthand. -/
def hosted (scheme : String) (port : Option ℕ) (hs : Uri.IsScheme scheme.toList)
    (hl : scheme.toList.map Char.toLower = scheme.toList) : ParsedUrl where
  scheme := scheme
  username := ""
  host := some "git.example.org"
  path := "/owner/repo.git"
  query := [("ref", "main"), ("rev", "beef"), ("submodules", "1")]
  port := port
  isScheme := hs
  lower := hl
  plainUser := ⟨fun _ hc => absurd hc List.not_mem_nil, List.not_mem_nil⟩
  plainHost := plainHost_example
  plainPath := by simp [Uri.isQueryStart]

theorem isScheme_https : Uri.IsScheme "https".toList := ⟨rfl, by simp [Uri.isSchemeChar]⟩

theorem isScheme_git : Uri.IsScheme "git".toList := ⟨rfl, by simp [Uri.isSchemeChar]⟩

/-- The world in which the text is that URL. -/
def parsedAs (text : String) (u : ParsedUrl) : World :=
  { oneHost with parseUrl := fun t => if t = text then some u.toUrl else none }

theorem parseUrl_parsedAs {text : String} {u : ParsedUrl} (h : trim text = text) :
    (parsedAs text u).parseUrl (trim text) = some u.toUrl := by simp [parsedAs, h]

def requestOf (text : String) : Request := { allHosts with repositoryUrl := text }

def httpsText : String := "https://git.example.org/owner/repo.git?ref=main&rev=beef&submodules=1"

def httpsUrl : ParsedUrl := hosted "https" none isScheme_https rfl

theorem source_kept_iff_https : ∃ source ref,
    sourceFlakeRef (parsedAs httpsText httpsUrl) (requestOf httpsText) = .ok source ∧
      readReference source.flakeRef = some ref ∧ Keeps httpsUrl "git.example.org" "c0ffee" ref := by
  have hcheckout : ∀ url, (Except.ok "file:///var/lib/circus/evaluator/repo" : Except CiError String) = .ok url →
      "file:///".toList <+: url.toList := by
    rintro _ ⟨⟩
    exact ⟨"var/lib/circus/evaluator/repo".toList, rfl⟩
  have hforge : ¬ HasShorthand httpsUrl "git.example.org" := by
    rintro ⟨hforge, -⟩
    revert hforge
    decide +kernel
  have honce : ∀ rest, "https" = "git+" ++ rest → rest ∈ ["https", "http", "ssh"] := by
    intro rest hrest
    have hhead : some 'h' = some 'g' := by
      have := congrArg (fun t : String => t.toList.head?) hrest
      rwa [String.toList_append] at this
    exact absurd hhead (by decide)
  exact (@source_kept_iff (parsedAs httpsText httpsUrl) (requestOf httpsText) httpsUrl "git.example.org"
    (parseUrl_parsedAs (by decide +kernel)) rfl hcheckout hforge (by decide)).mpr ⟨⟨by decide, by decide, honce⟩, rfl⟩

/-- A port is dropped, and `git` becomes `ssh`. -/
theorem port_dropped :
    (hosted "https" (some 8443) isScheme_https rfl).port = some 8443 ∧
    (sourceFlakeRef (parsedAs "https://git.example.org:8443/owner/repo.git?ref=main&rev=beef&submodules=1"
      (hosted "https" (some 8443) isScheme_https rfl))
        (requestOf "https://git.example.org:8443/owner/repo.git?ref=main&rev=beef&submodules=1")).map
          SourceFlakeRef.flakeRef =
      .ok "git+https://git.example.org/owner/repo?ref=main&submodules=1&rev=c0ffee" ∧
    (sourceFlakeRef (parsedAs "git://git.example.org/owner/repo.git?ref=main&rev=beef&submodules=1"
      (hosted "git" none isScheme_git rfl))
        (requestOf "git://git.example.org/owner/repo.git?ref=main&rev=beef&submodules=1")).map
          SourceFlakeRef.flakeRef =
      .ok "git+ssh://git.example.org/owner/repo?ref=main&submodules=1&rev=c0ffee" := by
  refine ⟨rfl, ?_, ?_⟩
  · decide +kernel
  · decide +kernel

end Circus.NixEval
