/-
# The fingerprint a client verifies

`sign_narinfo` signs the sorted references of a row as the agent has sent them.
A client has the text only: it takes the references as a set of base names and
puts the store directory in front of each. Both are the same fingerprint
exactly if the text can be read at all (`Readable`: a newline in the deriver or
in the content address may add lines that cannot be read, or that come twice),
no name of a reference has a space, and the references are distinct paths right
below the store directory (`client_fingerprint_signed`).
-/
import Circus.Cache.Text

namespace Circus.Cache

open Nix Rpc
open Evaluator.Webhooks (stripPrefix eq_append_of_stripPrefix)

/-- What a client checks the signatures of a narinfo against. -/
def clientFingerprint (text : String) : Option String := do
  let p ← parseNarInfo text
  let digest ← (parseSha256Hash p.narHash).toOption
  return "1;" ++ p.storePath ++ ";" ++ ("sha256:" ++ encodeSha256 digest) ++ ";" ++ toString p.narSize ++ ";" ++
    join ',' ((p.references.map fun name => "/nix/store/" ++ name).dedup.insertionSort (· ≤ ·))

theorem parseSha256Hash_encodeSha256 (digest : Digest) :
    parseSha256Hash ("sha256:" ++ encodeSha256 digest) = .ok digest := by
  have hsri : stripPrefix "sha256-" ("sha256:" ++ encodeSha256 digest) = none := by
    simp [stripPrefix, List.isPrefixOf?]
  have hlen : (encodeSha256 digest).toList.length ≠ 64 := by
    rw [toList_encodeSha256, length_base32Digits]
    norm_num
  rw [parseSha256Hash, hsri, Evaluator.Webhooks.stripPrefix_append]
  dsimp only
  rw [if_neg (fun h => hlen h.1), decodeSha256_encodeSha256]

/-! ### Texts that can be read -/

/-- The lines up to the references: what they say is checked, or computed. -/
def headLines (n : UpsertNarInfo) : List (String × String) := Lines.present ((narinfoFields n).take 8)

/-- The lines that deriver, content address and signature take up. -/
def tailLines (n : UpsertNarInfo) : List (List Char) :=
  (Lines.present [("Deriver", n.deriver.map storePathName), ("CA", n.ca), ("Sig", n.sig)]).flatMap fun l =>
    (Lines.line l).splitOn '\n'

/-- The lines after the references are lines, no key comes twice, and a file size is a number. -/
def Readable (n : UpsertNarInfo) : Prop :=
  ∃ rest ∈ Lines.readAll (tailLines n),
    (((headLines n ++ rest).map Prod.fst).filter fun k => k ≠ "Sig").Nodup ∧
      ∀ size ∈ rest.lookup "FileSize", (readInt size).isSome = true

instance (n : UpsertNarInfo) : Decidable (Readable n) := by
  unfold Readable
  infer_instance

variable {cfg : ServerConfig} {n : UpsertNarInfo}

theorem read_render (ha : Accepted cfg n) :
    Lines.read (renderNarinfoRow n) = (Lines.readAll (tailLines n)).map fun rest => headLines n ++ rest := by
  have hkey : ∀ k ∈ knownKeys.take 8, ':' ∉ k.toList ∧ '\n' ∉ k.toList := by decide
  have hhead : ∀ l ∈ headLines n, ':' ∉ l.1.toList ∧ '\n' ∉ l.1.toList ∧ '\n' ∉ l.2.toList := by
    intro l hl
    have hl := Lines.mem_present.mp hl
    have hmem : l.1 ∈ ((narinfoFields n).take 8).map Prod.fst := List.mem_map_of_mem hl
    obtain ⟨h1, h2⟩ := hkey l.1 hmem
    exact ⟨h1, h2, newline_notMem_head ha _ hl l.2 rfl⟩
  have hsplit : Lines.present (narinfoFields n) = headLines n ++ Lines.present ((narinfoFields n).drop 8) := by
    rw [headLines, ← Lines.present_append, List.take_append_drop]
  rw [renderNarinfoRow, Lines.read_write, hsplit, List.flatMap_append,
    Lines.flatMap_splitOn_of_plain fun l hl => (hhead l hl).2, Lines.readAll_append,
    Lines.readAll_map_line fun l hl => (hhead l hl).1]
  rfl

/-- A key of the checked lines finds their entry. -/
theorem lookup_headLines (n : UpsertNarInfo) (rest : List (String × String)) (k : String) :
    (headLines n ++ rest).lookup k = (((narinfoFields n).take 8).lookup k).join.or (rest.lookup k) := by
  have hnodup : (((narinfoFields n).take 8).map Prod.fst).Nodup :=
    nodup_knownKeys.sublist (List.take_sublist 8 knownKeys)
  rw [List.lookup_append, headLines, Lines.lookup_present hnodup]

theorem exists_parse_of_readable (ha : Accepted cfg n) (hr : Readable n) :
    ∃ p, parseNarInfo (renderNarinfoRow n) = some p := by
  obtain ⟨rest, hrest, hnodup, hsize⟩ := hr
  have hread : Lines.read (renderNarinfoRow n) = some (headLines n ++ rest) := by
    rw [read_render ha, Option.mem_def.mp hrest, Option.map_some]
  have hfile : ∃ size, readOptional readInt ((headLines n ++ rest).lookup "FileSize") = some size := by
    rw [lookup_headLines]
    change ∃ size, readOptional readInt ((n.fileSize.map toString).or (rest.lookup "FileSize")) = some size
    cases n.fileSize with
    | some size => exact ⟨some size, by simp [readOptional, readInt_repr]⟩
    | none =>
      rw [Option.map_none, Option.none_or]
      cases hl : rest.lookup "FileSize" with
      | none => exact ⟨none, rfl⟩
      | some text =>
        obtain ⟨size, hs⟩ := Option.isSome_iff_exists.mp (hsize text hl)
        exact ⟨some size, by simp [readOptional, hs]⟩
  obtain ⟨size, hfile⟩ := hfile
  have hguard : (guard (((headLines n ++ rest).map Prod.fst).filter fun k => k ≠ "Sig").Nodup : Option Unit) =
      some () := if_pos hnodup
  have hlookup := lookup_headLines n rest
  unfold parseNarInfo parseFields
  rw [hread]
  simp only [Option.bind_eq_bind, Option.bind_some, hguard, hfile]
  simp [hlookup, narinfoFields, List.lookup, readInt_repr]

/-- What a client reads of the checked lines is what the row says. -/
theorem parse_render_eq_some {p : ParsedNarInfo} (ha : Accepted cfg n)
    (h : parseNarInfo (renderNarinfoRow n) = some p) :
    Readable n ∧ p.storePath = n.storePath ∧ p.narHash = n.narHash ∧ p.narSize = n.narSize ∧
      p.references = readWords (join ' ' (n.references.map storePathName)) := by
  unfold parseNarInfo at h
  obtain ⟨lines, hread, hparse⟩ := Option.bind_eq_some_iff.mp h
  rw [read_render ha] at hread
  obtain ⟨rest, hrest, rfl⟩ := Option.map_eq_some_iff.mp hread
  obtain ⟨hnodup, hpath, hfile, hnar, hsize, hrefs, -, -⟩ := parseFields_eq_some hparse
  have hlookup := lookup_headLines n rest
  rw [hlookup] at hpath hfile hnar hsize hrefs
  refine ⟨⟨rest, hrest, hnodup, fun text ht => ?_⟩, (Option.some.inj hpath).symm, (Option.some.inj hnar).symm, ?_,
    (Option.some.inj hrefs).symm⟩
  · -- a second file size would be a key that comes twice
    change readOptional readInt ((n.fileSize.map toString).or (rest.lookup "FileSize")) = _ at hfile
    cases hn : n.fileSize with
    | none =>
      rw [hn, Option.mem_def.mp ht] at hfile
      obtain ⟨size, hs, -⟩ := Option.map_eq_some_iff.mp hfile
      exact Option.isSome_iff_exists.mpr ⟨size, hs⟩
    | some size =>
      have hhead : "FileSize" ∈ (headLines n).map Prod.fst :=
        List.mem_map.mpr ⟨("FileSize", toString size), Lines.mem_present.mpr (by simp [narinfoFields, hn]), rfl⟩
      obtain ⟨l₁, l₂, rfl, -⟩ := List.lookup_eq_some_iff.mp ht
      have htail : "FileSize" ∈ (l₁ ++ ("FileSize", text) :: l₂).map Prod.fst := by simp
      rw [List.map_append, List.filter_append] at hnodup
      exact (List.disjoint_of_nodup_append hnodup (List.mem_filter.mpr ⟨hhead, by decide⟩)
        (List.mem_filter.mpr ⟨htail, by decide⟩)).elim
  · change (readInt (toString n.narSize)) = _ at hsize
    rw [show toString n.narSize = n.narSize.repr from rfl, readInt_repr] at hsize
    exact (Option.some.inj hsize).symm

/-! ### References -/

/-- The references are distinct, each its name in the store directory. -/
def PlainReferences (references : List String) : Prop :=
  references.Nodup ∧ ∀ r ∈ references, "/nix/store/" ++ storePathName r = r

instance (references : List String) : Decidable (PlainReferences references) := by
  unfold PlainReferences
  infer_instance

theorem exists_of_validateStorePath {path : String} (h : validateStorePath path = .ok ()) :
    ∃ rest, rest ≠ "" ∧ path = "/nix/store/" ++ rest := by
  obtain ⟨⟨⟩, -, h⟩ := bind_eq_ok.mp h
  unfold ensure at h
  split_ifs at h with hp
  obtain ⟨hne, hv⟩ := hp
  unfold isValidStorePath at hv
  simp only [Bool.and_eq_true] at hv
  obtain ⟨rest, hs⟩ := Option.isSome_iff_exists.mp hv.1.1
  have hpath : path = "/nix/store/" ++ rest := eq_append_of_stripPrefix hs
  refine ⟨rest, fun he => hne ?_, hpath⟩
  rw [hpath, he]
  rfl

theorem splitOn_storePath (rest : String) : ("/nix/store/" ++ rest).toList.splitOn '/' =
    [[], "nix".toList, "store".toList] ++ rest.toList.splitOn '/' := by
  have hlist : ("/nix/store/" ++ rest).toList = "/nix/store".toList ++ '/' :: rest.toList := by
    rw [String.toList_append]
    rfl
  rw [hlist, List.splitOn_append_cons_self]
  rfl

theorem slash_notMem_storePathName (rest : String) : '/' ∉ (storePathName ("/nix/store/" ++ rest)).toList := by
  unfold storePathName
  cases hf : (("/nix/store/" ++ rest).toList.splitOn '/').reverse.find? fun part => part ≠ [] with
  | none =>
    have hmem : "nix".toList ∈ ("/nix/store/" ++ rest).toList.splitOn '/' := by
      rw [splitOn_storePath]
      exact List.mem_append_left _ (by simp)
    have hempty := List.find?_eq_none.mp hf _ (List.mem_reverse.mpr hmem)
    simp at hempty
  | some =>
    rw [Option.map_some, Option.getD_some, String.toList_ofList]
    exact List.notMem_of_mem_splitOn (List.mem_reverse.mp (List.mem_of_find?_eq_some hf))

theorem storePathName_of_slash_notMem {rest : String} (hne : rest ≠ "") (h : '/' ∉ rest.toList) :
    storePathName ("/nix/store/" ++ rest) = rest := by
  have hrest : rest.toList ≠ [] := fun he => hne (String.toList_eq_nil_iff.mp he)
  unfold storePathName
  rw [splitOn_storePath, List.splitOn_eq_singleton h, List.reverse_append, List.reverse_singleton,
    List.singleton_append, List.find?_cons_of_pos (by simpa using hrest)]
  simp

theorem count_slash (rest : String) : ("/nix/store/" ++ rest).toList.count '/' = 3 + rest.toList.count '/' := by
  rw [String.toList_append, List.count_append]
  rfl

theorem count_slash_join (texts : List String) :
    (join ',' (texts.insertionSort (· ≤ ·))).toList.count '/' = (texts.map fun t => t.toList.count '/').sum := by
  rw [toList_join, List.count_intercalate (by decide), List.map_map]
  exact ((List.perm_insertionSort (· ≤ ·) texts).map _).sum_eq

theorem space_notMem_join {words : List String} (h : ∀ w ∈ words, ' ' ∉ w.toList) :
    ' ' ∉ (join ',' ((words.map fun name => "/nix/store/" ++ name).dedup.insertionSort (· ≤ ·))).toList := by
  intro hm
  rw [toList_join] at hm
  rcases List.mem_intercalate hm with hm | ⟨part, hp, hm⟩
  · revert hm
    decide
  · obtain ⟨text, ht, rfl⟩ := List.mem_map.mp hp
    have ht := List.mem_dedup.mp ((List.mem_insertionSort _).mp ht)
    obtain ⟨w, hw, rfl⟩ := List.mem_map.mp ht
    rw [String.toList_append] at hm
    rcases List.mem_append.mp hm with hm | hm
    · revert hm
      decide
    · exact h w hw hm

/-- The set of the names is as long as the references, and no longer text, only
if the references are this set: each path has three slashes at least. -/
theorem plainReferences_of_join_eq {references : List String}
    (hv : ∀ r ∈ references, ∃ rest, rest ≠ "" ∧ r = "/nix/store/" ++ rest)
    (he : join ',' (((references.map storePathName).map fun name =>
        "/nix/store/" ++ name).dedup.insertionSort (· ≤ ·)) = join ',' (references.insertionSort (· ≤ ·))) :
    PlainReferences references := by
  set paths := (references.map storePathName).map fun name => "/nix/store/" ++ name with hpaths
  have hlen : paths.length = references.length := by simp [hpaths]
  have hthree : ∀ t ∈ paths.dedup, t.toList.count '/' = 3 := by
    intro t ht
    rw [List.mem_dedup, hpaths, List.map_map] at ht
    obtain ⟨r, hr, rfl⟩ := List.mem_map.mp ht
    obtain ⟨rest, -, rfl⟩ := hv r hr
    rw [Function.comp_apply, count_slash, List.count_eq_zero_of_not_mem (slash_notMem_storePathName rest)]
  have hmore : ∀ r ∈ references, 3 ≤ r.toList.count '/' := by
    intro r hr
    obtain ⟨rest, -, rfl⟩ := hv r hr
    rw [count_slash]
    omega
  have hsum : paths.dedup.length * 3 = (references.map fun r => r.toList.count '/').sum := by
    have hcount := congrArg (fun t : String => t.toList.count '/') he
    simp only [count_slash_join] at hcount
    rw [← hcount, List.map_congr_left hthree, List.map_const', List.sum_replicate, smul_eq_mul]
  have hle : references.length * 3 ≤ (references.map fun r => r.toList.count '/').sum := by
    have := List.card_nsmul_le_sum (references.map fun r => r.toList.count '/') 3 (by simpa using hmore)
    simpa using this
  have hshort := (List.dedup_sublist paths).length_le
  have hnodup : paths.Nodup := by
    rw [← (List.dedup_sublist paths).eq_of_length (by omega)]
    exact List.nodup_dedup paths
  have hexact : ∀ r ∈ references, r.toList.count '/' = 3 := by
    have htotal : (references.map fun r => r.toList.count '/').sum = (references.map fun _ => 3).sum := by
      rw [List.map_const', List.sum_replicate, smul_eq_mul]
      omega
    intro r hr
    by_contra hne
    have hlt := List.sum_lt_sum (fun _ => 3) (fun r : String => r.toList.count '/') hmore
      ⟨r, hr, lt_of_le_of_ne (hmore r hr) (Ne.symm hne)⟩
    omega
  refine ⟨(hnodup.of_map _).of_map _, fun r hr => ?_⟩
  obtain ⟨rest, hrest, rfl⟩ := hv r hr
  have hslash : '/' ∉ rest.toList := by
    have := hexact _ hr
    rw [count_slash] at this
    exact List.count_eq_zero.mp (by omega)
  rw [storePathName_of_slash_notMem hrest hslash]

/-- Both sides join the same references, exactly if they are plain and no name has a space. -/
theorem join_references_eq_iff {references : List String} (hv : ∀ r ∈ references, validateStorePath r = .ok ()) :
    join ',' (((readWords (join ' ' (references.map storePathName))).map fun name =>
        "/nix/store/" ++ name).dedup.insertionSort (· ≤ ·)) = join ',' (references.insertionSort (· ≤ ·)) ↔
      (∀ r ∈ references, ' ' ∉ (storePathName r).toList) ∧ PlainReferences references := by
  constructor
  · intro he
    have hspace : ∀ r ∈ references, ' ' ∉ (storePathName r).toList := by
      intro r hr hm
      have hmem : ' ' ∈ (join ',' (references.insertionSort (· ≤ ·))).toList := by
        rw [toList_join]
        exact List.subset_intercalate (List.mem_map_of_mem ((List.mem_insertionSort _).mpr hr))
          (mem_of_mem_storePathName hm)
      rw [← he] at hmem
      exact space_notMem_join (fun w hw => space_notMem_of_mem_readWords hw) hmem
    rw [readWords_references hv hspace] at he
    exact ⟨hspace, plainReferences_of_join_eq (fun r hr => exists_of_validateStorePath (hv r hr)) he⟩
  · rintro ⟨hspace, hnodup, hplain⟩
    have hpaths : (references.map storePathName).map (fun name => "/nix/store/" ++ name) = references := by
      rw [List.map_map]
      exact (List.map_congr_left hplain).trans (List.map_id' _)
    rw [readWords_references hv hspace, hpaths, hnodup.dedup]

/-! ### Both fingerprints -/

/-- The fingerprint of a client, for a text that can be read. -/
theorem clientFingerprint_of_parse {p : ParsedNarInfo} (ha : Accepted cfg n)
    (h : parseNarInfo (renderNarinfoRow n) = some p) :
    clientFingerprint (renderNarinfoRow n) = some (fingerprint n.storePath n.narHash n.narSize
      ((readWords (join ' ' (n.references.map storePathName))).map fun name => "/nix/store/" ++ name).dedup) := by
  obtain ⟨-, hpath, hnar, hsize, hrefs⟩ := parse_render_eq_some ha h
  obtain ⟨digest, hd⟩ := ha.narHash
  have hparse : parseSha256Hash n.narHash = .ok digest := hd ▸ parseSha256Hash_encodeSha256 digest
  unfold clientFingerprint
  rw [h]
  simp only [Option.bind_eq_bind, Option.bind_some, hpath, hnar, hsize, hrefs, hparse, Except.toOption]
  rw [← hd]
  rfl

theorem clientFingerprint_eq_iff (ha : Accepted cfg n) :
    clientFingerprint (renderNarinfoRow n) = some (fingerprint n.storePath n.narHash n.narSize n.references) ↔
      Readable n ∧ (∀ r ∈ n.references, ' ' ∉ (storePathName r).toList) ∧ PlainReferences n.references := by
  constructor
  · intro h
    have hp : ∃ p, parseNarInfo (renderNarinfoRow n) = some p := by
      unfold clientFingerprint at h
      obtain ⟨p, hp, -⟩ := Option.bind_eq_some_iff.mp h
      exact ⟨p, hp⟩
    obtain ⟨p, hp⟩ := hp
    rw [clientFingerprint_of_parse ha hp, Option.some_inj] at h
    unfold fingerprint at h
    rw [String.append_right_inj] at h
    exact ⟨(parse_render_eq_some ha hp).1, (join_references_eq_iff ha.references).mp h⟩
  · rintro ⟨hr, hrefs⟩
    obtain ⟨p, hp⟩ := exists_parse_of_readable ha hr
    rw [clientFingerprint_of_parse ha hp]
    unfold fingerprint
    rw [(join_references_eq_iff ha.references).mpr hrefs]

/-- **Signatures verify at the client**: a signature is one of the row's
fingerprint, and a client has this fingerprint exactly if the text can be read,
no name of a reference has a space, and the references are distinct paths right
below the store directory. -/
theorem client_fingerprint_signed {d : Deployment} {as : List Action} {s : State} {n : NarInfo} {sig : String}
    (hrun : Lts.exec (step d) {} as = some s) (hn : n ∈ s.narinfos.narinfos.rows) (hsig : n.sig = some sig) :
    ∃ key ∈ d.signingKey, sig = key.sign (fingerprint n.storePath n.narHash n.narSize n.references) ∧
      (clientFingerprint (renderNarinfoRow n.toUpsertNarInfo) =
          some (fingerprint n.storePath n.narHash n.narSize n.references) ↔
        Readable n.toUpsertNarInfo ∧ (∀ r ∈ n.references, ' ' ∉ (storePathName r).toList) ∧
          PlainReferences n.references) := by
  have ha := accepted_of_run hrun n hn
  obtain ⟨key, hk, hs⟩ := ha.sig sig hsig
  exact ⟨key, hk, hs, clientFingerprint_eq_iff ha⟩

/-- A key whose signature of a text is the text. -/
def plainKey : SigningKey where
  sign text := String.ofList (text.toList.filter fun c => c ≠ '\n')
  oneLine text := by simp

def signingDeployment : Deployment := { smallDeployment with signingKey := some plainKey }

theorem client_fingerprint_of_uploaded : ∃ s ∈ Lts.exec (step signingDeployment) {} uploaded,
    ∃ n ∈ s.narinfos.narinfos.rows, ∃ text ∈ clientFingerprint (renderNarinfoRow n.toUpsertNarInfo),
      n.sig = some (plainKey.sign text) := by
  have hrun : ∃ s ∈ Lts.exec (step signingDeployment) {} uploaded, ∃ n ∈ s.narinfos.narinfos.rows,
      n.sig.isSome = true ∧ FitsText n.toUpsertNarInfo ∧ PlainReferences n.references := by decide +kernel
  obtain ⟨s, hs, n, hn, hsig, hf, hr⟩ := hrun
  obtain ⟨sig, hsig⟩ := Option.isSome_iff_exists.mp hsig
  have ha := accepted_of_run hs n hn
  obtain ⟨key, hk, rfl, hiff⟩ := client_fingerprint_signed hs hn hsig
  cases hk
  exact ⟨s, hs, n, hn, _, hiff.mpr ⟨(parse_render_eq_some ha (parse_render ha hf)).1, hf.2.2, hr⟩, hsig⟩

/-- One reference twice: the client has it once. -/
theorem client_fingerprint_of_repeated_reference :
    ∃ s ∈ Lts.exec (step signingDeployment) {}
        (uploadedAs { emptyNarInfo with references := ["/nix/store/a", "/nix/store/a"] }),
      ∃ n ∈ s.narinfos.narinfos.rows, n.sig.isSome = true ∧
        ∃ text ∈ clientFingerprint (renderNarinfoRow n.toUpsertNarInfo),
          text ≠ fingerprint n.storePath n.narHash n.narSize n.references := by
  have hrun : ∃ s ∈ Lts.exec (step signingDeployment) {}
      (uploadedAs { emptyNarInfo with references := ["/nix/store/a", "/nix/store/a"] }),
      ∃ n ∈ s.narinfos.narinfos.rows, n.sig.isSome = true ∧ FitsText n.toUpsertNarInfo ∧
        n.references = ["/nix/store/a", "/nix/store/a"] := by decide +kernel
  obtain ⟨s, hs, n, hn, hsig, hf, hr⟩ := hrun
  have ha := accepted_of_run hs n hn
  have hclient := clientFingerprint_of_parse ha (parse_render ha hf)
  refine ⟨s, hs, n, hn, hsig, _, hclient, fun he => ?_⟩
  have hplain : PlainReferences n.references :=
    ((clientFingerprint_eq_iff ha).mp (hclient.trans (congrArg some he))).2.2
  rw [hr] at hplain
  revert hplain
  decide

end Circus.Cache
