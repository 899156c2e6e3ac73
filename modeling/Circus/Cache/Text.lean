/-
# The text of a narinfo

`render_narinfo_row` of `crates/server/src/routes/cache.rs`, and what a Nix
client reads from it: lines cut at newlines, each at its first `: `, references
at spaces, and every key but `Sig` at most once.

A row that the runner has accepted has a text that says what the row says,
unless its deriver or its content address has a newline, or the name of a
reference a space: these are not checked.
-/
import Circus.Lines
import Circus.Rpc.Accepted
import Circus.Rpc.Intact

namespace Circus.Cache

open Nix Rpc

/-! ### Rendering -/

/-- The last part of a path that is not empty. -/
def storePathName (path : String) : String :=
  (((path.toList.splitOn '/').reverse.find? fun part => part ≠ []).map String.ofList).getD path

/-- The lines of a narinfo, in order. -/
def narinfoFields (n : UpsertNarInfo) : List (String × Option String) :=
  [("StorePath", some n.storePath), ("URL", some n.url), ("Compression", some n.compression),
    ("FileHash", n.fileHash), ("FileSize", n.fileSize.map toString), ("NarHash", some n.narHash),
    ("NarSize", some (toString n.narSize)), ("References", some (join ' ' (n.references.map storePathName))),
    ("Deriver", n.deriver.map storePathName), ("CA", n.ca), ("Sig", n.sig)]

def renderNarinfoRow (n : UpsertNarInfo) : String := Lines.write (Lines.present (narinfoFields n))

/-! ### The client -/

/-- A decimal number. -/
def readNat (digits : List Char) : Option ℕ :=
  if digits ≠ [] ∧ digits.all Char.isDigit = true then some (Nat.ofDigitChars 10 digits 0) else none

/-- A decimal number with its sign. -/
def readInt (text : String) : Option ℤ :=
  match text.toList with
  | '-' :: digits => (readNat digits).map fun n : ℕ => -(n : ℤ)
  | digits => (readNat digits).map fun n : ℕ => (n : ℤ)

/-- Words with one space between them. -/
def readWords (text : String) : List String :=
  if text = "" then [] else (text.toList.splitOn ' ').map String.ofList

/-- What a client reads from a narinfo. -/
structure ParsedNarInfo where
  storePath : String
  url : String
  compression : String
  fileHash : Option String
  fileSize : Option ℤ
  narHash : String
  narSize : ℤ
  references : List String
  deriver : Option String
  ca : Option String
  sigs : List String
  /-- The other lines. -/
  others : List (String × String)
  deriving DecidableEq

def knownKeys : List String :=
  ["StorePath", "URL", "Compression", "FileHash", "FileSize", "NarHash", "NarSize", "References", "Deriver", "CA",
    "Sig"]

/-- A line that may be missing, with its value read. -/
def readOptional {α : Type} (read : String → Option α) : Option String → Option (Option α)
  | none => some none
  | some text => (read text).map some

/-- The fields, from the lines. -/
def parseFields (lines : List (String × String)) : Option ParsedNarInfo := do
  guard ((lines.map Prod.fst).filter fun k => k ≠ "Sig").Nodup
  let storePath ← lines.lookup "StorePath"
  let url ← lines.lookup "URL"
  let compression ← lines.lookup "Compression"
  let fileSize ← readOptional readInt (lines.lookup "FileSize")
  let narHash ← lines.lookup "NarHash"
  let narSize ← lines.lookup "NarSize" >>= readInt
  let references ← lines.lookup "References"
  return {
    storePath := storePath
    url := url
    compression := compression
    fileHash := lines.lookup "FileHash"
    fileSize := fileSize
    narHash := narHash
    narSize := narSize
    references := readWords references
    deriver := lines.lookup "Deriver"
    ca := lines.lookup "CA"
    sigs := (lines.filter fun l => l.1 = "Sig").map Prod.snd
    others := lines.filter fun l => l.1 ∉ knownKeys }

def parseNarInfo (text : String) : Option ParsedNarInfo := Lines.read text >>= parseFields

def ParsedNarInfo.ofRow (n : UpsertNarInfo) : ParsedNarInfo where
  storePath := n.storePath
  url := n.url
  compression := n.compression
  fileHash := n.fileHash
  fileSize := n.fileSize
  narHash := n.narHash
  narSize := n.narSize
  references := n.references.map storePathName
  deriver := n.deriver.map storePathName
  ca := n.ca
  sigs := n.sig.toList
  others := []

/-! ### Reading values back -/

theorem readNat_toString (n : ℕ) : readNat (toString n).toList = some n := by
  have hdigits : (toString n).toList = Nat.toDigits 10 n := by
    rw [Nat.toString_eq_repr, Nat.repr, String.toList_ofList]
  have hne : Nat.toDigits 10 n ≠ [] := Nat.toDigits_ne_nil
  have hall : (Nat.toDigits 10 n).all Char.isDigit = true :=
    List.all_eq_true.mpr fun c hc => Nat.isDigit_of_mem_toDigits (by norm_num) (by norm_num) hc
  rw [hdigits, readNat, if_pos ⟨hne, hall⟩, Nat.ofDigitChars_ten_toDigits]

theorem readInt_repr (n : ℤ) : readInt n.repr = some n := by
  cases n with
  | ofNat m =>
    have hread := readNat_toString m
    change readInt (toString m) = _
    unfold readInt
    split
    next digits hd =>
      rw [hd] at hread
      simp [readNat] at hread
    next =>
      rw [hread]
      rfl
  | negSucc m =>
    have hlist : (Int.negSucc m).repr.toList = '-' :: (toString (m + 1)).toList := by
      change ("-" ++ toString (m + 1)).toList = _
      rw [String.toList_append]
      rfl
    unfold readInt
    rw [hlist]
    change (readNat (toString (m + 1)).toList).map _ = _
    rw [readNat_toString]
    rfl

theorem toList_join (sep : Char) (parts : List String) :
    (join sep parts).toList = [sep].intercalate (parts.map String.toList) := String.toList_ofList

/-- Words without spaces are read back. -/
theorem readWords_join {words : List String} (hne : ∀ w ∈ words, w ≠ "") (h : ∀ w ∈ words, ' ' ∉ w.toList) :
    readWords (join ' ' words) = words := by
  cases words with
  | nil => rfl
  | cons w words =>
    have hw : w.toList ≠ [] := fun he => hne w List.mem_cons_self (String.toList_eq_nil_iff.mp he)
    have hjoin : join ' ' (w :: words) ≠ "" := fun he => by
      have := congrArg String.toList he
      rw [toList_join, List.map_cons] at this
      cases words with
      | nil => exact hw (by simpa using this)
      | cons =>
        rw [List.intercalate_cons_of_ne_nil (by simp)] at this
        simp [hw] at this
    have hsplit : ((w :: words).map String.toList).map String.ofList = w :: words := by
      simp [List.map_map, Function.comp_def]
    rw [readWords, if_neg hjoin, toList_join, List.splitOn_intercalate ' ' _ (by simp), hsplit]
    intro l hl
    obtain ⟨w', hw', rfl⟩ := List.mem_map.mp hl
    exact h w' hw'

theorem mem_of_mem_splitOn {a c : Char} {l part : List Char} (hp : part ∈ l.splitOn a) (hc : c ∈ part) : c ∈ l := by
  have hmem : c ∈ [a].intercalate (l.splitOn a) := List.subset_intercalate hp hc
  rwa [List.intercalate_splitOn] at hmem

variable {path : String}

/-- A name is a part of its path, or the path. -/
theorem mem_of_mem_storePathName {c : Char} (h : c ∈ (storePathName path).toList) : c ∈ path.toList := by
  unfold storePathName at h
  cases hf : (path.toList.splitOn '/').reverse.find? fun part => part ≠ [] with
  | none =>
    rw [hf] at h
    exact h
  | some =>
    have hmem := List.mem_reverse.mp (List.mem_of_find?_eq_some hf)
    rw [hf, Option.map_some, Option.getD_some, String.toList_ofList] at h
    exact mem_of_mem_splitOn hmem h

theorem storePathName_ne_empty (h : path ≠ "") : storePathName path ≠ "" := by
  unfold storePathName
  cases hf : (path.toList.splitOn '/').reverse.find? fun part => part ≠ [] with
  | none => exact h
  | some part =>
    have hne : part ≠ [] := by simpa using List.find?_some hf
    simpa using hne

/-! ### The text of an accepted row -/

def FitsText (n : UpsertNarInfo) : Prop :=
  (∀ path ∈ n.deriver, '\n' ∉ (storePathName path).toList) ∧ (∀ text ∈ n.ca, '\n' ∉ text.toList) ∧
    ∀ r ∈ n.references, ' ' ∉ (storePathName r).toList

instance (n : UpsertNarInfo) : Decidable (FitsText n) := by
  unfold FitsText
  infer_instance

theorem newline_notMem_of_validateStorePath (h : validateStorePath path = .ok ()) :
    '\n' ∉ path.toList ∧ path ≠ "" := by
  obtain ⟨⟨⟩, hlen, -⟩ := bind_eq_ok.mp h
  unfold validateTextLen ensure at hlen
  dsimp only at hlen
  split_ifs at hlen with hlen'
  obtain ⟨hmin, -, hctl⟩ := hlen'
  refine ⟨fun hm => ?_, fun he => ?_⟩
  · have := List.any_eq_false.mp hctl _ hm
    exact this rfl
  · rw [he] at hmin
    cases hmin

theorem newline_notMem_of_isKeyChar {text : String} (h : ∀ c ∈ text.toList, isKeyChar c = true) :
    '\n' ∉ text.toList := fun hm => by
  have := h _ hm
  revert this
  decide

variable {cfg : ServerConfig}

theorem newline_notMem_of_isNarKey {key : String} (h : IsNarKey cfg key) : '\n' ∉ key.toList := by
  obtain ⟨narHash, rfl⟩ := h
  have hseg : '\n' ∉ (hashKeySegment cfg.sha256 narHash).toList :=
    newline_notMem_of_isKeyChar fun _ => isKeyChar_of_mem_hashKeySegment
  have hext : '\n' ∉ (compressionExt cfg.uploadCompression).toList := by
    unfold compressionExt
    split_ifs <;> decide
  simp [hseg, hext]

theorem newline_notMem_encodeSha256 (digest : Digest) : '\n' ∉ ("sha256:" ++ encodeSha256 digest).toList := by
  have : '\n' ∉ (encodeSha256 digest).toList :=
    newline_notMem_of_isKeyChar fun _ hc => isKeyChar_of_isBase32Char (isBase32Char_of_mem_encodeSha256 hc)
  simp [this]

theorem newline_notMem_encodeHex (digest : Digest) : '\n' ∉ ("sha256:" ++ encodeHex digest).toList := by
  have : '\n' ∉ (encodeHex digest).toList := newline_notMem_of_isKeyChar fun _ => isKeyChar_of_mem_encodeHex
  simp [this]

/-- The text of a number has digits and a sign. -/
theorem char_of_mem_toString {n : ℤ} {c : Char} (h : c ∈ (toString n).toList) : c = '-' ∨ c.isDigit = true := by
  have hnat : ∀ m : ℕ, c ∈ (toString m).toList → c.isDigit = true := fun m hm => by
    rw [Nat.toString_eq_repr, Nat.repr, String.toList_ofList] at hm
    exact Nat.isDigit_of_mem_toDigits (by norm_num) (by norm_num) hm
  cases n with
  | ofNat m => exact .inr (hnat m h)
  | negSucc m =>
    change c ∈ ("-" ++ toString (m + 1)).toList at h
    rw [String.toList_append, List.mem_append] at h
    rcases h with h | h
    · exact .inl (by simpa using h)
    · exact .inr (hnat (m + 1) h)

theorem newline_notMem_toString (n : ℤ) : '\n' ∉ (toString n).toList := by
  intro h
  rcases char_of_mem_toString h with h | h <;> revert h <;> decide

variable {n : UpsertNarInfo}

/-- No checked or computed field has a newline. -/
theorem newline_notMem_head (ha : Accepted cfg n) : ∀ f ∈ (narinfoFields n).take 8, ∀ v ∈ f.2, '\n' ∉ v.toList := by
  obtain ⟨narDigest, hnar⟩ := ha.narHash
  obtain ⟨fileDigest, hfile⟩ := ha.fileHash
  have hcomp : '\n' ∉ n.compression.toList := by
    have hc := ha.compression
    unfold validateUploadCompression ensure at hc
    split_ifs at hc with hm
    have hall : ∀ c ∈ ["zstd", "xz", "gzip", "none"], '\n' ∉ c.toList := by decide
    exact hall _ hm
  have hrefs : '\n' ∉ (join ' ' (n.references.map storePathName)).toList := fun hm => by
    rw [toList_join, List.map_map] at hm
    rcases List.mem_intercalate hm with hm | ⟨part, hp, hm⟩
    · revert hm
      decide
    · obtain ⟨r, hr, rfl⟩ := List.mem_map.mp hp
      exact (newline_notMem_of_validateStorePath (ha.references r hr)).1 (mem_of_mem_storePathName hm)
  change ∀ f ∈ [_, _, _, _, _, _, _, _], _
  simp only [List.forall_mem_cons, Option.mem_some, forall_eq']
  refine ⟨(newline_notMem_of_validateStorePath ha.storePath).1, newline_notMem_of_isNarKey ha.url, hcomp, ?_, ?_, ?_,
    newline_notMem_toString _, hrefs, fun f hf => absurd hf List.not_mem_nil⟩
  · intro v hv
    rw [hfile] at hv
    exact Option.some.inj hv ▸ newline_notMem_encodeHex fileDigest
  · intro v hv
    obtain ⟨size, -, rfl⟩ := Option.map_eq_some_iff.mp hv
    exact newline_notMem_toString size
  · exact hnar ▸ newline_notMem_encodeSha256 narDigest

/-- No line of the text has a newline within it. -/
theorem newline_notMem_fields (ha : Accepted cfg n) (hf : FitsText n) :
    ∀ f ∈ narinfoFields n, ∀ v ∈ f.2, '\n' ∉ v.toList := by
  have htail : ∀ f ∈ (narinfoFields n).drop 8, ∀ v ∈ f.2, '\n' ∉ v.toList := by
    change ∀ f ∈ [_, _, _], _
    simp only [List.forall_mem_cons]
    refine ⟨fun v hv => ?_, hf.2.1, fun sig hs => ?_, fun f hf => absurd hf List.not_mem_nil⟩
    · obtain ⟨path, hp, rfl⟩ := Option.map_eq_some_iff.mp hv
      exact hf.1 path hp
    · obtain ⟨key, -, rfl⟩ := ha.sig sig hs
      exact key.oneLine _
  intro f hm
  rw [← List.take_append_drop 8 (narinfoFields n)] at hm
  rcases List.mem_append.mp hm with hm | hm
  · exact newline_notMem_head ha f hm
  · exact htail f hm

theorem nodup_knownKeys : knownKeys.Nodup := by decide

/-- The signatures of the lines. -/
theorem filter_sig (n : UpsertNarInfo) :
    ((Lines.present (narinfoFields n)).filter fun l => l.1 = "Sig").map Prod.snd = n.sig.toList := by
  have hsplit : narinfoFields n = (narinfoFields n).take 10 ++ [("Sig", n.sig)] := rfl
  have hinit : (Lines.present ((narinfoFields n).take 10)).filter (fun l => l.1 = "Sig") = [] := by
    refine List.filter_eq_nil_iff.mpr fun l hl => ?_
    have hkey : l.1 ∈ knownKeys.take 10 :=
      (Lines.sublist_keys_present ((narinfoFields n).take 10)).subset (List.mem_map_of_mem hl)
    have hne : ∀ k ∈ knownKeys.take 10, k ≠ "Sig" := by decide
    simpa using hne _ hkey
  have hlast : (Lines.present [("Sig", n.sig)]).filter (fun l => l.1 = "Sig") = n.sig.toList.map (Prod.mk "Sig") := by
    cases n.sig <;> simp [Lines.present]
  rw [hsplit, Lines.present, List.filterMap_append, List.filter_append]
  change ((Lines.present _).filter _ ++ (Lines.present _).filter _).map _ = _
  rw [hinit, hlast]
  simp

/-- The lines of a row, read. -/
theorem parseFields_present
    (hrefs : readWords (join ' ' (n.references.map storePathName)) = n.references.map storePathName) :
    parseFields (Lines.present (narinfoFields n)) = some (.ofRow n) := by
  have hnodup : ((narinfoFields n).map Prod.fst).Nodup := nodup_knownKeys
  have hlookup : ∀ k, (Lines.present (narinfoFields n)).lookup k = ((narinfoFields n).lookup k).join :=
    fun k => Lines.lookup_present hnodup
  have hkeys : ((Lines.present (narinfoFields n)).map Prod.fst).Nodup :=
    hnodup.sublist (Lines.sublist_keys_present _)
  have hothers : (Lines.present (narinfoFields n)).filter (fun l => l.1 ∉ knownKeys) = [] := by
    refine List.filter_eq_nil_iff.mpr fun l hl => ?_
    have hkey : l.1 ∈ knownKeys := (Lines.sublist_keys_present (narinfoFields n)).subset (List.mem_map_of_mem hl)
    simpa using hkey
  have hsize : readOptional readInt (n.fileSize.map toString) = some n.fileSize := by
    cases n.fileSize with
    | none => rfl
    | some => simp [readOptional, readInt_repr]
  unfold parseFields
  simp only [hlookup, filter_sig, hothers, hkeys.filter]
  simp [narinfoFields, List.lookup, hsize, readInt_repr, hrefs, ParsedNarInfo.ofRow]

theorem readWords_references {references : List String} (hv : ∀ r ∈ references, validateStorePath r = .ok ())
    (h : ∀ r ∈ references, ' ' ∉ (storePathName r).toList) :
    readWords (join ' ' (references.map storePathName)) = references.map storePathName := by
  refine readWords_join (fun w hw => ?_) fun w hw => ?_
  · obtain ⟨r, hr, rfl⟩ := List.mem_map.mp hw
    exact storePathName_ne_empty (newline_notMem_of_validateStorePath (hv r hr)).2
  · obtain ⟨r, hr, rfl⟩ := List.mem_map.mp hw
    exact h r hr

theorem parse_render (ha : Accepted cfg n) (hf : FitsText n) :
    parseNarInfo (renderNarinfoRow n) = some (.ofRow n) := by
  have hkey : ∀ k ∈ knownKeys, ':' ∉ k.toList ∧ '\n' ∉ k.toList := by decide
  have hlines : ∀ l ∈ Lines.present (narinfoFields n), ':' ∉ l.1.toList ∧ '\n' ∉ l.1.toList ∧ '\n' ∉ l.2.toList := by
    intro l hl
    have hl := Lines.mem_present.mp hl
    obtain ⟨h1, h2⟩ := hkey l.1 (List.mem_map_of_mem (f := Prod.fst) hl)
    exact ⟨h1, h2, newline_notMem_fields ha hf _ hl l.2 rfl⟩
  rw [parseNarInfo, renderNarinfoRow, Lines.read_write_of_plain hlines]
  exact parseFields_present (readWords_references ha.references hf.2.2)

theorem space_notMem_of_mem_readWords {text w : String} (h : w ∈ readWords text) : ' ' ∉ w.toList := by
  unfold readWords at h
  split_ifs at h
  · cases h
  · obtain ⟨part, hp, rfl⟩ := List.mem_map.mp h
    rw [String.toList_ofList]
    exact List.notMem_of_mem_splitOn hp

/-- What the fields of a text come from. -/
theorem parseFields_eq_some {lines : List (String × String)} {p : ParsedNarInfo} (h : parseFields lines = some p) :
    ((lines.map Prod.fst).filter fun k => k ≠ "Sig").Nodup ∧ lines.lookup "StorePath" = some p.storePath ∧
      readOptional readInt (lines.lookup "FileSize") = some p.fileSize ∧ lines.lookup "NarHash" = some p.narHash ∧
      (lines.lookup "NarSize").bind readInt = some p.narSize ∧
      (lines.lookup "References").map readWords = some p.references ∧ p.deriver = lines.lookup "Deriver" ∧
      p.ca = lines.lookup "CA" := by
  unfold parseFields at h
  obtain ⟨_, hg, h⟩ := Option.bind_eq_some_iff.mp h
  obtain ⟨storePath, hpath, h⟩ := Option.bind_eq_some_iff.mp h
  obtain ⟨url, -, h⟩ := Option.bind_eq_some_iff.mp h
  obtain ⟨compression, -, h⟩ := Option.bind_eq_some_iff.mp h
  obtain ⟨fileSize, hfile, h⟩ := Option.bind_eq_some_iff.mp h
  obtain ⟨narHash, hnar, h⟩ := Option.bind_eq_some_iff.mp h
  obtain ⟨narSize, hsize, h⟩ := Option.bind_eq_some_iff.mp h
  obtain ⟨references, hrefs, h⟩ := Option.bind_eq_some_iff.mp h
  cases h
  refine ⟨?_, hpath, hfile, hnar, hsize, by rw [hrefs]; rfl, rfl, rfl⟩
  unfold guard at hg
  split_ifs at hg with hn
  exact hn

/-- A text that says what the row says fits the row. -/
theorem fitsText_of_parse (h : parseNarInfo (renderNarinfoRow n) = some (.ofRow n)) : FitsText n := by
  unfold parseNarInfo at h
  obtain ⟨lines, hread, hparse⟩ := Option.bind_eq_some_iff.mp h
  obtain ⟨-, -, -, -, -, hrefs, hderiver, hca⟩ := parseFields_eq_some hparse
  have hvalue : ∀ k v, lines.lookup k = some v → '\n' ∉ v.toList := fun k v hl => by
    obtain ⟨l₁, l₂, rfl, -⟩ := List.lookup_eq_some_iff.mp hl
    exact Lines.newline_notMem_of_read hread (k, v) (List.mem_append_right _ List.mem_cons_self)
  refine ⟨fun path hp => ?_, fun text ht => hvalue "CA" text (hca ▸ ht), fun r hr => ?_⟩
  · refine hvalue "Deriver" _ (hderiver ▸ ?_)
    exact Option.map_eq_some_iff.mpr ⟨path, hp, rfl⟩
  · obtain ⟨text, -, hwords⟩ := Option.map_eq_some_iff.mp hrefs
    refine @space_notMem_of_mem_readWords text _ ?_
    rw [hwords]
    exact List.mem_map_of_mem hr

/-- **The text is faithful to the row**: a client reads from the text of an
accepted row what the row says and nothing else, exactly if deriver and content
address have no newline and the names of references no space. -/
theorem narinfo_text_faithful {d : Deployment} {as : List Action} {s : State} {n : NarInfo}
    (hrun : Lts.exec (step d) {} as = some s) (hn : n ∈ s.narinfos.narinfos.rows) :
    parseNarInfo (renderNarinfoRow n.toUpsertNarInfo) = some (.ofRow n.toUpsertNarInfo) ↔ FitsText n.toUpsertNarInfo :=
  ⟨fitsText_of_parse, parse_render (accepted_of_run hrun n hn)⟩

theorem narinfo_text_of_uploaded : ∃ s ∈ Lts.exec (step smallDeployment) {} uploaded,
    ∃ n ∈ s.narinfos.narinfos.rows,
      parseNarInfo (renderNarinfoRow n.toUpsertNarInfo) = some (.ofRow n.toUpsertNarInfo) := by
  have hrun : ∃ s ∈ Lts.exec (step smallDeployment) {} uploaded, ∃ n ∈ s.narinfos.narinfos.rows,
      FitsText n.toUpsertNarInfo := by decide +kernel
  obtain ⟨s, hs, n, hn, hf⟩ := hrun
  exact ⟨s, hs, n, hn, (narinfo_text_faithful hs hn).mpr hf⟩

/-- Fields that are accepted, and do not fit into the text. -/
def injecting : Rpc.NarInfo :=
  { emptyNarInfo with deriver := "d\nSig: k", ca := "c\nX: y", references := ["/nix/store/a b"] }

def injectedRow : UpsertNarInfo :=
  uploadedNarInfo smallDeployment.toServerConfig 5 injecting emptyUploaded none true

/-- A newline in the deriver adds a signature, one in the content address a
line of its own, and a space makes two references of one. -/
theorem narinfo_text_of_unchecked_fields : ∃ s ∈ Lts.exec (step smallDeployment) {} (uploadedAs injecting),
    ∃ n ∈ s.narinfos.narinfos.rows, n.sig = none ∧ ∃ p ∈ parseNarInfo (renderNarinfoRow n.toUpsertNarInfo),
      p.sigs = ["k"] ∧ p.others = [("X", "y")] ∧ p.references = ["a", "b"] := by
  have hrun : ∃ s ∈ Lts.exec (step smallDeployment) {} (uploadedAs injecting), ∃ n ∈ s.narinfos.narinfos.rows,
      n.toUpsertNarInfo = injectedRow := by decide +kernel
  have hparse : injectedRow.sig = none ∧ ∃ p ∈ parseNarInfo (renderNarinfoRow injectedRow),
      p.sigs = ["k"] ∧ p.others = [("X", "y")] ∧ p.references = ["a", "b"] := by
    rw [parseNarInfo, renderNarinfoRow, Lines.read, Lines.write, String.toList_ofList]
    decide +kernel
  obtain ⟨s, hs, n, hn, he⟩ := hrun
  exact ⟨s, hs, n, hn, he ▸ hparse⟩

end Circus.Cache
