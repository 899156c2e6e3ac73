/-
# Texts of lines

A text of lines `key: value`, each ended by a newline. `write` and `read` go
between a text and its lines: the text is cut at newlines and each line at the
first `: `. A value with a newline takes up several lines (`read_write`), so
what is written is read back as long as no key or value has a newline and no
key a colon (`read_write_of_plain`). A record whose entries may be missing
writes the ones that are present; a key finds its entry again
(`lookup_present`).

`Words.tokens` cuts a text into words at the characters of a class. Words with a
separator between them are read back exactly if none is empty and none has a
separator in it (`Words.tokens_intercalate_iff`).
-/
import Mathlib

/-- A piece of a split has no separator. -/
theorem List.sep_false_of_mem_splitOnP {α : Type*} {p : α → Bool} : ∀ {l part : List α}, part ∈ l.splitOnP p →
    ∀ c ∈ part, p c = false
  | [], part, h => by
    rw [List.splitOnP_nil, List.mem_singleton] at h
    simp [h]
  | x :: l, part, h => by
    rw [List.splitOnP_cons_eq_if_modifyHead] at h
    split_ifs at h with hx
    · rcases List.mem_cons.mp h with rfl | h
      · simp
      · exact sep_false_of_mem_splitOnP h
    · cases hs : l.splitOnP p with
      | nil => exact absurd hs (List.splitOnP_ne_nil p l)
      | cons q qs =>
        rw [hs, List.modifyHead_cons] at h
        have hparts : ∀ q' ∈ q :: qs, ∀ c ∈ q', p c = false := fun q' hq => sep_false_of_mem_splitOnP (hs ▸ hq)
        rcases List.mem_cons.mp h with rfl | h
        · simpa [hx] using hparts q List.mem_cons_self
        · exact hparts part (List.mem_cons_of_mem _ h)

theorem List.notMem_of_mem_splitOn {α : Type*} [DecidableEq α] {a : α} {l part : List α} (h : part ∈ l.splitOn a) :
    a ∉ part := by
  intro ha
  have := List.sep_false_of_mem_splitOnP h a ha
  simp at this

/-- A piece of an intercalation is in it. -/
theorem List.subset_intercalate {α : Type*} {sep part : List α} : ∀ {parts : List (List α)}, part ∈ parts →
    part ⊆ sep.intercalate parts
  | [p], h => by
    rw [List.mem_singleton.mp h, List.intercalate_singleton]
    exact List.Subset.refl _
  | p :: q :: parts, h => by
    rw [List.intercalate_cons_cons]
    rcases List.mem_cons.mp h with rfl | h
    · rw [List.append_assoc]
      exact List.subset_append_left _ _
    · exact List.Subset.trans (subset_intercalate h) (List.subset_append_right _ _)

/-- What is in an intercalation is in the separator or in a piece. -/
theorem List.mem_intercalate {α : Type*} {c : α} {sep : List α} : ∀ {parts : List (List α)}, c ∈ sep.intercalate parts →
    c ∈ sep ∨ ∃ part ∈ parts, c ∈ part
  | [p], h => by
    rw [List.intercalate_singleton] at h
    exact .inr ⟨p, List.mem_cons_self, h⟩
  | p :: q :: parts, h => by
    rw [List.intercalate_cons_cons] at h
    rcases List.mem_append.mp h with h | h
    · rcases List.mem_append.mp h with h | h
      · exact .inr ⟨p, List.mem_cons_self, h⟩
      · exact .inl h
    · rcases mem_intercalate h with h | ⟨part, hp, h⟩
      · exact .inl h
      · exact .inr ⟨part, List.mem_cons_of_mem _ hp, h⟩

theorem List.count_intercalate {α : Type*} [DecidableEq α] {c : α} {sep : List α} (h : c ∉ sep) :
    ∀ parts : List (List α), (sep.intercalate parts).count c = (parts.map (List.count c)).sum
  | [] => rfl
  | [p] => by simp [List.intercalate_singleton]
  | p :: q :: parts => by
    rw [List.intercalate_cons_cons, List.count_append, List.count_append, List.count_eq_zero_of_not_mem h,
      count_intercalate h (q :: parts)]
    simp

/-! ### Words -/

namespace Words

variable {α : Type*} (isSep : α → Bool)

/-- The longest pieces without separators. -/
def tokens (l : List α) : List (List α) := (l.splitOnP isSep).filter fun part => !part.isEmpty

variable {isSep}

theorem of_mem_tokens {l part : List α} (h : part ∈ tokens isSep l) : part ≠ [] ∧ ∀ c ∈ part, isSep c = false := by
  obtain ⟨hm, hne⟩ := List.mem_filter.mp h
  exact ⟨by simpa using hne, List.sep_false_of_mem_splitOnP hm⟩

/-- Words with separators between them are read back. -/
theorem tokens_intercalate {sep : α} (hsep : isSep sep = true) : ∀ {words : List (List α)},
    (∀ w ∈ words, w ≠ [] ∧ ∀ c ∈ w, isSep c = false) → tokens isSep ([sep].intercalate words) = words
  | [], _ => by simp [tokens, List.splitOnP_nil]
  | [w], h => by
    obtain ⟨hne, hw⟩ := h w List.mem_cons_self
    rw [List.intercalate_singleton, tokens, List.splitOnP_eq_singleton hw]
    simp [hne]
  | w :: w' :: words, h => by
    obtain ⟨hne, hw⟩ := h w List.mem_cons_self
    have ih := tokens_intercalate hsep fun v hv => h v (List.mem_cons_of_mem w hv)
    rw [List.intercalate_cons_cons, List.append_assoc, List.singleton_append, tokens,
      List.splitOnP_append_cons_of_forall_mem hw _ hsep, List.filter_cons_of_pos (by simpa using hne)]
    exact congrArg (w :: ·) ih

/-- And only such words. -/
theorem tokens_intercalate_iff {sep : α} (hsep : isSep sep = true) {words : List (List α)} :
    tokens isSep ([sep].intercalate words) = words ↔ ∀ w ∈ words, w ≠ [] ∧ ∀ c ∈ w, isSep c = false := by
  constructor
  · intro h w hw
    rw [← h] at hw
    exact of_mem_tokens hw
  · exact tokens_intercalate hsep

end Words

/-! ### Lines -/

namespace Lines

def line (l : String × String) : List Char := l.1.toList ++ ':' :: ' ' :: l.2.toList

def write (lines : List (String × String)) : String := String.ofList (lines.flatMap fun l => line l ++ ['\n'])

/-- Cut at the first `: `. -/
def splitOnce : List Char → Option (List Char × List Char)
  | [] => none
  | ':' :: ' ' :: value => some ([], value)
  | c :: rest => (splitOnce rest).map fun kv => (c :: kv.1, kv.2)

/-- Every line has a key and a value. -/
def readAll : List (List Char) → Option (List (String × String))
  | [] => some []
  | l :: rest => (splitOnce l).bind fun kv => (readAll rest).map fun ls =>
      (String.ofList kv.1, String.ofList kv.2) :: ls

/-- The lines, and nothing after the last newline. -/
def readLines : List (List Char) → Option (List (String × String))
  | [] => none
  | [[]] => some []
  | l :: rest => (splitOnce l).bind fun kv => (readLines rest).map fun ls =>
      (String.ofList kv.1, String.ofList kv.2) :: ls

def read (text : String) : Option (List (String × String)) := readLines (text.toList.splitOn '\n')

/-- The entries that are there. -/
def present (fields : List (String × Option String)) : List (String × String) :=
  fields.filterMap fun f => f.2.map fun v => (f.1, v)

/-! ### Reading what is written -/

theorem splitOnce_append {value : List Char} : ∀ {key : List Char}, ':' ∉ key →
    splitOnce (key ++ ':' :: ' ' :: value) = some (key, value)
  | [], _ => by simp [splitOnce]
  | c :: key, h => by
    have hc : c ≠ ':' := fun he => h (he ▸ List.mem_cons_self)
    have hkey : ':' ∉ key := fun hm => h (List.mem_cons_of_mem _ hm)
    rw [List.cons_append, splitOnce, splitOnce_append hkey, Option.map_some]
    intro _ he
    exact (hc he).elim

/-- A value is the end of its line. -/
theorem mem_of_splitOnce {c : Char} : ∀ {l key value : List Char}, splitOnce l = some (key, value) → c ∈ value → c ∈ l
  | x :: l, key, value, h, hc => by
    unfold splitOnce at h
    split at h
    next => cases h
    next he =>
      obtain ⟨-, rfl⟩ := Prod.mk.inj (Option.some.inj h)
      rw [he]
      exact List.mem_cons_of_mem _ (List.mem_cons_of_mem _ hc)
    next he =>
      obtain ⟨⟨k, v⟩, hs, hkv⟩ := Option.map_eq_some_iff.mp h
      obtain ⟨-, rfl⟩ := Prod.mk.inj hkv
      obtain ⟨rfl, rfl⟩ := List.cons.inj he
      exact List.mem_cons_of_mem _ (mem_of_splitOnce hs hc)

theorem readLines_append_nil : ∀ ls : List (List Char), readLines (ls ++ [[]]) = readAll ls
  | [] => rfl
  | l :: ls => by
    rw [List.cons_append, readLines, readLines_append_nil ls, readAll]
    intro _ he
    simp at he

theorem readAll_append : ∀ as bs : List (List Char),
    readAll (as ++ bs) = (readAll as).bind fun x => (readAll bs).map fun y => x ++ y
  | [], bs => by simp [readAll]
  | a :: as, bs => by
    rw [List.cons_append, readAll, readAll, readAll_append as bs]
    cases splitOnce a <;> cases readAll as <;> cases readAll bs <;> rfl

theorem readAll_map_line : ∀ {lines : List (String × String)}, (∀ l ∈ lines, ':' ∉ l.1.toList) →
    readAll (lines.map line) = some lines
  | [], _ => rfl
  | l :: lines, h => by
    have hrest := readAll_map_line fun l' hl' => h l' (List.mem_cons_of_mem _ hl')
    have hl : splitOnce (line l) = some (l.1.toList, l.2.toList) := splitOnce_append (h l List.mem_cons_self)
    rw [List.map_cons, readAll, hl, hrest]
    simp

theorem splitOn_flatMap_line : ∀ lines : List (String × String),
    (lines.flatMap fun l => line l ++ ['\n']).splitOn '\n' = (lines.flatMap fun l => (line l).splitOn '\n') ++ [[]]
  | [] => rfl
  | l :: lines => by
    rw [List.flatMap_cons, List.append_assoc, List.singleton_append, List.splitOn_append_cons_self,
      splitOn_flatMap_line lines, List.flatMap_cons, List.append_assoc]

/-- **What is read of a text**: the lines of the entries, cut at the newlines in them. -/
theorem read_write (lines : List (String × String)) :
    read (write lines) = readAll (lines.flatMap fun l => (line l).splitOn '\n') := by
  rw [read, write, String.toList_ofList, splitOn_flatMap_line, readLines_append_nil]

variable {lines : List (String × String)}

theorem flatMap_splitOn_of_plain
    (h : ∀ l ∈ lines, '\n' ∉ l.1.toList ∧ '\n' ∉ l.2.toList) :
    (lines.flatMap fun l => (line l).splitOn '\n') = lines.map line := by
  have hone : ∀ l ∈ lines, (line l).splitOn '\n' = [line l] := fun l hl =>
    List.splitOn_eq_singleton (by simp [line, h l hl])
  rw [List.flatMap_congr hone, List.map_eq_flatMap]

/-- **What is written is read back.** -/
theorem read_write_of_plain
    (h : ∀ l ∈ lines, ':' ∉ l.1.toList ∧ '\n' ∉ l.1.toList ∧ '\n' ∉ l.2.toList) : read (write lines) = some lines := by
  rw [read_write, flatMap_splitOn_of_plain fun l hl => (h l hl).2]
  exact readAll_map_line fun l hl => (h l hl).1

theorem newline_notMem_of_readLines : ∀ {ls : List (List Char)} {lines : List (String × String)}, (∀ l ∈ ls, '\n' ∉ l) →
    readLines ls = some lines → ∀ l ∈ lines, '\n' ∉ l.2.toList
  | l :: ls, lines, hls, h, kv, hkv => by
    unfold readLines at h
    split at h
    next => cases h
    next =>
      rw [← Option.some.inj h] at hkv
      cases hkv
    next he =>
      obtain ⟨rfl, rfl⟩ := List.cons.inj he
      obtain ⟨⟨k, v⟩, hs, h⟩ := Option.bind_eq_some_iff.mp h
      obtain ⟨rest, hr, rfl⟩ := Option.map_eq_some_iff.mp h
      rcases List.mem_cons.mp hkv with rfl | hkv
      · rw [String.toList_ofList]
        exact fun hc => hls l List.mem_cons_self (mem_of_splitOnce hs hc)
      · exact newline_notMem_of_readLines (fun l' hl' => hls l' (List.mem_cons_of_mem _ hl')) hr kv hkv

theorem newline_notMem_of_read {text : String} (h : read text = some lines) :
    ∀ l ∈ lines, '\n' ∉ l.2.toList :=
  newline_notMem_of_readLines (fun _ hl => List.notMem_of_mem_splitOn hl) h

/-! ### Entries -/

theorem mem_present {fields : List (String × Option String)} {l : String × String} :
    l ∈ present fields ↔ (l.1, some l.2) ∈ fields := by
  simp only [present, List.mem_filterMap, Option.map_eq_some_iff]
  constructor
  · rintro ⟨f, hf, v, hv, rfl⟩
    exact hv ▸ hf
  · exact fun h => ⟨_, h, l.2, rfl, rfl⟩

theorem present_append (fs gs : List (String × Option String)) : present (fs ++ gs) = present fs ++ present gs :=
  List.filterMap_append

theorem sublist_keys_present : ∀ fields : List (String × Option String),
    ((present fields).map Prod.fst).Sublist (fields.map Prod.fst)
  | [] => .slnil
  | (k, none) :: fields => (sublist_keys_present fields).cons k
  | (k, some _) :: fields => (sublist_keys_present fields).cons_cons k

/-- A key finds its entry, if it is there. -/
theorem lookup_present {k : String} : ∀ {fields : List (String × Option String)}, (fields.map Prod.fst).Nodup →
    (present fields).lookup k = (fields.lookup k).join
  | [], _ => rfl
  | (k', v) :: fields, h => by
    obtain ⟨hk, hnodup⟩ := List.nodup_cons.mp h
    have ih := lookup_present (k := k) hnodup
    have habsent : k = k' → (present fields).lookup k = none := by
      rintro rfl
      refine List.lookup_eq_none_iff.mpr fun l hl => ?_
      have hm : l.1 ∈ fields.map Prod.fst := (sublist_keys_present fields).subset (List.mem_map_of_mem hl)
      exact bne_iff_ne.mpr fun he => hk (he ▸ hm)
    cases v with
    | none =>
      change (present fields).lookup k = _
      by_cases hkk : k = k'
      · rw [habsent hkk]
        simp [hkk]
      · rw [ih, List.lookup_cons, beq_false_of_ne hkk]
    | some v =>
      change List.lookup k ((k', v) :: present fields) = _
      rw [List.lookup_cons, List.lookup_cons, ih]
      cases hkk : k == k' <;> rfl

end Lines
