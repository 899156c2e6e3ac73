/-
# Paths of repositories

The path of a repository stands between slashes and may end in `.git`.
`clean_path` of `crates/evaluator/src/nix/flake_ref.rs` takes off the slashes
and one such ending (`cleanPath_of_git`, `cleanPath_of_not_git`); its segments
are what is between the slashes (`segments`).
-/
import Circus.NixEval.AllowedUris

namespace Circus.NixEval

open Cache (stripSuffix stripSuffix_append eq_append_of_stripSuffix)

/-! ### Slashes -/

def IsSlashes (l : List Char) : Prop := ∀ c ∈ l, c = '/'

/-- No slash at either end. -/
structure Trimmed (l : List Char) : Prop where
  head : l.head? ≠ some '/'
  last : l.getLast? ≠ some '/'

theorem isSlashes_takeWhile (l : List Char) : IsSlashes (l.takeWhile (· = '/')) := fun _ hc => by
  simpa using List.mem_takeWhile_imp hc

variable {a l : List Char}

theorem dropWhile_slashes_append (ha : IsSlashes a) (hl : l.head? ≠ some '/') :
    (a ++ l).dropWhile (· = '/') = l := by
  rw [List.dropWhile_append_of_pos fun c hc => by simp [ha c hc]]
  cases l with
  | nil => rfl
  | cons => exact List.dropWhile_cons_of_neg (by simpa using hl)

theorem head?_dropWhile_slashes (l : List Char) : (l.dropWhile (· = '/')).head? ≠ some '/' := by
  intro h
  have := List.head?_dropWhile_not (fun c => decide (c = '/')) l
  rw [h] at this
  simp at this

theorem trimSlashes_append {b : List Char} (ha : IsSlashes a) (hl : Trimmed l) (hb : IsSlashes b) :
    trimSlashes (a ++ (l ++ b)) = l := by
  by_cases hnil : l = []
  · subst hnil
    have hall : IsSlashes (a ++ ([] ++ b)) := fun c hc => by
      rcases List.mem_append.mp hc with h | h
      · exact ha c h
      · exact hb c h
    have hdrop : (a ++ ([] ++ b)).dropWhile (· = '/') = [] := by
      simpa using dropWhile_slashes_append (l := []) hall (by simp)
    rw [trimSlashes, hdrop]
    rfl
  · have hhead : (l ++ b).head? ≠ some '/' := by
      rw [List.head?_append_of_ne_nil _ hnil]
      exact hl.head
    rw [trimSlashes, dropWhile_slashes_append ha hhead, List.reverse_append,
      dropWhile_slashes_append (fun c hc => hb c (List.mem_reverse.mp hc)) (by rw [List.head?_reverse]; exact hl.last),
      List.reverse_reverse]

/-- **What is trimmed** is between slashes. -/
theorem exists_trimSlashes (l : List Char) :
    ∃ a b, IsSlashes a ∧ IsSlashes b ∧ l = a ++ (trimSlashes l ++ b) ∧ Trimmed (trimSlashes l) := by
  have hfront : l.takeWhile (· = '/') ++ l.dropWhile (· = '/') = l := List.takeWhile_append_dropWhile
  have hback : l.dropWhile (· = '/') =
      trimSlashes l ++ ((l.dropWhile (· = '/')).reverse.takeWhile (· = '/')).reverse := by
    rw [trimSlashes, ← List.reverse_append, List.takeWhile_append_dropWhile, List.reverse_reverse]
  refine ⟨_, _, isSlashes_takeWhile l,
    fun c hc => isSlashes_takeWhile (l.dropWhile (· = '/')).reverse c (List.mem_reverse.mp hc), ?_, ?_, ?_⟩
  · rw [← hback, hfront]
  · intro hhead
    have hne : trimSlashes l ≠ [] := by
      intro hnil
      simp [hnil] at hhead
    refine head?_dropWhile_slashes l ?_
    rw [hback, List.head?_append_of_ne_nil _ hne, hhead]
  · intro hlast
    refine head?_dropWhile_slashes (l.dropWhile (· = '/')).reverse ?_
    rw [trimSlashes, List.getLast?_reverse] at hlast
    exact hlast

theorem trimmed_trimSlashes (l : List Char) : Trimmed (trimSlashes l) := by
  obtain ⟨-, -, -, -, -, htrim⟩ := exists_trimSlashes l
  exact htrim

theorem trimSlashes_of_trimmed (h : Trimmed l) : trimSlashes l = l := by
  have := trimSlashes_append (a := []) (b := []) (fun _ hc => absurd hc List.not_mem_nil) h
    fun _ hc => absurd hc List.not_mem_nil
  simpa using this

/-- Without a slash in front, only those at the end go. -/
theorem exists_trimSlashes_of_head (h : l.head? ≠ some '/') :
    ∃ b, IsSlashes b ∧ l = trimSlashes l ++ b := by
  obtain ⟨a, b, ha, hb, heq, -⟩ := exists_trimSlashes l
  cases a with
  | nil => exact ⟨b, hb, heq⟩
  | cons c =>
    rw [heq, ha c List.mem_cons_self] at h
    exact absurd rfl h

theorem trimSlashes_subset (l : List Char) : trimSlashes l ⊆ l := by
  obtain ⟨a, b, -, -, heq, -⟩ := exists_trimSlashes l
  intro c hc
  rw [heq]
  simp [hc]

/-! ### Cleaning -/

/-- The path up to slashes around it and one ending `.git`. -/
def SamePath (path clean : List Char) : Prop :=
  ∃ s, IsSlashes s ∧ (trimSlashes path = trimSlashes clean ++ s ∨
    trimSlashes path = trimSlashes clean ++ s ++ ".git".toList)

theorem cleanPath_of_git {path : String} (h : trimSlashes path.toList = l ++ ".git".toList) :
    (cleanPath path).toList = trimSlashes l := by
  have hstrip : stripSuffix ".git" (String.ofList (trimSlashes path.toList)) = some (String.ofList l) := by
    rw [h, String.ofList_append, String.ofList_toList, stripSuffix_append]
  rw [cleanPath, hstrip, Option.getD_some, String.toList_ofList, String.toList_ofList]

theorem cleanPath_of_not_git {path : String} (h : ¬ ".git".toList <:+ trimSlashes path.toList) :
    (cleanPath path).toList = trimSlashes path.toList := by
  have hstrip : stripSuffix ".git" (String.ofList (trimSlashes path.toList)) = none := by
    cases hs : stripSuffix ".git" (String.ofList (trimSlashes path.toList)) with
    | none => rfl
    | some rest =>
      refine absurd ⟨rest.toList, ?_⟩ h
      have := congrArg String.toList (eq_append_of_stripSuffix hs)
      rw [String.toList_ofList, String.toList_append] at this
      exact this.symm
  rw [cleanPath, hstrip, Option.getD_none, String.toList_ofList, String.toList_ofList,
    trimSlashes_of_trimmed (trimmed_trimSlashes _)]

theorem git_cases (path : String) : (∃ l, trimSlashes path.toList = l ++ ".git".toList) ∨
    ¬ ".git".toList <:+ trimSlashes path.toList := by
  by_cases h : ".git".toList <:+ trimSlashes path.toList
  · obtain ⟨l, hl⟩ := h
    exact .inl ⟨l, hl.symm⟩
  · exact .inr h

theorem trimmed_cleanPath (path : String) : Trimmed (cleanPath path).toList := by
  rcases git_cases path with ⟨l, hl⟩ | h
  · exact cleanPath_of_git hl ▸ trimmed_trimSlashes l
  · exact cleanPath_of_not_git h ▸ trimmed_trimSlashes _

/-- **Cleaning keeps the path** up to the slashes and the ending. -/
theorem samePath_cleanPath (path : String) : SamePath path.toList ('/' :: (cleanPath path).toList) := by
  have htrim : trimSlashes ('/' :: (cleanPath path).toList) = (cleanPath path).toList := by
    have := trimSlashes_append (a := ['/']) (b := []) (fun c hc => List.mem_singleton.mp hc) (trimmed_cleanPath path)
      fun _ hc => absurd hc List.not_mem_nil
    simpa using this
  rw [SamePath, htrim]
  rcases git_cases path with ⟨l, hl⟩ | h
  · have hhead : l.head? ≠ some '/' := by
      intro hhead
      have hne : l ≠ [] := by
        rintro rfl
        cases hhead
      refine (trimmed_trimSlashes path.toList).head ?_
      rw [hl, List.head?_append_of_ne_nil _ hne, hhead]
    obtain ⟨b, hb, heq⟩ := exists_trimSlashes_of_head hhead
    exact ⟨b, hb, .inr (by rw [cleanPath_of_git hl, hl, ← heq])⟩
  · exact ⟨[], fun _ hc => absurd hc List.not_mem_nil, .inl (by rw [cleanPath_of_not_git h, List.append_nil])⟩

theorem cleanPath_subset (path : String) : (cleanPath path).toList ⊆ path.toList := by
  rcases git_cases path with ⟨l, hl⟩ | h
  · rw [cleanPath_of_git hl]
    intro c hc
    refine trimSlashes_subset path.toList ?_
    rw [hl]
    exact List.mem_append_left _ (trimSlashes_subset l hc)
  · rw [cleanPath_of_not_git h]
    exact trimSlashes_subset _

/-! ### Segments -/

/-- What is between the slashes. -/
def segments (path : List Char) : List (List Char) := (path.splitOn '/').filter fun s => !s.isEmpty

theorem mem_segments {path s : List Char} (h : s ∈ segments path) : s ≠ [] ∧ '/' ∉ s := by
  obtain ⟨hs, hne⟩ := List.mem_filter.mp h
  exact ⟨by simpa using hne, List.notMem_of_mem_splitOn hs⟩

/-- **A slash separates.** -/
theorem segments_append_slash (a b : List Char) : segments (a ++ '/' :: b) = segments a ++ segments b := by
  rw [segments, List.splitOn_append_cons_self, List.filter_append]
  rfl

theorem segments_slashes (path : List Char) (ha : IsSlashes a) :
    segments (a ++ path) = segments path := by
  induction a with
  | nil => rfl
  | cons c a ih =>
    rw [List.cons_append, ha c List.mem_cons_self]
    exact (segments_append_slash [] (a ++ path)).trans (ih fun d hd => ha d (List.mem_cons_of_mem c hd))

theorem segments_dropWhile (path : List Char) : segments (path.dropWhile (· = '/')) = segments path := by
  have := segments_slashes (path.dropWhile (· = '/')) (isSlashes_takeWhile path)
  rwa [List.takeWhile_append_dropWhile, eq_comm] at this

theorem segments_single {s : List Char} (h : '/' ∉ s) (hne : s ≠ []) : segments s = [s] := by
  simp [segments, List.splitOn_eq_singleton h, hne]

theorem segments_pair {owner repo : List Char} (ho : owner ≠ [] ∧ '/' ∉ owner) (hr : repo ≠ [] ∧ '/' ∉ repo) :
    segments (owner ++ '/' :: repo) = [owner, repo] := by
  rw [segments_append_slash, segments_single ho.2 ho.1, segments_single hr.2 hr.1, List.singleton_append]

theorem segments_ne_nil {c : Char} (hc : c ∈ l) (hne : c ≠ '/') : segments l ≠ [] := by
  have hjoin : ['/'].intercalate (l.splitOn '/') = l := List.intercalate_splitOn '/'
  rw [← hjoin] at hc
  rcases List.mem_intercalate hc with h | ⟨part, hpart, h⟩
  · exact absurd (List.mem_singleton.mp h) hne
  · refine List.ne_nil_of_mem (List.mem_filter.mpr ⟨hpart, ?_⟩)
    simpa using List.ne_nil_of_mem h

/-- More text has no fewer segments. -/
theorem length_segments_le (l tail : List Char) : (segments l).length ≤ (segments (l ++ tail)).length := by
  -- what is after the last slash is at most one segment
  have hlast : ∀ b : List Char, '/' ∉ b → (segments b).length ≤ (segments (b ++ tail)).length := by
    intro b hb
    cases b with
    | nil => exact Nat.zero_le _
    | cons c b =>
      have hne : c ≠ '/' := fun he => hb (he ▸ List.mem_cons_self)
      rw [segments_single hb (List.cons_ne_nil c b)]
      exact List.length_pos_of_ne_nil (segments_ne_nil (List.mem_append_left tail List.mem_cons_self) hne)
  by_cases hslash : '/' ∈ l
  · obtain ⟨x, y, hxy, hx⟩ := List.eq_append_cons_of_mem (List.mem_reverse.mpr hslash)
    obtain rfl : l = y.reverse ++ '/' :: x.reverse := by
      have := congrArg List.reverse hxy
      simpa using this
    have := hlast x.reverse (by simpa using hx)
    rw [List.append_assoc, List.cons_append, segments_append_slash, segments_append_slash, List.length_append,
      List.length_append]
    omega
  · exact hlast l hslash

/-- Cleaning loses no segments but `.git`. -/
theorem length_segments_cleanPath_le (path : String) :
    (segments (cleanPath path).toList).length ≤ (segments path.toList).length := by
  obtain ⟨a, b, ha, -, heq, -⟩ := exists_trimSlashes path.toList
  have hle : (segments (trimSlashes path.toList)).length ≤ (segments path.toList).length := by
    conv_rhs => rw [heq, segments_slashes _ ha]
    exact length_segments_le _ b
  rcases git_cases path with ⟨l, hl⟩ | h
  · obtain ⟨a', b', ha', -, heq', -⟩ := exists_trimSlashes l
    rw [cleanPath_of_git hl]
    refine le_trans ?_ hle
    rw [hl]
    conv_rhs => rw [heq', List.append_assoc, segments_slashes _ ha', List.append_assoc]
    exact length_segments_le _ _
  · rw [cleanPath_of_not_git h]
    exact hle

end Circus.NixEval
