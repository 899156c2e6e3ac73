/-
# Stripping an ending as often as it is there

`str::trim_end_matches` with a text. What is left does not end in the text
(`not_suffix_trimEnd`), and copies of the text itself make no difference to what
is left (`exists_trimEnd`, `trimEnd_append_copies`).
-/
import Mathlib

namespace Strip

variable {α : Type*} {tail : List α}

/-- Copies of the text, one after the other. -/
def copies (tail : List α) (k : ℕ) : List α := (List.replicate k tail).flatten

@[simp] theorem copies_zero : copies tail 0 = [] := rfl

theorem copies_succ (k : ℕ) : copies tail (k + 1) = copies tail k ++ tail := by
  simp [copies, List.replicate_succ']

theorem mem_of_mem_copies {x : α} {k : ℕ} (h : x ∈ copies tail k) : x ∈ tail := by
  obtain ⟨l, hl, hx⟩ := List.mem_flatten.mp h
  rwa [List.eq_of_mem_replicate hl] at hx

variable [DecidableEq α] (tail)

/-- Strip `tail` at most `n` times. -/
def trimEndN : ℕ → List α → List α
  | 0, l => l
  | n + 1, l => if tail <:+ l then trimEndN n (l.take (l.length - tail.length)) else l

/-- `trim_end_matches`, for a text that is not empty. -/
def trimEnd (l : List α) : List α := trimEndN tail l.length l

variable {tail}

theorem trimEndN_of_not_suffix {l : List α} (h : ¬ tail <:+ l) : ∀ n, trimEndN tail n l = l
  | 0 => rfl
  | _ + 1 => if_neg h

theorem trimEndN_succ_append (n : ℕ) (l : List α) : trimEndN tail (n + 1) (l ++ tail) = trimEndN tail n l := by
  rw [trimEndN, if_pos (List.suffix_append l tail)]
  simp

/-- A list is not stripped more often than it is long. -/
theorem trimEndN_eq (ht : tail ≠ []) {n m : ℕ} {l : List α} (hn : l.length ≤ n) (hm : l.length ≤ m) :
    trimEndN tail n l = trimEndN tail m l := by
  have hpos : 0 < tail.length := List.length_pos_of_ne_nil ht
  induction n generalizing m l with
  | zero =>
    obtain rfl : l = [] := List.eq_nil_of_length_eq_zero (by omega)
    have hnil : ¬ tail <:+ [] := by simpa using ht
    exact (trimEndN_of_not_suffix hnil m).symm
  | succ n ih =>
    by_cases hs : tail <:+ l
    · obtain ⟨rest, rfl⟩ := hs
      rw [List.length_append] at hn hm
      obtain ⟨m, rfl⟩ : ∃ k, m = k + 1 := ⟨m - 1, by omega⟩
      rw [trimEndN_succ_append, trimEndN_succ_append]
      exact ih (by omega) (by omega)
    · rw [trimEndN_of_not_suffix hs, trimEndN_of_not_suffix hs]

theorem trimEnd_of_not_suffix {l : List α} (h : ¬ tail <:+ l) : trimEnd tail l = l := trimEndN_of_not_suffix h _

theorem trimEnd_append (ht : tail ≠ []) (l : List α) : trimEnd tail (l ++ tail) = trimEnd tail l := by
  have hpos : 0 < tail.length := List.length_pos_of_ne_nil ht
  have hlen : (l ++ tail).length = (l.length + (tail.length - 1)) + 1 := by
    rw [List.length_append]
    omega
  rw [trimEnd, hlen, trimEndN_succ_append]
  exact trimEndN_eq ht (by omega) le_rfl

theorem not_suffix_trimEndN (ht : tail ≠ []) {n : ℕ} {l : List α} (hn : l.length ≤ n) :
    ¬ tail <:+ trimEndN tail n l := by
  induction n generalizing l with
  | zero =>
    obtain rfl : l = [] := List.eq_nil_of_length_eq_zero (by omega)
    simpa [trimEndN] using ht
  | succ n ih =>
    by_cases hs : tail <:+ l
    · obtain ⟨rest, rfl⟩ := hs
      have hpos : 0 < tail.length := List.length_pos_of_ne_nil ht
      rw [List.length_append] at hn
      rw [trimEndN_succ_append]
      exact ih (by omega)
    · rwa [trimEndN_of_not_suffix hs]

/-- **What is left** does not end in the text. -/
theorem not_suffix_trimEnd (ht : tail ≠ []) (l : List α) : ¬ tail <:+ trimEnd tail l := not_suffix_trimEndN ht le_rfl

/-- **What is stripped** are copies of the text. -/
theorem exists_trimEnd (l : List α) : ∃ k, l = trimEnd tail l ++ copies tail k := by
  have h : ∀ (n : ℕ) (l : List α), ∃ k, l = trimEndN tail n l ++ copies tail k := by
    intro n
    induction n with
    | zero => exact fun l => ⟨0, by simp [trimEndN]⟩
    | succ n ih =>
      intro l
      by_cases hs : tail <:+ l
      · obtain ⟨rest, rfl⟩ := hs
        obtain ⟨k, hk⟩ := ih rest
        refine ⟨k + 1, ?_⟩
        rw [trimEndN_succ_append, copies_succ, ← List.append_assoc, ← hk]
      · exact ⟨0, by rw [trimEndN_of_not_suffix hs, copies_zero, List.append_nil]⟩
  exact h l.length l

theorem trimEnd_append_copies (ht : tail ≠ []) (l : List α) (k : ℕ) :
    trimEnd tail (l ++ copies tail k) = trimEnd tail l := by
  induction k with
  | zero => rw [copies_zero, List.append_nil]
  | succ k ih => rw [copies_succ, ← List.append_assoc, trimEnd_append ht, ih]

/-- Nothing is stripped beyond an element that the text does not have. -/
theorem trimEnd_append_of_mem (ht : tail ≠ []) {a b : List α} {x : α} (hx : x ∈ b) (hxt : x ∉ tail) :
    trimEnd tail (a ++ b) = a ++ trimEnd tail b := by
  obtain ⟨k, hk⟩ := @exists_trimEnd α tail _ b
  have hmem : x ∈ trimEnd tail b := by
    rw [hk] at hx
    rcases List.mem_append.mp hx with h | h
    · exact h
    · exact absurd (mem_of_mem_copies h) hxt
  have hnot : ¬ tail <:+ a ++ trimEnd tail b := by
    intro hs
    have hsuf : trimEnd tail b <:+ a ++ trimEnd tail b := List.suffix_append _ _
    rcases Nat.le_total tail.length (trimEnd tail b).length with hle | hle
    · exact not_suffix_trimEnd ht b (List.suffix_of_suffix_length_le hs hsuf hle)
    · exact hxt ((List.suffix_of_suffix_length_le hsuf hs hle).subset hmem)
  calc trimEnd tail (a ++ b) = trimEnd tail (a ++ trimEnd tail b ++ copies tail k) := by
        rw [List.append_assoc, ← hk]
    _ = trimEnd tail (a ++ trimEnd tail b) := trimEnd_append_copies ht _ k
    _ = a ++ trimEnd tail b := trimEnd_of_not_suffix hnot

end Strip
