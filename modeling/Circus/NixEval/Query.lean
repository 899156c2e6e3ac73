/-
# The attributes of a reference

`with_pinned_query` of `crates/evaluator/src/nix/flake_ref.rs` writes the
attributes of a source as a query in the form encoding. `readQuery` is what a
reader of the reference makes of such a text; it reads back what was written
(`readQuery_serialize`).
-/
import Circus.NixEval.AllowedUris

namespace Circus.NixEval

open Cache (splitFirst splitFirst_append)

/-- The value of a hexadecimal digit. -/
def hexValue (c : Char) : Option ℕ :=
  if '0' ≤ c ∧ c ≤ '9' then some (c.toNat - '0'.toNat)
  else if 'A' ≤ c ∧ c ≤ 'F' then some (c.toNat - 'A'.toNat + 10)
  else if 'a' ≤ c ∧ c ≤ 'f' then some (c.toNat - 'a'.toNat + 10)
  else none

/-- The bytes of a component: a plus is a blank, and two digits after a percent sign are a byte. -/
def percentDecode : List Char → List UInt8
  | [] => []
  | c :: l =>
    if c = '+' then 32 :: percentDecode l
    else
      match c, l with
      | '%', a :: b :: rest =>
        match hexValue a, hexValue b with
        | some x, some y => UInt8.ofNat (16 * x + y) :: percentDecode rest
        | _, _ => 37 :: percentDecode (a :: b :: rest)
      | c, l => String.utf8EncodeChar c ++ percentDecode l

/-- A component, if its bytes are a text. -/
def readComponent (text : List Char) : Option String := String.fromUTF8? (percentDecode text).toByteArray

/-- The name and the value of an attribute, cut at the first equals sign. -/
def readAttribute (text : List Char) : Option (String × String) :=
  let (name, value) := (splitFirst '=' text).getD (text, [])
  (readComponent name).bind fun name => (readComponent value).map fun value => (name, value)

def readQuery (text : List Char) : Option (List (String × String)) :=
  ((text.splitOn '&').filter fun part => !part.isEmpty).mapM readAttribute

/-! ### Components -/

/-- What the form encoding uses for itself. -/
def isReserved (c : Char) : Bool := decide (c ∈ ['+', '%', '&', '=', '#'])

theorem hexValue_digitChar : ∀ n < 16, hexValue (Nat.digitChar n).toUpper = some n ∧
    isReserved (Nat.digitChar n).toUpper = false := by decide

theorem ascii_of_plain : ∀ n < 128, (Char.ofNat n).isAlphanum ∨ Char.ofNat n ∈ ['*', '-', '.', '_'] →
    String.utf8EncodeChar (Char.ofNat n) = [UInt8.ofNat n] ∧ isReserved (Char.ofNat n) = false := by decide +kernel

/-- A byte is written as itself, as a plus, or as its two digits. -/
theorem encodeByte_cases (b : UInt8) :
    (∃ c, encodeByte b = [c] ∧ String.utf8EncodeChar c = [b] ∧ isReserved c = false) ∨
    (encodeByte b = ['+'] ∧ b = 32) ∨
    ∃ c d x y, encodeByte b = ['%', c, d] ∧ hexValue c = some x ∧ hexValue d = some y ∧
      b = UInt8.ofNat (16 * x + y) ∧ isReserved c = false ∧ isReserved d = false := by
  have hb : b.toNat < 256 := b.toNat_lt
  have hself : UInt8.ofNat b.toNat = b := UInt8.ofNat_toNat
  unfold encodeByte
  dsimp only
  split_ifs with hplain hblank
  · obtain ⟨henc, hres⟩ := ascii_of_plain b.toNat hplain.1 hplain.2
    exact .inl ⟨_, rfl, by rw [henc, hself], hres⟩
  · refine .inr (.inl ⟨rfl, ?_⟩)
    have htoNat : (Char.ofNat b.toNat).toNat = b.toNat := by
      simp only [Char.toNat_ofNat, Nat.isValidChar]
      rw [if_pos (by omega)]
    rw [← hself, ← htoNat, hblank]
    rfl
  · obtain ⟨hx, hresx⟩ := hexValue_digitChar (b.toNat / 16) (by omega)
    obtain ⟨hy, hresy⟩ := hexValue_digitChar (b.toNat % 16) (by omega)
    refine .inr (.inr ⟨_, _, _, _, rfl, hx, hy, ?_, hresx, hresy⟩)
    rw [Nat.div_add_mod, hself]

theorem percentDecode_encodeByte (b : UInt8) (rest : List Char) :
    percentDecode (encodeByte b ++ rest) = b :: percentDecode rest := by
  rcases encodeByte_cases b with ⟨c, henc, hutf, hres⟩ | ⟨henc, rfl⟩ | ⟨c, d, x, y, henc, hx, hy, rfl, -, -⟩
  · have hne : c ≠ '+' ∧ c ≠ '%' := by
      simp only [isReserved, List.mem_cons, decide_eq_false_iff_not, not_or] at hres
      exact ⟨hres.1, hres.2.1⟩
    rw [henc, List.singleton_append, percentDecode.eq_3 _ _ (fun _ _ _ h => absurd h hne.2), if_neg hne.1, hutf,
      List.singleton_append]
  · rw [henc]
    simp [percentDecode]
  · rw [henc]
    simp [percentDecode, hx, hy]

theorem percentDecode_flatMap_encodeByte (bytes : List UInt8) : percentDecode (bytes.flatMap encodeByte) = bytes := by
  induction bytes with
  | nil => rfl
  | cons b bytes ih => rw [List.flatMap_cons, percentDecode_encodeByte, ih]

/-- **A component is read back.** -/
theorem readComponent_urlEncode (s : String) : readComponent (urlEncode s) = some s := by
  have hbytes : (s.toList.flatMap String.utf8EncodeChar).toByteArray = s.toByteArray := s.utf8Encode_toList
  rw [readComponent, urlEncode, percentDecode_flatMap_encodeByte, hbytes, String.fromUTF8?]
  exact dif_pos s.isValidUTF8

/-- A component holds no separators. -/
theorem separator_notMem_urlEncode {s : String} {c : Char} (hc : c ∈ ['&', '=', '#']) : c ∉ urlEncode s := by
  intro hmem
  obtain ⟨b, -, hb⟩ := List.mem_flatMap.mp hmem
  have hres : isReserved c = true := by
    simp only [isReserved, decide_eq_true_eq]
    exact List.mem_cons_of_mem _ (List.mem_cons_of_mem _ hc)
  rcases encodeByte_cases b with ⟨d, henc, -, hd⟩ | ⟨henc, -⟩ | ⟨d, e, x, y, henc, -, -, -, hd, he⟩
  · rw [henc, List.mem_singleton] at hb
    rw [hb, hd] at hres
    cases hres
  · rw [henc, List.mem_singleton] at hb
    subst hb
    revert hc
    decide
  · rw [henc] at hb
    simp only [List.mem_cons, List.not_mem_nil, or_false] at hb
    rcases hb with rfl | rfl | rfl
    · revert hc
      decide
    · rw [hd] at hres
      cases hres
    · rw [he] at hres
      cases hres

/-! ### Queries -/

theorem separator_notMem_attribute {p : String × String} {c : Char} (hc : c ∈ ['&', '#']) :
    c ∉ urlEncode p.1 ++ '=' :: urlEncode p.2 := by
  have hsep : c ∈ ['&', '=', '#'] := by
    rw [List.mem_cons, List.mem_singleton] at hc
    rcases hc with rfl | rfl <;> decide
  rw [List.mem_append, List.mem_cons]
  rintro (h | rfl | h)
  · exact separator_notMem_urlEncode hsep h
  · revert hc
    decide
  · exact separator_notMem_urlEncode hsep h

theorem readAttribute_encoded (p : String × String) :
    readAttribute (urlEncode p.1 ++ '=' :: urlEncode p.2) = some p := by
  rw [readAttribute, splitFirst_append (separator_notMem_urlEncode (by decide))]
  simp [readComponent_urlEncode]

theorem mapM_readAttribute (query : List (String × String)) :
    (query.map fun p => urlEncode p.1 ++ '=' :: urlEncode p.2).mapM readAttribute = some query := by
  induction query with
  | nil => rfl
  | cons p query ih => simp [List.mapM_cons, readAttribute_encoded, ih]

/-- **Attributes are read back.** -/
theorem readQuery_serialize (query : List (String × String)) : readQuery (serialize query).toList = some query := by
  cases query with
  | nil => rfl
  | cons p query =>
    have hsplit : (serialize (p :: query)).toList.splitOn '&' =
        (p :: query).map fun p => urlEncode p.1 ++ '=' :: urlEncode p.2 := by
      rw [serialize, String.toList_ofList]
      refine List.splitOn_intercalate '&' (fun l hl hmem => ?_) (by simp)
      obtain ⟨q, -, rfl⟩ := List.mem_map.mp hl
      exact separator_notMem_attribute (by decide) hmem
    have hfilter : ((p :: query).map fun p => urlEncode p.1 ++ '=' :: urlEncode p.2).filter
        (fun part => !part.isEmpty) = (p :: query).map fun p => urlEncode p.1 ++ '=' :: urlEncode p.2 := by
      refine List.filter_eq_self.mpr fun l hl => ?_
      obtain ⟨q, -, rfl⟩ := List.mem_map.mp hl
      simp
    rw [readQuery, hsplit, hfilter, mapM_readAttribute]

theorem hash_notMem_serialize (query : List (String × String)) : '#' ∉ (serialize query).toList := by
  intro hmem
  rw [serialize, String.toList_ofList] at hmem
  rcases List.mem_intercalate hmem with h | ⟨l, hl, h⟩
  · exact absurd h (by decide)
  · obtain ⟨q, -, rfl⟩ := List.mem_map.mp hl
    exact separator_notMem_attribute (by decide) h

end Circus.NixEval
