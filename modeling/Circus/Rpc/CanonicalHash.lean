/-
# One text for a hash

`canonical_nix_sha256_hash` of `crates/queue-runner/src/worker.rs` brings the
NAR hashes that Nix prints into one form, and `parse_sha256_hash` reads the
same texts where an upload is verified. An SRI or a hexadecimal hash is decoded
and written anew; a text of 52 base-32 digits is returned as it is. Of its
first digit only one bit counts, so a digest has sixteen such texts, of which
one is the form that Nix writes (`Surplus` are the others).
-/
import Circus.Rpc.UploadVerify

namespace Circus.Rpc

open Nix
open Evaluator.Webhooks (stripPrefix stripPrefix_append eq_append_of_stripPrefix)

def canonicalSha256Bytes (bytes : Bytes) : Option String :=
  if bytes.length ≠ 32 then none else some ("sha256:" ++ encodeSha256 (digestOf bytes))

def canonicalNixSha256Hash (text : String) : Option String :=
  match stripPrefix "sha256-" text with
  | some sri => (decodeBase64 (padBase64 sri).toList).bind canonicalSha256Bytes
  | none =>
    match stripPrefix "sha256:" text with
    | some rest =>
      if rest.toList.length = 52 ∧ rest.toList.all isBase32Char = true then some text
      else if rest.toList.length = 64 ∧ rest.toList.all (fun c => (hexValue c).isSome) = true then
        (decodeHex rest.toList).bind canonicalSha256Bytes
      else none
    | none => none

/-- The text is in base 32, and its first digit has bits that no digest has. -/
def Surplus (text : String) : Prop :=
  ∃ c rest, text = "sha256:" ++ String.ofList (c :: rest) ∧ rest.length = 51 ∧
    (∀ x ∈ c :: rest, isBase32Char x = true) ∧ c ≠ '0' ∧ c ≠ '1'

theorem not_sri (rest : String) : stripPrefix "sha256-" ("sha256:" ++ rest) = none := by
  simp [stripPrefix, List.isPrefixOf?]

theorem append_ofList_inj {rest : String} {l : List Char} (h : "sha256:" ++ rest = "sha256:" ++ String.ofList l) :
    rest.toList = l := by
  simpa using congrArg String.toList h

/-- A text of 52 digits, by the value of its first one. -/
theorem surplus_digits_iff {v : ℕ} {vals : List ℕ} (hlen : vals.length = 51) (h : ∀ x ∈ v :: vals, x < 32) :
    Surplus ("sha256:" ++ String.ofList ((v :: vals).map digit)) ↔ 2 ≤ v := by
  have hv : v < 32 := h v List.mem_cons_self
  constructor
  · rintro ⟨c, rest, htext, -, -, h0, h1⟩
    have hhead := append_ofList_inj htext
    rw [String.toList_ofList, List.map_cons] at hhead
    obtain ⟨rfl, -⟩ := List.cons.inj hhead
    by_contra hlt
    have : v = 0 ∨ v = 1 := by omega
    rcases this with rfl | rfl
    · exact h0 rfl
    · exact h1 rfl
  · intro hge
    refine ⟨digit v, vals.map digit, by rw [List.map_cons], by rw [List.length_map, hlen], ?_, ?_, ?_⟩
    · intro c hc
      rw [← List.map_cons] at hc
      obtain ⟨x, hx, rfl⟩ := List.mem_map.mp hc
      exact isBase32Char_digit (h x hx)
    · intro h0
      have := @digit_inj v 0 hv (by norm_num) h0
      omega
    · intro h1
      have := @digit_inj v 1 hv (by norm_num) h1
      omega

/-! ### What is accepted -/

theorem eq_of_canonicalSha256Bytes {bytes : Bytes} {r : String} (h : canonicalSha256Bytes bytes = some r) :
    bytes.length = 32 ∧ r = "sha256:" ++ encodeSha256 (digestOf bytes) := by
  unfold canonicalSha256Bytes at h
  split_ifs at h with hlen
  exact ⟨not_not.mp hlen, (Option.some.inj h).symm⟩

/-- An accepted text is read as a digest and written anew, or has 52 digits and is kept. -/
inductive Admitted (text r : String) : Prop
  | decoded (d : Digest) (hr : r = "sha256:" ++ encodeSha256 d) (hparse : parseSha256Hash text = .ok d)
      (hs : ¬ Surplus text)
  | kept (v : ℕ) (vals : List ℕ) (hlen : vals.length = 51) (hvals : ∀ x ∈ v :: vals, x < 32)
      (htext : text = "sha256:" ++ String.ofList ((v :: vals).map digit)) (hr : r = text)

theorem admitted {text r : String} (h : canonicalNixSha256Hash text = some r) : Admitted text r := by
  unfold canonicalNixSha256Hash at h
  cases hsri : stripPrefix "sha256-" text with
  | some =>
    rw [hsri] at h
    obtain ⟨bytes, hbytes, hcanon⟩ := Option.bind_eq_some_iff.mp h
    obtain ⟨hlen, rfl⟩ := eq_of_canonicalSha256Bytes hcanon
    refine .decoded (digestOf bytes) rfl ?_ ?_
    · simp [parseSha256Hash, hsri, hbytes, hlen]
    · rintro ⟨c, rest, rfl, -⟩
      rw [not_sri] at hsri
      cases hsri
  | none =>
    rw [hsri] at h
    cases hrest : stripPrefix "sha256:" text with
    | none =>
      rw [hrest] at h
      cases h
    | some =>
      rw [hrest] at h
      obtain rfl := eq_append_of_stripPrefix hrest
      dsimp only at h
      split_ifs at h with h52 h64
      · obtain ⟨hlen, hall⟩ := h52
        obtain ⟨vals, hlt, hrest⟩ := exists_digits (List.all_eq_true.mp hall)
        have hvals : vals.length = 52 := by rw [← hlen, hrest, List.length_map]
        obtain ⟨v, vals, rfl⟩ := List.exists_cons_of_length_pos (by omega : 0 < vals.length)
        refine .kept v vals (by simpa using hvals) hlt ?_ (Option.some.inj h).symm
        rw [← hrest, String.ofList_toList]
      · obtain ⟨bytes, hbytes, hcanon⟩ := Option.bind_eq_some_iff.mp h
        obtain ⟨-, rfl⟩ := eq_of_canonicalSha256Bytes hcanon
        refine .decoded (digestOf bytes) rfl ?_ ?_
        · rw [parseSha256Hash, hsri, hrest]
          simp only [if_pos h64, hbytes]
        · rintro ⟨c, l, htext, hl, -⟩
          rw [append_ofList_inj htext, List.length_cons, hl] at h64
          omega

/-- A text of 52 digits is in base 32 for the other parser too. -/
theorem parseSha256Hash_digits {v : ℕ} {vals : List ℕ} (hlen : vals.length = 51) {d : Digest}
    (hd : decodeSha256 (String.ofList ((v :: vals).map digit)) = .ok d) :
    parseSha256Hash ("sha256:" ++ String.ofList ((v :: vals).map digit)) = .ok d := by
  have hlength : ((v :: vals).map digit).length = 52 := by simp [hlen]
  rw [parseSha256Hash, not_sri, stripPrefix_append]
  simp only
  rw [if_neg (by rw [String.toList_ofList]; omega), hd]

/-- The result is the digest's own text. -/
def IsCanonical (text r : String) : Prop := ∃ d, r = "sha256:" ++ encodeSha256 d ∧ parseSha256Hash text = .ok d

theorem isCanonical_iff {text r : String} (h : Admitted text r) : IsCanonical text r ↔ ¬ Surplus text := by
  cases h with
  | decoded d hr hparse hs => exact ⟨fun _ => hs, fun _ => ⟨d, hr, hparse⟩⟩
  | kept v vals hlen hvals htext hr =>
    obtain ⟨d, hd, hiff⟩ := decodeSha256_digits hlen hvals
    have hparse := parseSha256Hash_digits hlen hd
    rw [hr, htext, surplus_digits_iff hlen hvals, not_le, ← hiff, IsCanonical]
    constructor
    · rintro ⟨d', hr', hparse'⟩
      obtain rfl : d' = d := Except.ok.inj (hparse'.symm.trans hparse)
      exact (String.toList_inj.mp (append_ofList_inj hr'.symm |>.trans String.toList_ofList.symm))
    · intro henc
      exact ⟨d, by rw [henc], hparse⟩

theorem eq_of_surplus {text r : String} (h : Admitted text r) (hs : Surplus text) : r = text := by
  cases h with
  | decoded d hr hparse hns => exact absurd hs hns
  | kept v vals hlen hvals htext hr => exact hr

/-- Two texts of one digest, where one of them has a surplus. -/
theorem surplus_of_eq {text text' r : String} {d : Digest} (h : Admitted text r) (h' : Admitted text' r)
    (hd : parseSha256Hash text = .ok d) (hd' : parseSha256Hash text' = .ok d) (hs : Surplus text) : Surplus text' := by
  by_contra hns
  obtain ⟨d', hr, hparse⟩ := (isCanonical_iff h').mpr hns
  obtain rfl : d' = d := Except.ok.inj (hparse.symm.trans hd')
  exact (isCanonical_iff h).mp ⟨d', hr, hd⟩ hs

/-- **Normalised hashes**, but for base-32 texts with a surplus in their first
digit: the result is the digest's own text, and one text for one digest. -/
theorem hash_canonical_iff {text r : String} (h : canonicalNixSha256Hash text = some r) :
    (IsCanonical text r ↔ ¬ Surplus text) ∧
      ∀ text' r' d, canonicalNixSha256Hash text' = some r' → parseSha256Hash text = .ok d →
        parseSha256Hash text' = .ok d → (r = r' ↔ text = text' ∨ ¬ Surplus text ∧ ¬ Surplus text') := by
  refine ⟨isCanonical_iff (admitted h), fun text' r' d h' hd hd' => ?_⟩
  constructor
  · rintro rfl
    by_cases hs : Surplus text
    · have hs' := surplus_of_eq (admitted h) (admitted h') hd hd' hs
      exact .inl ((eq_of_surplus (admitted h) hs).symm.trans (eq_of_surplus (admitted h') hs'))
    · exact .inr ⟨hs, fun hs' => hs (surplus_of_eq (admitted h') (admitted h) hd' hd hs')⟩
  · rintro (rfl | ⟨hs, hs'⟩)
    · exact Option.some.inj (h.symm.trans h')
    · obtain ⟨e, hr, he⟩ := (isCanonical_iff (admitted h)).mpr hs
      obtain ⟨e', hr', he'⟩ := (isCanonical_iff (admitted h')).mpr hs'
      have hdigest : e = e' := Except.ok.inj ((he.symm.trans hd).trans (hd'.symm.trans he'))
      rw [hr, hr', hdigest]

/-- The digest of zeros in base 32, with this first digit. -/
def zeros (first : Char) : String := "sha256:" ++ String.ofList (first :: List.replicate 51 '0')

/-- The same digest in hexadecimal. -/
def hexZeros : String := "sha256:" ++ String.ofList (List.replicate 64 '0')

theorem hash_canonical_iff_hex : canonicalNixSha256Hash hexZeros = some (zeros '0') ∧
    IsCanonical hexZeros (zeros '0') := by
  have haccept : canonicalNixSha256Hash hexZeros = some (zeros '0') := by decide +kernel
  refine ⟨haccept, (hash_canonical_iff haccept).1.mpr ?_⟩
  rintro ⟨c, rest, htext, hlen, -⟩
  have := congrArg List.length (append_ofList_inj htext)
  simp [hlen] at this

/-- A first digit of 2 stands for a bit that is not read: the text is kept, and is the text of no digest. -/
theorem surplus_kept : canonicalNixSha256Hash (zeros '2') = some (zeros '2') ∧
    ∀ d, zeros '2' ≠ "sha256:" ++ encodeSha256 d := by
  refine ⟨by decide +kernel, fun d hd => ?_⟩
  have hwritten : encodeSha256 d = String.ofList ((2 :: List.replicate 51 0).map digit) := by
    rw [encodeSha256, ← toList_encodeSha256, append_ofList_inj hd.symm]
    rfl
  obtain ⟨e, he, hiff⟩ := decodeSha256_digits (List.length_replicate : (List.replicate 51 0).length = 51)
    (by decide : ∀ x ∈ 2 :: List.replicate 51 0, x < 32)
  rw [← hwritten, decodeSha256_encodeSha256] at he
  obtain rfl := Except.ok.inj he
  exact absurd (hiff.mp hwritten) (by norm_num)

/-- **Normalising a hash** keeps the digest that is read from it, and changes
nothing the second time. -/
theorem canonical_idempotent {text r : String} (h : canonicalNixSha256Hash text = some r) :
    canonicalNixSha256Hash r = some r ∧ parseSha256Hash r = parseSha256Hash text := by
  cases admitted h with
  | decoded d hr hparse =>
    have hlen : (encodeSha256 d).toList.length = 52 := by rw [toList_encodeSha256, length_base32Digits]
    have hall : (encodeSha256 d).toList.all isBase32Char = true :=
      List.all_eq_true.mpr fun c hc => isBase32Char_of_mem_encodeSha256 hc
    subst hr
    rw [hparse, canonicalNixSha256Hash, parseSha256Hash, not_sri, stripPrefix_append]
    dsimp only
    rw [if_pos ⟨hlen, hall⟩, if_neg (by omega), decodeSha256_encodeSha256]
    exact ⟨rfl, rfl⟩
  | kept _ _ _ _ _ hr =>
    subst hr
    exact ⟨h, rfl⟩

theorem canonical_idempotent_hex : canonicalNixSha256Hash (zeros '0') = some (zeros '0') ∧
    parseSha256Hash (zeros '0') = parseSha256Hash hexZeros :=
  canonical_idempotent (by decide +kernel)

end Circus.Rpc
