/-
# How hashes are written

The encodings of a SHA-256 digest that the cache reads and writes: Nix base32
(`crates/nix/src/base32.rs`), hexadecimal and base64. Nix base32 is the form a
narinfo has its NAR hash in; it has 52 digits of five bits for 256 bits, the
last digit first, so digit `n` has the bits from `5 * n` on and most digits
lie across two bytes. What `encodeSha256` writes, `decodeSha256` reads back.
-/
import Mathlib

namespace Circus.Nix

abbrev Bytes := List UInt8

abbrev Digest := Fin 32 → UInt8

/-! ### Nix base32 -/

def alphabet : List Char := "0123456789abcdfghijklmnpqrsvwxyz".toList

def isBase32Char (c : Char) : Bool := decide (c ∈ alphabet)

/-- `NixHash::is_valid`. -/
def isValidHash (hash : String) : Bool := decide (hash.toList.length = 32) && hash.toList.all isBase32Char

/-- The byte at a position, zero past the end. -/
def byteAt (d : Digest) (i : ℕ) : ℕ := if h : i < 32 then (d ⟨i, h⟩).toNat else 0

def bitAt (d : Digest) (i : ℕ) : Bool := (byteAt d (i / 8)).testBit (i % 8)

def base32Digit (d : Digest) (n : ℕ) : ℕ :=
  let bit := n * 5
  let byte := bit / 8
  let offset := bit % 8
  (byteAt d byte >>> offset ||| byteAt d (byte + 1) <<< (8 - offset)) &&& 31

/-- The digits below `n`, the last one first. -/
def base32Digits (d : Digest) : ℕ → List Char
  | 0 => []
  | n + 1 => alphabet.getD (base32Digit d n) '0' :: base32Digits d n

def encodeSha256 (d : Digest) : String := String.ofList (base32Digits d 52)

/-- `out[i] |= value`, for a byte within the digest. -/
def orByte (out : Digest) (i value : ℕ) : Digest := fun j =>
  if j.val = i then out j ||| UInt8.ofNat value else out j

def addDigit (out : Digest) (n value : ℕ) : Digest :=
  let bit := n * 5
  let byte := bit / 8
  let offset := bit % 8
  let out := orByte out byte (value <<< offset)
  if byte + 1 < 32 ∧ 3 < offset then orByte out (byte + 1) (value >>> (8 - offset)) else out

/-- The loop of `decode_sha256`; the digits that remain are the number of the digit. -/
def decodeDigits : List Char → Digest → Except String Digest
  | [], out => .ok out
  | c :: rest, out =>
    match alphabet.idxOf? c with
    | some value => decodeDigits rest (addDigit out rest.length value)
    | none => .error ("invalid Nix base32 character " ++ c.toString)

def decodeSha256 (text : String) : Except String Digest :=
  if text.utf8ByteSize ≠ 52 then
    .error ("Nix base32 sha256 hash has " ++ toString text.utf8ByteSize ++ " chars, expected 52")
  else decodeDigits text.toList fun _ => 0

/-! ### Reading back -/

theorem byteAt_lt (d : Digest) (i : ℕ) : byteAt d i < 2 ^ 8 := by
  unfold byteAt
  split
  · exact UInt8.toNat_lt _
  · norm_num

theorem base32Digit_lt (d : Digest) (n : ℕ) : base32Digit d n < 32 := by
  have : base32Digit d n ≤ 31 := Nat.and_le_right
  omega

theorem testBit_byteAt (d : Digest) (i j : ℕ) (hj : j < 8) : (byteAt d i).testBit j = bitAt d (8 * i + j) := by
  have h1 : (8 * i + j) / 8 = i := by omega
  have h2 : (8 * i + j) % 8 = j := by omega
  rw [bitAt, h1, h2]

theorem testBit_byteAt_of_le (d : Digest) (i j : ℕ) (hj : 8 ≤ j) : (byteAt d i).testBit j = false :=
  Nat.testBit_lt_two_pow ((byteAt_lt d i).trans_le (Nat.pow_le_pow_right (by norm_num) hj))

variable {v : ℕ}

/-- A digit has five bits. -/
theorem testBit_of_lt {t : ℕ} (hv : v < 32) (ht : 5 ≤ t) : v.testBit t = false :=
  Nat.testBit_lt_two_pow (hv.trans_le (Nat.pow_le_pow_right (by norm_num) ht : 2 ^ 5 ≤ 2 ^ t))

theorem testBit_base32Digit (d : Digest) (n t : ℕ) (ht : t < 5) :
    (base32Digit d n).testBit t = bitAt d (5 * n + t) := by
  have h31 : Nat.testBit 31 t = true := by interval_cases t <;> rfl
  simp only [base32Digit, Nat.testBit_and, Nat.testBit_or, Nat.testBit_shiftRight, Nat.testBit_shiftLeft, h31,
    Bool.and_true]
  by_cases hlow : n * 5 % 8 + t < 8
  · -- the bit lies in the first byte
    have hb : ¬ t ≥ 8 - n * 5 % 8 := by omega
    rw [testBit_byteAt d _ _ hlow, decide_eq_false hb, Bool.false_and, Bool.or_false]
    congr 1
    omega
  · have hb : t ≥ 8 - n * 5 % 8 := by omega
    rw [testBit_byteAt_of_le d _ _ (by omega), decide_eq_true hb, Bool.true_and, Bool.false_or,
      testBit_byteAt d _ _ (by omega)]
    congr 1
    omega

theorem byteAt_orByte (out : Digest) (i value j : ℕ) :
    byteAt (orByte out i value) j = if j = i ∧ j < 32 then byteAt out j ||| value % 2 ^ 8 else byteAt out j := by
  unfold byteAt orByte
  by_cases hj : j < 32
  · by_cases hi : j = i
    · simp [hi, hi ▸ hj]
    · simp [hj, hi]
  · simp [hj]

/-- `addDigit` adds the five bits of its value. -/
theorem bitAt_addDigit (out : Digest) {n value : ℕ} (hv : value < 32) {i : ℕ} (hi : i < 256) :
    bitAt (addDigit out n value) i = (bitAt out i || decide (5 * n ≤ i) && value.testBit (i - 5 * n)) := by
  have hmod : i % 8 < 8 := Nat.mod_lt _ (by norm_num)
  have hdiv : i / 8 < 32 := by omega
  -- the first byte of the digit, the second, or another one
  rcases (show i / 8 = n * 5 / 8 ∨ i / 8 = n * 5 / 8 + 1 ∨ i / 8 ≠ n * 5 / 8 ∧ i / 8 ≠ n * 5 / 8 + 1 by omega) with
    h1 | h2 | ⟨h1, h2⟩
  · have hne : i / 8 ≠ n * 5 / 8 + 1 := by omega
    have hbyte : byteAt (addDigit out n value) (i / 8) = byteAt out (i / 8) ||| value <<< (n * 5 % 8) % 2 ^ 8 := by
      unfold addDigit
      dsimp only
      split_ifs
      · rw [byteAt_orByte, if_neg (by omega), byteAt_orByte, if_pos (by omega)]
      · rw [byteAt_orByte, if_pos (by omega)]
    rw [bitAt, hbyte, Nat.testBit_or, Nat.testBit_mod_two_pow, decide_eq_true hmod, Bool.true_and,
      Nat.testBit_shiftLeft, ← bitAt]
    by_cases hle : 5 * n ≤ i
    · rw [decide_eq_true hle, decide_eq_true (by omega)]
      congr 3
      omega
    · rw [decide_eq_false hle, decide_eq_false (by omega), Bool.false_and, Bool.false_and]
  · have hle : 5 * n ≤ i := by omega
    have hbyte : byteAt (addDigit out n value) (i / 8) =
        if 3 < n * 5 % 8 then byteAt out (i / 8) ||| value >>> (8 - n * 5 % 8) % 2 ^ 8 else byteAt out (i / 8) := by
      unfold addDigit
      dsimp only
      split_ifs with h3 h4 h4
      · rw [byteAt_orByte, if_pos (by omega), byteAt_orByte, if_neg (by omega)]
      · omega
      · omega
      · rw [byteAt_orByte, if_neg (by omega)]
    rw [bitAt, hbyte, decide_eq_true hle, Bool.true_and]
    split_ifs with h3
    · rw [Nat.testBit_or, Nat.testBit_mod_two_pow, decide_eq_true hmod, Bool.true_and, Nat.testBit_shiftRight, ← bitAt]
      congr 2
      omega
    · rw [testBit_of_lt hv (by omega), Bool.or_false, ← bitAt]
  · have hbyte : byteAt (addDigit out n value) (i / 8) = byteAt out (i / 8) := by
      unfold addDigit
      dsimp only
      split_ifs
      · rw [byteAt_orByte, if_neg (by omega), byteAt_orByte, if_neg (by omega)]
      · rw [byteAt_orByte, if_neg (by omega)]
    rw [bitAt, hbyte, ← bitAt]
    by_cases hle : 5 * n ≤ i
    · rw [testBit_of_lt hv (by omega), Bool.and_false, Bool.or_false]
    · rw [decide_eq_false hle, Bool.false_and, Bool.or_false]

theorem idxOf?_alphabet : ∀ v < 32, alphabet.idxOf? (alphabet.getD v '0') = some v := by decide

theorem length_base32Digits (d : Digest) : ∀ n, (base32Digits d n).length = n
  | 0 => rfl
  | n + 1 => by rw [base32Digits, List.length_cons, length_base32Digits d n]

variable {d : Digest}

theorem digest_ext {e : Digest} (h : ∀ i < 256, bitAt d i = bitAt e i) : d = e := by
  funext j
  have hbyte : ∀ x : Digest, byteAt x j.val = (x j).toNat := fun x => by simp [byteAt]
  refine UInt8.toNat_inj.mp (Nat.eq_of_testBit_eq fun t => ?_)
  rw [← hbyte d, ← hbyte e]
  by_cases ht : t < 8
  · rw [testBit_byteAt d _ _ ht, testBit_byteAt e _ _ ht]
    exact h _ (by omega)
  · rw [testBit_byteAt_of_le d _ _ (by omega), testBit_byteAt_of_le e _ _ (by omega)]

/-- The digits below `n` add the bits below `5 * n`. -/
theorem decodeDigits_base32Digits (d : Digest) : ∀ (n : ℕ) (out : Digest),
    (∀ i < 256, bitAt out i = (decide (5 * n ≤ i) && bitAt d i)) → decodeDigits (base32Digits d n) out = .ok d
  | 0, out, h => by
    have hout : out = d := digest_ext fun i hi => (h i hi).trans (by simp)
    rw [base32Digits, decodeDigits, hout]
  | n + 1, out, h => by
    rw [base32Digits, decodeDigits, idxOf?_alphabet _ (base32Digit_lt d n), length_base32Digits]
    refine decodeDigits_base32Digits d n _ fun i hi => ?_
    rw [bitAt_addDigit out (base32Digit_lt d n) hi, h i hi]
    by_cases h1 : 5 * (n + 1) ≤ i
    · have h2 : (base32Digit d n).testBit (i - 5 * n) = false := testBit_of_lt (base32Digit_lt d n) (by omega)
      simp [h1, h2, (by omega : 5 * n ≤ i)]
    · by_cases h2 : 5 * n ≤ i
      · rw [testBit_base32Digit d n _ (by omega), Nat.add_sub_cancel' h2]
        simp [h1, h2]
      · simp [h1, h2]

variable {c : Char}

theorem isBase32Char_of_mem_base32Digits : ∀ {n}, c ∈ base32Digits d n → isBase32Char c = true
  | n + 1, h => by
    rcases List.mem_cons.mp h with rfl | h
    · have := base32Digit_lt d n
      have hmem : ∀ v < 32, isBase32Char (alphabet.getD v '0') = true := by decide
      exact hmem _ this
    · exact isBase32Char_of_mem_base32Digits h

theorem exists_digit_of_isBase32Char (h : isBase32Char c = true) : ∃ v < 32, c = alphabet.getD v '0' := by
  obtain ⟨v, hv, rfl⟩ := List.getElem_of_mem (of_decide_eq_true h)
  exact ⟨v, hv, (List.getD_eq_getElem _ _ hv).symm⟩

/-- Where the characters take a byte each. -/
theorem utf8ByteSize_of_ascii : ∀ {l : List Char}, (∀ c ∈ l, c.utf8Size = 1) →
    (String.ofList l).utf8ByteSize = l.length
  | [], _ => rfl
  | c :: l, h => by
    rw [String.ofList_cons, String.utf8ByteSize_append, String.utf8ByteSize_singleton, h c List.mem_cons_self,
      utf8ByteSize_of_ascii fun c hc => h c (List.mem_cons_of_mem _ hc), List.length_cons, Nat.add_comm]

theorem utf8ByteSize_of_base32 {l : List Char} (h : ∀ c ∈ l, isBase32Char c = true) :
    (String.ofList l).utf8ByteSize = l.length := by
  have hone : ∀ v < 32, (alphabet.getD v '0').utf8Size = 1 := by decide
  refine utf8ByteSize_of_ascii fun c hc => ?_
  obtain ⟨v, hv, rfl⟩ := exists_digit_of_isBase32Char (h c hc)
  exact hone v hv

theorem toList_encodeSha256 (d : Digest) : (encodeSha256 d).toList = base32Digits d 52 := String.toList_ofList

theorem isBase32Char_of_mem_encodeSha256 (h : c ∈ (encodeSha256 d).toList) : isBase32Char c = true :=
  isBase32Char_of_mem_base32Digits (toList_encodeSha256 d ▸ h)

/-- **What is written is read back.** -/
theorem decodeSha256_encodeSha256 (d : Digest) : decodeSha256 (encodeSha256 d) = .ok d := by
  have hsize : (encodeSha256 d).utf8ByteSize = 52 :=
    (utf8ByteSize_of_base32 fun _ => isBase32Char_of_mem_base32Digits).trans (length_base32Digits d 52)
  rw [decodeSha256, if_neg (by simpa using hsize), toList_encodeSha256]
  refine decodeDigits_base32Digits d 52 _ fun i hi => ?_
  have h0 : bitAt (fun _ => 0) i = false := by simp [bitAt, byteAt]
  rw [h0, decide_eq_false (by omega), Bool.false_and]

/-! ### Other texts of 52 digits

The first of them stands for the bits from 255 on, of which a digest has one:
four bits of it are dropped. -/

def digit (v : ℕ) : Char := alphabet.getD v '0'

theorem isBase32Char_digit (hv : v < 32) : isBase32Char (digit v) = true := by
  have hmem : ∀ v < 32, isBase32Char (alphabet.getD v '0') = true := by decide
  exact hmem v hv

theorem exists_digits {l : List Char} (h : ∀ c ∈ l, isBase32Char c = true) :
    ∃ vals : List ℕ, (∀ v ∈ vals, v < 32) ∧ l = vals.map digit := by
  induction l with
  | nil => exact ⟨[], by simp, rfl⟩
  | cons c l ih =>
    obtain ⟨v, hv, rfl⟩ := exists_digit_of_isBase32Char (h c List.mem_cons_self)
    obtain ⟨vals, hvals, rfl⟩ := ih fun c hc => h c (List.mem_cons_of_mem _ hc)
    exact ⟨v :: vals, List.forall_mem_cons.mpr ⟨hv, hvals⟩, rfl⟩

theorem digit_inj {v' : ℕ} (hv : v < 32) (hv' : v' < 32) (h : digit v = digit v') : v = v' := by
  have := idxOf?_alphabet v hv
  rw [show alphabet.getD v '0' = alphabet.getD v' '0' from h, idxOf?_alphabet v' hv'] at this
  exact (Option.some.inj this).symm

/-- Every digit adds its bits; digit `n` is the `n`-th from the end. -/
theorem decodeDigits_digits : ∀ (vals : List ℕ) (out : Digest), (∀ v ∈ vals, v < 32) →
    ∃ d, decodeDigits (vals.map digit) out = .ok d ∧
      ∀ i < 256, bitAt d i = (bitAt out i || (vals.reverse.getD (i / 5) 0).testBit (i % 5))
  | [], out, _ => ⟨out, rfl, fun i _ => by simp⟩
  | v :: vals, out, h => by
    obtain ⟨hv, hvals⟩ := List.forall_mem_cons.mp h
    obtain ⟨d, hd, hbits⟩ := decodeDigits_digits vals (addDigit out vals.length v) hvals
    refine ⟨d, ?_, fun i hi => ?_⟩
    · rw [List.map_cons, decodeDigits, digit, idxOf?_alphabet v hv, List.length_map]
      exact hd
    · rw [hbits i hi, bitAt_addDigit out hv hi, List.reverse_cons, Bool.or_assoc]
      congr 1
      rcases lt_trichotomy (i / 5) vals.length with hlt | heq | hgt
      · rw [decide_eq_false (by omega), Bool.false_and, Bool.false_or,
          List.getD_append _ _ _ _ (by simpa using hlt)]
      · rw [decide_eq_true (by omega), Bool.true_and, List.getD_eq_default _ _ (by simp [heq]),
          List.getD_append_right _ _ _ _ (by simp [heq]), (by omega : i - 5 * vals.length = i % 5)]
        simp [heq]
      · rw [testBit_of_lt hv (by omega), List.getD_eq_default _ _ (by simp; omega),
          List.getD_eq_default _ _ (by simp; omega)]
        simp

theorem base32Digits_eq_map : ∀ {vals : List ℕ},
    (∀ n < vals.length, base32Digit d n = vals.reverse.getD n 0) → base32Digits d vals.length = vals.map digit
  | [], _ => rfl
  | v :: vals, h => by
    have hlast : base32Digit d vals.length = v := by
      rw [h _ (by simp), List.reverse_cons, List.getD_append_right _ _ _ _ (by simp)]
      simp
    rw [List.length_cons, base32Digits, hlast, List.map_cons, digit, base32Digits_eq_map fun n hn => ?_]
    rw [h n (by simp; omega), List.reverse_cons, List.getD_append _ _ _ _ (by simpa using hn)]

/-- The bit of the first digit that is read. -/
theorem base32Digit_last (h : bitAt d 255 = v.testBit 0) : base32Digit d 51 = v % 2 := by
  refine Nat.eq_of_testBit_eq fun t => ?_
  rcases Nat.eq_zero_or_pos t with rfl | ht
  · rw [testBit_base32Digit d 51 0 (by norm_num), h]
    simp
  · have htwo : 2 ^ 1 ≤ 2 ^ t := Nat.pow_le_pow_right (by norm_num) ht
    have hhigh : (v % 2).testBit t = false := Nat.testBit_lt_two_pow ((Nat.mod_lt v (by norm_num)).trans_le htwo)
    rw [hhigh]
    by_cases h5 : t < 5
    · -- past the end of the digest
      rw [testBit_base32Digit d 51 t h5, bitAt, byteAt, dif_neg (by omega), Nat.zero_testBit]
    · exact testBit_of_lt (base32Digit_lt d 51) (by omega)

/-- **A text of 52 digits is read as some digest**, and is what that digest is
written as exactly if its first digit is 0 or 1. -/
theorem decodeSha256_digits {vals : List ℕ} (hlen : vals.length = 51) (h : ∀ x ∈ v :: vals, x < 32) :
    ∃ d, decodeSha256 (String.ofList ((v :: vals).map digit)) = .ok d ∧
      (encodeSha256 d = String.ofList ((v :: vals).map digit) ↔ v < 2) := by
  obtain ⟨d, hd, hbits⟩ := decodeDigits_digits (v :: vals) (fun _ => 0) h
  have hzero : ∀ i, bitAt (fun _ => 0) i = false := fun i => by simp [bitAt, byteAt]
  have hbase : ∀ c ∈ (v :: vals).map digit, isBase32Char c = true := by
    intro c hc
    obtain ⟨x, hx, rfl⟩ := List.mem_map.mp hc
    exact isBase32Char_digit (h x hx)
  have hsize : (String.ofList ((v :: vals).map digit)).utf8ByteSize = 52 := by
    rw [utf8ByteSize_of_base32 hbase, List.length_map, List.length_cons, hlen]
  refine ⟨d, ?_, ?_⟩
  · rw [decodeSha256, if_neg (by simpa using hsize), String.toList_ofList]
    exact hd
  -- all digits but the first are read and written alike
  have hlow : base32Digits d 51 = vals.map digit := by
    rw [← hlen]
    refine base32Digits_eq_map fun n hn => Nat.eq_of_testBit_eq fun t => ?_
    have hval : (vals.reverse.getD n 0) < 32 := by
      rw [List.getD_eq_getElem _ _ (by simpa using hn)]
      exact h _ (List.mem_cons_of_mem _ (List.mem_reverse.mp (List.getElem_mem _)))
    by_cases ht : t < 5
    · rw [testBit_base32Digit d n t ht, hbits _ (by omega), hzero, Bool.false_or, List.reverse_cons,
        (by omega : (5 * n + t) / 5 = n), (by omega : (5 * n + t) % 5 = t),
        List.getD_append _ _ _ _ (by simpa using hn)]
    · rw [testBit_of_lt (base32Digit_lt d n) (by omega), testBit_of_lt hval (by omega)]
  have hfirst : base32Digit d 51 = v % 2 := by
    refine base32Digit_last ?_
    rw [hbits 255 (by norm_num), hzero, Bool.false_or, List.reverse_cons,
      List.getD_append_right _ _ _ _ (by simp [hlen])]
    simp [hlen]
  have hv : v < 32 := h v List.mem_cons_self
  rw [encodeSha256, base32Digits, hfirst, hlow, List.map_cons]
  constructor
  · intro heq
    have hhead := (List.cons.inj (String.ofList_inj.mp heq)).1
    have := digit_inj (by omega) hv hhead
    omega
  · intro hlt
    rw [Nat.mod_eq_of_lt hlt]
    rfl

theorem isBase32Char_of_decodeDigits : ∀ {l : List Char} {out d : Digest}, decodeDigits l out = .ok d →
    ∀ c ∈ l, isBase32Char c = true
  | [], _, _, _, c, hc => absurd hc List.not_mem_nil
  | c :: l, out, d, h, x, hx => by
    rw [decodeDigits] at h
    cases hi : alphabet.idxOf? c with
    | none =>
      rw [hi] at h
      cases h
    | some =>
      rw [hi] at h
      rcases List.mem_cons.mp hx with rfl | hx
      · exact decide_eq_true (List.isSome_idxOf?.mp (by rw [hi]; rfl))
      · exact isBase32Char_of_decodeDigits h x hx

/-- Only texts of 52 digits are read. -/
theorem exists_digits_of_decodeSha256 {text : String} (h : decodeSha256 text = .ok d) :
    ∃ v vals, vals.length = 51 ∧ (∀ x ∈ v :: vals, x < 32) ∧ text = String.ofList ((v :: vals).map digit) := by
  unfold decodeSha256 at h
  split_ifs at h with hsize
  have hbase := isBase32Char_of_decodeDigits h
  obtain ⟨vals, hlt, hvals⟩ := exists_digits hbase
  have hlen : vals.length = 52 := by
    have := utf8ByteSize_of_base32 hbase
    rw [String.ofList_toList, hvals, List.length_map] at this
    omega
  obtain ⟨v, vals, rfl⟩ := List.exists_cons_of_length_pos (by omega : 0 < vals.length)
  exact ⟨v, vals, by simpa using hlen, hlt, by rw [← hvals, String.ofList_toList]⟩

/-- **Nix base32 is a bijection** between the digests and the texts that are
read and begin with 0 or 1. -/
theorem base32_bijection_iff (d : Digest) (text : String) : decodeSha256 (encodeSha256 d) = .ok d ∧
    (decodeSha256 text = .ok d →
      (encodeSha256 d = text ↔ text.toList.head? = some '0' ∨ text.toList.head? = some '1')) := by
  refine ⟨decodeSha256_encodeSha256 d, fun h => ?_⟩
  obtain ⟨v, vals, hlen, hlt, rfl⟩ := exists_digits_of_decodeSha256 h
  obtain ⟨d', hd', hiff⟩ := decodeSha256_digits hlen hlt
  obtain rfl : d = d' := Except.ok.inj (h.symm.trans hd')
  have hv : v < 32 := hlt v List.mem_cons_self
  have hdigit : ∀ n < 32, digit v = digit n ↔ v = n := fun n hn => ⟨digit_inj hv hn, fun h => by rw [h]⟩
  have h0 : digit v = '0' ↔ v = 0 := hdigit 0 (by norm_num)
  have h1 : digit v = '1' ↔ v = 1 := hdigit 1 (by norm_num)
  rw [hiff, String.toList_ofList, List.map_cons, List.head?_cons, Option.some.injEq, Option.some.injEq, h0, h1]
  omega

/-- A first digit of 2 is read, and no digest is written with it. -/
theorem surplus_digit_read : ∃ d, decodeSha256 (String.ofList ('2' :: List.replicate 51 '0')) = .ok d ∧
    encodeSha256 d ≠ String.ofList ('2' :: List.replicate 51 '0') := by
  obtain ⟨d, hd, hiff⟩ := decodeSha256_digits (List.length_replicate : (List.replicate 51 0).length = 51)
    (by decide : ∀ x ∈ 2 :: List.replicate 51 0, x < 32)
  exact ⟨d, hd, fun h => absurd (hiff.mp h) (by norm_num)⟩

/-! ### Hexadecimal and base64 -/

def hexAlphabet : List Char := "0123456789abcdef".toList

/-- `hex::encode`. -/
def encodeHex (d : Digest) : String :=
  String.ofList ((List.finRange 32).flatMap fun i =>
    [hexAlphabet.getD ((d i).toNat / 16) '0', hexAlphabet.getD ((d i).toNat % 16) '0'])

theorem exists_of_mem_encodeHex (h : c ∈ (encodeHex d).toList) : ∃ v < 16, c = hexAlphabet.getD v '0' := by
  rw [encodeHex, String.toList_ofList] at h
  obtain ⟨i, -, hc⟩ := List.mem_flatMap.mp h
  have hlt := (d i).toNat_lt
  rcases List.mem_pair.mp hc with rfl | rfl <;> exact ⟨_, by omega, rfl⟩

/-- The value of an ASCII hexadecimal digit. -/
def hexValue (c : Char) : Option ℕ := hexAlphabet.idxOf? c.toLower

/-- `hex::decode`. -/
def decodeHex : List Char → Option Bytes
  | [] => some []
  | a :: b :: rest => do
    let x ← hexValue a
    let y ← hexValue b
    let bytes ← decodeHex rest
    return UInt8.ofNat (16 * x + y) :: bytes
  | [_] => none

def base64Alphabet : List Char := "ABCDEFGHIJKLMNOPQRSTUVWXYZabcdefghijklmnopqrstuvwxyz0123456789+/".toList

/-- Standard base64 with its padding; no bit may be left over. -/
def decodeBase64 : List Char → Option Bytes
  | [] => some []
  | [a, b, '=', '='] => do
    let x ← base64Alphabet.idxOf? a
    let y ← base64Alphabet.idxOf? b
    if y % 16 = 0 then some [UInt8.ofNat (4 * x + y / 16)] else none
  | [a, b, c, '='] => do
    let x ← base64Alphabet.idxOf? a
    let y ← base64Alphabet.idxOf? b
    let z ← base64Alphabet.idxOf? c
    if z % 4 = 0 then some [UInt8.ofNat (4 * x + y / 16), UInt8.ofNat (16 * (y % 16) + z / 4)] else none
  | a :: b :: c :: d :: rest => do
    let x ← base64Alphabet.idxOf? a
    let y ← base64Alphabet.idxOf? b
    let z ← base64Alphabet.idxOf? c
    let w ← base64Alphabet.idxOf? d
    let bytes ← decodeBase64 rest
    return UInt8.ofNat (4 * x + y / 16) :: UInt8.ofNat (16 * (y % 16) + z / 4) :: UInt8.ofNat (64 * (z % 4) + w) ::
      bytes
  | _ => none

example : decodeBase64 "Q0k=".toList = some [67, 73] ∧ decodeHex "4349".toList = some [67, 73] := by decide

/-- The digest of its bytes. -/
def digestOf (bytes : Bytes) : Digest := fun i => bytes.getD i 0

end Circus.Nix
