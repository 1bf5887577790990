import Mathlib

/-!
# Words of a fixed width, one after another

A list cut into words of `width` elements, as far as it goes, and what is left
over: `asChunks_eq_iff` says which lists are cut into what, whatever their
length.

And a number as a word of bytes, the most significant first: what is written is
read back (`ofBigEndian_bigEndian`), every word is some number's
(`bigEndian_ofBigEndian`), and words of one width sort as their numbers do
(`ofBigEndian_lt_ofBigEndian`).
-/

namespace FixedWidth

/-! ## Chunks -/

section Chunks

variable {α : Type}

/-- The first `count` words of a list. -/
def chunks (width : ℕ) : ℕ → List α → List (List α)
  | 0, _ => []
  | count + 1, l => l.take width :: chunks width count (l.drop width)

/-- A list as the whole words in it, and what is left after them. -/
def asChunks (width : ℕ) (l : List α) : List (List α) × List α :=
  (chunks width (l.length / width) l, l.drop (width * (l.length / width)))

variable {width count : ℕ} {l rest : List α} {words : List (List α)}

theorem length_chunks (width : ℕ) :
    ∀ (count : ℕ) (l : List α), (chunks width count l).length = count
  | 0, _ => rfl
  | count + 1, l => congrArg (· + 1) (length_chunks width count (l.drop width))

/-- The words and what is left are the list. -/
theorem flatten_chunks (width : ℕ) : ∀ (count : ℕ) (l : List α),
    (chunks width count l).flatten ++ l.drop (width * count) = l
  | 0, _ => rfl
  | count + 1, l => by
    have hrest := flatten_chunks width count (l.drop width)
    rw [List.drop_drop, Nat.add_comm, ← Nat.mul_succ] at hrest
    rw [chunks, List.flatten_cons, List.append_assoc, hrest, List.take_append_drop]

theorem length_of_mem_chunks : ∀ {count : ℕ} {l : List α}, width * count ≤ l.length →
    ∀ word ∈ chunks width count l, word.length = width
  | 0, _, _, _, hword => absurd hword List.not_mem_nil
  | count + 1, l, hle, word, hword => by
    rw [Nat.mul_succ] at hle
    rcases List.mem_cons.mp hword with rfl | hlater
    · rw [List.length_take]
      omega
    · refine length_of_mem_chunks ?_ word hlater
      rw [List.length_drop]
      omega

/-- Words put one after another are cut where they were put together. -/
theorem chunks_flatten (rest : List α) : ∀ {words : List (List α)},
    (∀ word ∈ words, word.length = width) →
      chunks width words.length (words.flatten ++ rest) = words
  | [], _ => rfl
  | word :: words, h => by
    have hword := h word (List.mem_cons_self ..)
    rw [List.length_cons, chunks, List.flatten_cons, List.append_assoc,
      List.take_append_of_le_length hword.ge, List.take_of_length_le hword.le,
      List.drop_append_of_le_length hword.ge, List.drop_of_length_le hword.le, List.nil_append,
      chunks_flatten rest fun later hlater => h later (List.mem_cons_of_mem _ hlater)]

theorem length_flatten_of_length (h : ∀ word ∈ words, word.length = width) :
    words.flatten.length = width * words.length := by
  rw [List.length_flatten, List.map_eq_replicate_iff.mpr h, List.sum_replicate, smul_eq_mul,
    Nat.mul_comm]

/-- **What a list is cut into**: words of the width, and less than one left. -/
theorem asChunks_eq_iff (hpos : 0 < width) :
    asChunks width l = (words, rest) ↔
      (∀ word ∈ words, word.length = width) ∧ rest.length < width ∧ l = words.flatten ++ rest := by
  constructor
  · intro h
    obtain ⟨rfl, rfl⟩ := Prod.mk.inj h
    refine ⟨length_of_mem_chunks (Nat.mul_div_le l.length width), ?_, (flatten_chunks ..).symm⟩
    rw [List.length_drop]
    have hmod := Nat.mod_lt l.length hpos
    have hdiv := Nat.div_add_mod l.length width
    omega
  · rintro ⟨hwords, hrest, rfl⟩
    have hlength := length_flatten_of_length hwords
    have hcount : (words.flatten ++ rest).length / width = words.length := by
      rw [List.length_append, hlength, Nat.mul_add_div hpos, Nat.div_eq_of_lt hrest, Nat.add_zero]
    rw [asChunks, hcount, chunks_flatten rest hwords, ← hlength, List.drop_left]

end Chunks

/-! ## Numbers as words of bytes -/

/-- A number as a word of bytes, the most significant first. -/
def bigEndian (width n : ℕ) : List UInt8 :=
  ((Nat.digitsAppend 256 width n).map UInt8.ofNat).reverse

/-- The number a word of bytes is. -/
def ofBigEndian (bytes : List UInt8) : ℕ := Nat.ofDigits 256 (bytes.reverse.map UInt8.toNat)

variable {width n : ℕ} {bytes bytes' : List UInt8}

theorem length_bigEndian (h : n < 256 ^ width) : (bigEndian width n).length = width := by
  rw [bigEndian, List.length_reverse, List.length_map,
    Nat.length_digitsAppend (by decide) width h]

theorem digit_lt_of_mem {digits : List ℕ} (h : digits = bytes.map UInt8.toNat) :
    ∀ digit ∈ digits, digit < 256 := by
  rintro digit hdigit
  rw [h, List.mem_map] at hdigit
  obtain ⟨byte, -, rfl⟩ := hdigit
  exact byte.toNat_lt

/-- **What is written is read back.** -/
theorem ofBigEndian_bigEndian (width n : ℕ) : ofBigEndian (bigEndian width n) = n := by
  have hback : (Nat.digitsAppend 256 width n).map (UInt8.toNat ∘ UInt8.ofNat) =
      Nat.digitsAppend 256 width n := by
    refine (List.map_congr_left fun digit hdigit => ?_).trans (List.map_id _)
    exact UInt8.toNat_ofNat_of_lt (Nat.lt_of_mem_digitsAppend (by decide) width digit hdigit)
  rw [ofBigEndian, bigEndian, List.reverse_reverse, List.map_map, hback, Nat.digitsAppend,
    Nat.ofDigits_append_replicate_zero, Nat.ofDigits_digits]

theorem ofBigEndian_lt (bytes : List UInt8) : ofBigEndian bytes < 256 ^ bytes.length := by
  have hdigits : ∀ digit ∈ bytes.reverse.map UInt8.toNat, digit < 256 := digit_lt_of_mem rfl
  have hlt := Nat.ofDigits_lt_base_pow_length (by decide : 1 < 256) hdigits
  rwa [List.length_map, List.length_reverse] at hlt

/-- **Every word is some number's.** -/
theorem bigEndian_ofBigEndian (bytes : List UInt8) :
    bigEndian bytes.length (ofBigEndian bytes) = bytes := by
  have hback : Nat.digitsAppend 256 bytes.length (ofBigEndian bytes) =
      bytes.reverse.map UInt8.toNat :=
    (Nat.setInvOn_digitsAppend_ofDigits (by decide : 1 < 256) bytes.length).1
      ⟨by rw [List.length_map, List.length_reverse], digit_lt_of_mem rfl⟩
  have hid : UInt8.ofNat ∘ UInt8.toNat = id := funext fun byte => UInt8.ofNat_toNat
  rw [bigEndian, hback, List.map_map, hid, List.map_id, List.reverse_reverse]

theorem ofBigEndian_cons (byte : UInt8) (bytes : List UInt8) :
    ofBigEndian (byte :: bytes) = byte.toNat * 256 ^ bytes.length + ofBigEndian bytes := by
  rw [ofBigEndian, List.reverse_cons, List.map_append, Nat.ofDigits_append, List.map_cons,
    List.map_nil, Nat.ofDigits_singleton, List.length_map, List.length_reverse, Nat.add_comm,
    Nat.mul_comm]
  rfl

/-- **Words of one width sort as their numbers do.** -/
theorem ofBigEndian_lt_ofBigEndian (h : bytes.length = bytes'.length) :
    ofBigEndian bytes < ofBigEndian bytes' ↔ bytes < bytes' := by
  induction bytes generalizing bytes' with
  | nil =>
    obtain rfl := List.length_eq_zero_iff.mp h.symm
    simp
  | cons byte bytes ih =>
    rcases bytes' with _ | ⟨byte', bytes'⟩
    · cases h
    have hlength : bytes.length = bytes'.length := Nat.succ.inj h
    have hlt := ofBigEndian_lt bytes
    have hlt' := ofBigEndian_lt bytes'
    rw [List.cons_lt_cons_iff, ← ih hlength, ofBigEndian_cons, ofBigEndian_cons, hlength] at *
    rw [UInt8.lt_iff_toNat_lt, ← UInt8.toNat_inj]
    rcases lt_trichotomy byte.toNat byte'.toNat with hless | hsame | hmore
    · have hstep : (byte.toNat + 1) * 256 ^ bytes'.length ≤ byte'.toNat * 256 ^ bytes'.length :=
        Nat.mul_le_mul_right _ hless
      rw [Nat.succ_mul] at hstep
      simp only [hless, true_or, iff_true]
      omega
    · simp [hsame]
    · have hstep : (byte'.toNat + 1) * 256 ^ bytes'.length ≤ byte.toNat * 256 ^ bytes'.length :=
        Nat.mul_le_mul_right _ hmore
      rw [Nat.succ_mul] at hstep
      simp only [hmore.not_gt, hmore.ne', false_and, or_self, iff_false, not_lt]
      omega

end FixedWidth
