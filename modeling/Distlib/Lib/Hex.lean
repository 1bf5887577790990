import Mathlib

/-!
# Numbers of a fixed length in hex

A number below `16 ^ len`, written as `len` digits, most significant first. What
is written is read back, and a reader that takes either case reads more than what
is written.
-/

namespace Hex

/-- The digits of a number, the last `len` of them. -/
def nibbles : ℕ → ℕ → List ℕ
  | 0, _ => []
  | len + 1, n => nibbles len (n / 16) ++ [n % 16]

/-- The number some digits spell. -/
def value (digits : List ℕ) : ℕ := digits.foldl (fun n digit => 16 * n + digit) 0

/-- A digit as it is written: lowercase. -/
def digit (n : ℕ) : UInt8 := if n < 10 then 48 + n.toUInt8 else 87 + n.toUInt8

/-- A digit read in either case. -/
def nibble? (byte : UInt8) : Option ℕ :=
  if 48 ≤ byte ∧ byte ≤ 57 then some (byte.toNat - 48)
  else if 97 ≤ byte ∧ byte ≤ 102 then some (byte.toNat - 87)
  else if 65 ≤ byte ∧ byte ≤ 70 then some (byte.toNat - 55)
  else none

def print (len n : ℕ) : List UInt8 := (nibbles len n).map digit

def parse (len : ℕ) (text : List UInt8) : Option ℕ :=
  if text.length = len then (text.mapM nibble?).map value else none

/-! ## What is written -/

theorem length_nibbles (len : ℕ) : ∀ (n : ℕ), (nibbles len n).length = len := by
  induction len with
  | zero => intro n; rfl
  | succ len ih => intro n; rw [nibbles, List.length_append, ih, List.length_singleton]

/-- A number is printed in as many digits as it is given. -/
theorem length_print (len n : ℕ) : (print len n).length = len := by
  rw [print, List.length_map, length_nibbles]

theorem nibbles_lt (len : ℕ) : ∀ (n d : ℕ), d ∈ nibbles len n → d < 16 := by
  induction len with
  | zero => intro n d h; cases h
  | succ len ih =>
    intro n d h
    rw [nibbles, List.mem_append, List.mem_singleton] at h
    rcases h with hfront | rfl
    · exact ih _ d hfront
    · omega

/-- A digit is a figure or a small letter. -/
theorem digit_cases (d : ℕ) (h : d < 16) :
    (48 ≤ digit d ∧ digit d ≤ 57) ∨ (97 ≤ digit d ∧ digit d ≤ 102) := by
  interval_cases d <;> decide

/-- What is written is digits and lowercase letters. -/
theorem mem_print {len n : ℕ} {byte : UInt8} (h : byte ∈ print len n) :
    (48 ≤ byte ∧ byte ≤ 57) ∨ (97 ≤ byte ∧ byte ≤ 102) := by
  obtain ⟨d, hd, rfl⟩ := List.mem_map.mp h
  exact digit_cases d (nibbles_lt len n d hd)

/-! ## What is read back -/

/-- A digit is read back. -/
theorem nibble?_digit (d : ℕ) (h : d < 16) : nibble? (digit d) = some d := by
  interval_cases d <;> decide

theorem value_append (front : List ℕ) (d : ℕ) : value (front ++ [d]) = 16 * value front + d := by
  rw [value, List.foldl_append]
  rfl

/-- A number that fits is the value of its digits. -/
theorem value_nibbles (len : ℕ) : ∀ (n : ℕ), n < 16 ^ len → value (nibbles len n) = n := by
  induction len with
  | zero =>
    intro n h
    have hzero : n = 0 := by simpa using h
    rw [hzero]
    rfl
  | succ len ih =>
    intro n h
    have hfront : n / 16 < 16 ^ len := by
      rw [pow_succ] at h
      exact Nat.div_lt_of_lt_mul (by omega)
    rw [nibbles, value_append, ih _ hfront]
    omega

theorem mapM_nibble? (digits : List ℕ) (h : ∀ d ∈ digits, d < 16) :
    (digits.map digit).mapM nibble? = some digits := by
  induction digits with
  | nil => rfl
  | cons d digits ih =>
    rw [List.map_cons, List.mapM_cons, nibble?_digit d (h d (List.mem_cons_self ..)),
      ih fun d hd => h d (List.mem_cons_of_mem _ hd)]
    rfl

/-- **What is written is read back.** -/
theorem parse_print {len n : ℕ} (h : n < 16 ^ len) : parse len (print len n) = some n := by
  rw [parse, if_pos (length_print len n), print, mapM_nibble? _ (nibbles_lt len n),
    Option.map_some, value_nibbles len n h]

/-! ## What else is read -/

/-- A digit in lowercase; any other byte as it is. -/
def lower (byte : UInt8) : UInt8 := if 65 ≤ byte ∧ byte ≤ 70 then byte + 32 else byte

/-- Only the six capitals have another small letter. -/
theorem lower_eq_self_iff (byte : UInt8) : lower byte = byte ↔ ¬ (65 ≤ byte ∧ byte ≤ 70) := by
  have hall : ∀ n < 256, lower (UInt8.ofNat n) = UInt8.ofNat n ↔
      ¬ (65 ≤ UInt8.ofNat n ∧ UInt8.ofNat n ≤ 70) := by decide +kernel
  have hbyte := hall byte.toNat byte.toNat_lt
  rwa [UInt8.ofNat_toNat] at hbyte

/-- A digit is read from a byte exactly if the byte, in lowercase, is how the digit
is written. -/
theorem nibble?_eq_some_iff (byte : UInt8) (d : ℕ) :
    nibble? byte = some d ↔ d < 16 ∧ lower byte = digit d := by
  have hread : ∀ n < 256, ∀ d ∈ nibble? (UInt8.ofNat n), d < 16 ∧ lower (UInt8.ofNat n) = digit d := by
    decide +kernel
  have hwritten : ∀ n < 256, ∀ d < 16, lower (UInt8.ofNat n) = digit d →
      nibble? (UInt8.ofNat n) = some d := by decide +kernel
  have hread' := hread byte.toNat byte.toNat_lt d
  have hwritten' := hwritten byte.toNat byte.toNat_lt d
  rw [UInt8.ofNat_toNat] at hread' hwritten'
  exact ⟨hread', fun h => hwritten' h.1 h.2⟩

/-- A text is digits exactly if its small letters are. -/
theorem mapM_nibble?_eq_some_iff {text : List UInt8} {digits : List ℕ} :
    text.mapM nibble? = some digits ↔
      text.map lower = digits.map digit ∧ ∀ d ∈ digits, d < 16 := by
  induction text generalizing digits with
  | nil =>
    rcases digits with _ | ⟨d, digits⟩
    · simp
    · simp
  | cons byte text ih =>
    rw [List.mapM_cons]
    rcases digits with _ | ⟨d, digits⟩
    · simp [Option.bind_eq_some_iff]
    · simp only [Option.bind_eq_bind, Option.bind_eq_some_iff, nibble?_eq_some_iff, ih,
        Option.pure_def, Option.some.injEq, List.cons.injEq, List.map_cons, List.mem_cons,
        forall_eq_or_imp]
      constructor
      · rintro ⟨d', ⟨hlt, hbyte⟩, digits', ⟨htext, hall⟩, rfl, rfl⟩
        exact ⟨⟨hbyte, htext⟩, hlt, hall⟩
      · rintro ⟨⟨hbyte, htext⟩, hlt, hall⟩
        exact ⟨d, ⟨hlt, hbyte⟩, digits, ⟨htext, hall⟩, rfl, rfl⟩

/-- So many digits are a number below so many powers of sixteen. -/
theorem value_lt (digits : List ℕ) (h : ∀ d ∈ digits, d < 16) : value digits < 16 ^ digits.length := by
  induction digits using List.reverseRecOn with
  | nil => exact Nat.zero_lt_one
  | append_singleton front d ih =>
    have hfront := ih fun d hd => h d (List.mem_append_left _ hd)
    have hlast := h d (List.mem_append_right _ (List.mem_singleton_self d))
    rw [value_append, List.length_append, List.length_singleton, pow_succ]
    omega

/-- The digits of the number some digits spell. -/
theorem nibbles_value (digits : List ℕ) (h : ∀ d ∈ digits, d < 16) :
    nibbles digits.length (value digits) = digits := by
  induction digits using List.reverseRecOn with
  | nil => rfl
  | append_singleton front d ih =>
    have hlast := h d (List.mem_append_right _ (List.mem_singleton_self d))
    have hfront := ih fun d hd => h d (List.mem_append_left _ hd)
    have hdiv : (16 * value front + d) / 16 = value front := by omega
    have hmod : (16 * value front + d) % 16 = d := by omega
    rw [value_append, List.length_append, List.length_singleton, nibbles, hdiv, hmod, hfront]

/-- **What is read is what is written, in either case.** -/
theorem parse_eq_some_iff {len n : ℕ} {text : List UInt8} :
    parse len text = some n ↔ n < 16 ^ len ∧ text.map lower = print len n := by
  rw [parse]
  constructor
  · intro h
    split at h
    · rename_i hlen
      obtain ⟨digits, hdigits, rfl⟩ := Option.map_eq_some_iff.mp h
      obtain ⟨htext, hall⟩ := mapM_nibble?_eq_some_iff.mp hdigits
      have hlength : digits.length = len := by
        rw [← hlen, ← List.length_map (f := digit), ← htext, List.length_map]
      refine ⟨hlength ▸ value_lt digits hall, ?_⟩
      rw [print, ← hlength, nibbles_value digits hall, htext]
    · cases h
  · rintro ⟨hlt, htext⟩
    have hlength : text.length = len := by
      rw [← List.length_map (f := lower), htext, length_print]
    have hdigits : text.mapM nibble? = some (nibbles len n) :=
      mapM_nibble?_eq_some_iff.mpr ⟨htext, nibbles_lt len n⟩
    rw [if_pos hlength, hdigits, Option.map_some, value_nibbles len n hlt]

end Hex
