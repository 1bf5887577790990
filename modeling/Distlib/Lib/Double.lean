import Mathlib

/-!
# Naturals added up in floating point

A format with `p` significant bits has the naturals `m * 2 ^ e` with `m < 2 ^ p`. Any
other is rounded to the nearest of these, and to the one with an even significand
where two are equally near (`round`). The exponent is not bounded here.

A sum in that arithmetic (`sumFrom`) rounds every term and then every partial sum. It
is exact where none of them needs it, and a sum that is cut off at a limit may round all
it likes from the limit on, as long as rounding does not go back below it (`ExactTo`,
`min_sumFrom`). Numbers up to `2 ^ p` are never rounded, and a power of two stays between
what was above it and what was below (`two_pow_le_round`).
-/

namespace Double

/-- How far apart the numbers of the format are, around `n`. -/
def ulp (p n : ℕ) : ℕ := 2 ^ (n.log2 + 1 - p)

/-- The number of the format nearest to `n`, the even one of two. -/
def round (p n : ℕ) : ℕ :=
  if 2 * (n % ulp p n) < ulp p n ∨ 2 * (n % ulp p n) = ulp p n ∧ Even (n / ulp p n) then
    n / ulp p n * ulp p n
  else (n / ulp p n + 1) * ulp p n

variable {p : ℕ}

example : round 53 (2 ^ 53 + 1) = 2 ^ 53 := by decide

example : round 53 (2 ^ 53 + 3) = 2 ^ 53 + 4 := by decide

theorem round_of_dvd {n : ℕ} (h : ulp p n ∣ n) : round p n = n := by
  have hpos : 0 < ulp p n := Nat.two_pow_pos _
  rw [round, Nat.mod_eq_zero_of_dvd h, if_pos (Or.inl hpos)]
  exact Nat.div_mul_cancel h

/-- A multiple of a power of two, of no more bits beyond it, is a number of the format, and
so is the next power of two. -/
theorem ulp_dvd {n k : ℕ} (hp : 0 < p) (hdvd : 2 ^ k ∣ n) (h : n ≤ 2 ^ (k + p)) : ulp p n ∣ n := by
  rcases Nat.lt_or_eq_of_le h with hlt | rfl
  · rcases Nat.eq_zero_or_pos n with rfl | hpos
    · exact dvd_zero _
    · have hlog : n.log2 < k + p := (Nat.log2_lt (Nat.pos_iff_ne_zero.mp hpos)).mpr hlt
      exact (pow_dvd_pow 2 (by omega)).trans hdvd
  · rw [ulp, Nat.log2_two_pow]
    exact pow_dvd_pow 2 (by omega)

theorem round_of_le {n : ℕ} (hp : 0 < p) (h : n ≤ 2 ^ p) : round p n = n := by
  refine round_of_dvd (ulp_dvd (k := 0) hp (one_dvd n) ?_)
  rwa [Nat.zero_add]

/-- What was rounded needs no rounding. -/
theorem round_round (hp : 0 < p) (n : ℕ) : round p (round p n) = round p n := by
  refine round_of_dvd (ulp_dvd (k := n.log2 + 1 - p) hp ?_ ?_)
  · rw [round, ulp]
    split
    · exact Nat.dvd_mul_left ..
    · exact Nat.dvd_mul_left ..
  · have hquot : n / ulp p n < 2 ^ p := by
      refine Nat.div_lt_of_lt_mul ?_
      rw [ulp, ← pow_add]
      exact Nat.lt_log2_self.trans_le (Nat.pow_le_pow_right Nat.two_pos (by omega))
    have hup : (n / ulp p n + 1) * ulp p n ≤ 2 ^ (n.log2 + 1 - p + p) := by
      rw [pow_add, Nat.mul_comm (2 ^ _)]
      exact Nat.mul_le_mul_right _ hquot
    rw [round]
    split
    · exact (Nat.mul_le_mul_right _ (Nat.le_succ _)).trans hup
    · exact hup

/-- Rounding does not go below a power of two. -/
theorem two_pow_le_round {n j : ℕ} (hp : 0 < p) (h : 2 ^ j ≤ n) : 2 ^ j ≤ round p n := by
  have hfloor : 2 ^ j ≤ n / ulp p n * ulp p n := by
    rcases Nat.le_total (n.log2 + 1 - p) j with hle | hle
    · -- the power of two is a number of the format
      have hsplit : 2 ^ j = 2 ^ (j - (n.log2 + 1 - p)) * ulp p n := by
        rw [ulp, ← pow_add, Nat.sub_add_cancel hle]
      rw [hsplit] at h ⊢
      exact Nat.mul_le_mul_right _ ((Nat.le_div_iff_mul_le (Nat.two_pow_pos _)).mpr h)
    · have hpos : n ≠ 0 := by
        have := Nat.two_pow_pos j
        omega
      have hulp : ulp p n ≤ n :=
        (Nat.pow_le_pow_right Nat.two_pos (by omega)).trans (Nat.log2_self_le hpos)
      have hone : 1 ≤ n / ulp p n := Nat.div_pos hulp (Nat.two_pow_pos _)
      calc 2 ^ j ≤ ulp p n := Nat.pow_le_pow_right Nat.two_pos hle
        _ = 1 * ulp p n := (Nat.one_mul _).symm
        _ ≤ n / ulp p n * ulp p n := Nat.mul_le_mul_right _ hone
  rw [round]
  split
  · exact hfloor
  · exact hfloor.trans (Nat.mul_le_mul_right _ (Nat.le_succ _))

/-! ## Sums -/

/-- A sum, from `start` on. -/
def sumFrom (p start : ℕ) (terms : List ℕ) : ℕ :=
  terms.foldl (fun total term => round p (total + round p term)) start

/-- Adding `terms` up from `start` rounds nothing until a sum reaches `limit`: each sum below
it is a number of the format, and so is what is added to it. -/
def ExactTo (p limit : ℕ) : ℕ → List ℕ → Prop
  | start, [] => limit ≤ start ∨ round p start = start
  | start, term :: rest =>
    limit ≤ start ∨
      round p start = start ∧ round p term = term ∧ ExactTo p limit (start + term) rest

instance decidableExactTo (p limit : ℕ) : ∀ start terms, Decidable (ExactTo p limit start terms)
  | start, [] => inferInstanceAs (Decidable (limit ≤ start ∨ round p start = start))
  | start, term :: rest =>
    haveI := decidableExactTo p limit (start + term) rest
    inferInstanceAs (Decidable (limit ≤ start ∨
      round p start = start ∧ round p term = term ∧ ExactTo p limit (start + term) rest))

section Limit

variable {limit : ℕ} (hlimit : ∀ n, limit ≤ n → limit ≤ round p n)

include hlimit

/-- A sum that has reached the limit does not go back below it. -/
theorem le_sumFrom (terms : List ℕ) :
    ∀ {start : ℕ}, limit ≤ start → limit ≤ sumFrom p start terms := by
  induction terms with
  | nil => exact fun h => h
  | cons term rest ih => exact fun h => ih (hlimit _ (h.trans (Nat.le_add_right ..)))

/-- **A sum that rounds nothing below the limit is exact**, up to the limit. -/
theorem min_sumFrom (terms : List ℕ) : ∀ {start : ℕ}, ExactTo p limit start terms →
    min (sumFrom p (round p start) terms) limit = min (start + terms.sum) limit := by
  induction terms with
  | nil =>
    rintro start (hreached | hexact)
    · rw [min_eq_right (le_sumFrom hlimit [] (hlimit start hreached)),
        min_eq_right (hreached.trans (Nat.le_add_right ..))]
    · rw [hexact]
      rfl
  | cons term rest ih =>
    rintro start (hreached | ⟨hstart, hterm, hrest⟩)
    · rw [min_eq_right (le_sumFrom hlimit _ (hlimit start hreached)),
        min_eq_right (hreached.trans (Nat.le_add_right ..))]
    · rw [hstart, sumFrom, List.foldl_cons, hterm, ← sumFrom, ih hrest, List.sum_cons,
        Nat.add_assoc]

end Limit

/-- Numbers that add up to no more than `2 ^ p` are added up exactly. -/
theorem exactTo_of_sum_le (hp : 0 < p) (limit : ℕ) (terms : List ℕ) :
    ∀ {start : ℕ}, start + terms.sum ≤ 2 ^ p → ExactTo p limit start terms := by
  induction terms with
  | nil => exact fun h => Or.inr (round_of_le hp h)
  | cons term rest ih =>
    intro start h
    rw [List.sum_cons] at h
    exact Or.inr ⟨round_of_le hp (by omega), round_of_le hp (by omega), ih (by omega)⟩

end Double
