import Mathlib

/-!
# Sums in a machine word

Numbers added up in a word of `width` bits, as a compiled program does it: when a result does
not fit, a program built with overflow checks panics, and one built without goes on with what
the word holds of it.

`fit` says what is there of a number after any such sum, so a computation is the composition
of `fit`s: `fit_bind_fit_add` is the one rule, and `sum_eq_fit` the rule for a whole list.
What has been fitted once need not be fitted on the way: a sum that fits has only partial
sums that fit, and one that does not is lost whatever the order.
-/

/-- What a program does with a result that does not fit: it panics, or it wraps around. -/
inductive OverflowChecks : Type where
  | on
  | off
  deriving DecidableEq

namespace OverflowChecks

variable {checks : OverflowChecks} {width a b : ℕ}

/-- What a word has of a number; `none` is a panic. -/
def fit (checks : OverflowChecks) (width a : ℕ) : Option ℕ :=
  if a < 2 ^ width then some a
  else match checks with
    | on => none
    | off => some (a % 2 ^ width)

/-- `a + b` in a word. -/
def add (checks : OverflowChecks) (width a b : ℕ) : Option ℕ := checks.fit width (a + b)

/-- `a - b` in a word. -/
def sub (checks : OverflowChecks) (width a b : ℕ) : Option ℕ :=
  if b ≤ a then some (a - b)
  else match checks with
    | on => none
    | off => some ((a + 2 ^ width - b % 2 ^ width) % 2 ^ width)

/-- The sum of a list, added up from the left. -/
def sum (checks : OverflowChecks) (width : ℕ) (values : List ℕ) : Option ℕ :=
  values.foldlM (checks.add width) 0

theorem fit_of_lt (h : a < 2 ^ width) : checks.fit width a = some a := if_pos h

theorem fit_off (width a : ℕ) : off.fit width a = some (a % 2 ^ width) := by
  rw [fit]
  split
  · rename_i hfits
    rw [Nat.mod_eq_of_lt hfits]
  · rfl

theorem fit_on_eq_none (h : ¬ a < 2 ^ width) : on.fit width a = none := if_neg h

/-- A number fitted already adds as the number does. -/
theorem fit_bind_fit_add (checks : OverflowChecks) (width a b : ℕ) :
    ((checks.fit width a).bind fun word => checks.fit width (word + b)) =
      checks.fit width (a + b) := by
  cases checks with
  | on =>
    by_cases hfits : a < 2 ^ width
    · rw [fit_of_lt hfits, Option.bind_some]
    · rw [fit_on_eq_none hfits, Option.bind_none, fit_on_eq_none (by omega)]
  | off => rw [fit_off, Option.bind_some, fit_off, fit_off, Nat.mod_add_mod]

/-- The same of two numbers fitted already. -/
theorem fit_bind_fit_bind_add (checks : OverflowChecks) (width a b : ℕ) :
    ((checks.fit width a).bind fun word => (checks.fit width b).bind fun more =>
      checks.add width word more) = checks.fit width (a + b) := by
  have hright : ∀ word, ((checks.fit width b).bind fun more => checks.add width word more) =
      checks.fit width (word + b) := by
    intro word
    have hcomm := fit_bind_fit_add checks width b word
    rw [Nat.add_comm] at hcomm
    rw [← hcomm]
    simp only [add, Nat.add_comm]
  simp only [hright]
  exact fit_bind_fit_add checks width a b

theorem foldlM_add_eq_fit (checks : OverflowChecks) (width : ℕ) (values : List ℕ) :
    ∀ start, ((checks.fit width start).bind fun word => values.foldlM (checks.add width) word) =
      checks.fit width (start + values.sum) := by
  induction values with
  | nil =>
    intro start
    simp
  | cons value rest ih =>
    intro start
    rw [List.sum_cons, ← Nat.add_assoc, ← ih (start + value), ← fit_bind_fit_add checks width start,
      Option.bind_assoc]
    rfl

/-- **A sum in a word** has what the word has of the exact sum. -/
theorem sum_eq_fit (checks : OverflowChecks) (width : ℕ) (values : List ℕ) :
    checks.sum width values = checks.fit width values.sum := by
  have hsum := foldlM_add_eq_fit checks width values 0
  rw [fit_of_lt (Nat.two_pow_pos width), Option.bind_some, Nat.zero_add] at hsum
  exact hsum

theorem sub_of_le (h : b ≤ a) : checks.sub width a b = some (a - b) := if_pos h

end OverflowChecks
