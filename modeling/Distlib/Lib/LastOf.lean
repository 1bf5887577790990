import Mathlib

/-!
# The last of its kind in a list

A list that is only ever added to keeps what it has at its places, and of several elements
of one kind the last is the one that counts. `LastOf a l i` says that the last `a` in `l` is
at `i`. There is one such place at most (`LastOf.unique`); an `a` that is added takes it over
(`lastOf_concat_self`), and anything else leaves it alone (`lastOf_concat_of_ne`).

What can be collected from a list where one place at most has something is one thing at most
(`length_filterMap_le_one`).
-/

universe u v

variable {α : Type u} {β : Type v} {a b : α} {l : List α} {i j : ℕ}

/-- The last `a` in the list is at `i`. -/
def LastOf (a : α) (l : List α) (i : ℕ) : Prop := l[i]? = some a ∧ a ∉ l.drop (i + 1)

instance [DecidableEq α] (a : α) (l : List α) (i : ℕ) : Decidable (LastOf a l i) :=
  inferInstanceAs (Decidable (l[i]? = some a ∧ a ∉ l.drop (i + 1)))

/-- There is no other after it. -/
theorem LastOf.le (hi : LastOf a l i) (hj : l[j]? = some a) : j ≤ i := by
  by_contra hlater
  refine hi.2 (List.mem_of_getElem? (i := j - (i + 1)) ?_)
  rw [List.getElem?_drop, Nat.add_sub_cancel' (by omega)]
  exact hj

theorem LastOf.unique (hi : LastOf a l i) (hj : LastOf a l j) : i = j :=
  le_antisymm (hj.le hi.1) (hi.le hj.1)

/-- What is added is the last of its kind. -/
theorem lastOf_concat_self : LastOf a (l ++ [a]) i ↔ i = l.length := by
  have hlast : LastOf a (l ++ [a]) l.length := by
    refine ⟨List.getElem?_concat_length .., ?_⟩
    rw [List.drop_eq_nil_of_le (by simp)]
    exact List.not_mem_nil
  constructor
  · intro hi
    exact hi.unique hlast
  · rintro rfl
    exact hlast

/-- What is added of another kind changes nothing. -/
theorem lastOf_concat_of_ne (hne : b ≠ a) : LastOf a (l ++ [b]) i ↔ LastOf a l i := by
  rcases Nat.lt_or_ge i l.length with hlt | hge
  · rw [LastOf, LastOf, List.getElem?_append_left hlt, List.drop_append_of_le_length (by omega)]
    simp [hne.symm]
  · have hout : ¬LastOf a l i := by
      rintro ⟨hget, -⟩
      rw [List.getElem?_eq_none hge] at hget
      cases hget
    refine iff_of_false (fun h => ?_) hout
    rw [LastOf, List.getElem?_append_right hge] at h
    obtain ⟨hlt, hget⟩ := List.getElem?_eq_some_iff.mp h.1
    rw [List.getElem_singleton] at hget
    exact hne hget

/-- **At most one**: a list in which only one place may have something. -/
theorem length_filterMap_le_one {f : α → Option β}
    (h : ∀ j a, l[j]? = some a → j ≠ i → f a = none) : (l.filterMap f).length ≤ 1 := by
  have hbefore : (l.take i).filterMap f = [] := by
    rw [List.filterMap_eq_nil_iff]
    intro a ha
    obtain ⟨j, hj⟩ := List.mem_iff_getElem?.mp ha
    rw [List.getElem?_take] at hj
    split at hj
    · exact h j a hj (by omega)
    · cases hj
  have hafter : (l.drop (i + 1)).filterMap f = [] := by
    rw [List.filterMap_eq_nil_iff]
    intro a ha
    obtain ⟨j, hj⟩ := List.mem_iff_getElem?.mp ha
    rw [List.getElem?_drop] at hj
    exact h _ a hj (by omega)
  calc (l.filterMap f).length
      = ((l.drop i).filterMap f).length := by
        rw [← List.take_append_drop i l, List.filterMap_append, hbefore, List.nil_append,
          List.take_append_drop]
    _ ≤ 1 := by
        rcases Nat.lt_or_ge i l.length with hlt | hge
        · rw [List.drop_eq_getElem_cons hlt, List.filterMap_cons, hafter]
          split <;> simp
        · rw [List.drop_eq_nil_of_le hge]
          exact Nat.zero_le _
