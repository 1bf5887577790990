import Mathlib

/-!
# Loops that end

A loop whose length no count bounds beforehand, because what it reads on the way
gives it more to do, is described by its turn: from a state it goes on to another,
or ends with a result. `Ends` says that a loop ends, and with what; it never
speaks of how many turns that takes.

There are two rules. A loop meets what its invariant says and ends if every turn
that goes on makes something smaller that cannot become smaller for ever
(`ends_of_smaller`, `Ends.meets`). And a function that no turn that goes on changes is what the
loop ends with (`Ends.eq_of_unchanged`), which is how a loop is compared with a
recursion that counts.
-/

universe u v w

namespace Looping

variable {S : Type u} {R : Type v} {turn : S → S ⊕ R} {s : S} {r : R}

/-- The loop, at `s`, ends with `r`. -/
inductive Ends (turn : S → S ⊕ R) : S → R → Prop where
  | now {s : S} {r : R} (hturn : turn s = .inr r) : Ends turn s r
  | later {s next : S} {r : R} (hturn : turn s = .inl next) (hnext : Ends turn next r) :
    Ends turn s r

/-- What holds at every turn holds at the last. -/
theorem Ends.meets {I : S → Prop} {Q : R → Prop}
    (hon : ∀ s next, I s → turn s = .inl next → I next)
    (hend : ∀ s r, I s → turn s = .inr r → Q r) (h : Ends turn s r) (hs : I s) : Q r := by
  induction h with
  | now hturn => exact hend _ _ hs hturn
  | later hturn _ ih => exact ih (hon _ _ hs hturn)

/-- A loop ends if every turn that goes on makes something smaller that cannot
become smaller for ever. -/
theorem ends_of_smaller {W : Type w} [LT W] [WellFoundedLT W] {I : S → Prop} (size : S → W)
    (hon : ∀ s next, I s → turn s = .inl next → I next ∧ size next < size s) (hs : I s) :
    ∃ r, Ends turn s r := by
  induction hsize : size s using WellFoundedLT.induction generalizing s with
  | ind n ih =>
    rcases hturn : turn s with next | r
    · obtain ⟨hnext, hsmaller⟩ := hon s next hs hturn
      obtain ⟨r, hends⟩ := ih (size next) (hsize ▸ hsmaller) hnext rfl
      exact ⟨r, .later hturn hends⟩
    · exact ⟨r, .now hturn⟩

/-- What no turn that goes on changes, and the last turn gives, is what the loop ends
with. -/
theorem Ends.eq_of_unchanged {T : Type w} (f : S → T) (g : R → T)
    (hon : ∀ s next, turn s = .inl next → f s = f next)
    (hend : ∀ s r, turn s = .inr r → f s = g r) (h : Ends turn s r) : f s = g r := by
  induction h with
  | now hturn => exact hend _ _ hturn
  | later hturn _ ih => exact (hon _ _ hturn).trans ih

end Looping
