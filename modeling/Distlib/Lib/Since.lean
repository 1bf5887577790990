import Mathlib.Data.List.Basic

/-!
# What has held since

A history is the list of what has happened, the last at the end. Most of what is said of a
state that follows a history is of one form: something has happened, and since then nothing
that would undo it: `Since p q history`.

Such a statement is worked out as the history grows: `since_concat` says what one event more
makes of it, which is all a proof by induction over a run needs, and `Since.decidable` is the
same from the other end.
-/

universe u

variable {E : Type u} {p p' q q' : E → Prop} {history : List E} {e : E}

/-- Something of which `p` holds has happened, and `q` has held of everything since. -/
def Since (p q : E → Prop) (history : List E) : Prop :=
  ∃ before e after, history = before ++ e :: after ∧ p e ∧ ∀ later ∈ after, q later

theorem not_since_nil : ¬Since p q [] := by
  rintro ⟨before, e, after, heq, -⟩
  simp at heq

/-- **One event more** is the one since which, or does not end it. -/
theorem since_concat : Since p q (history ++ [e]) ↔ p e ∨ Since p q history ∧ q e := by
  constructor
  · rintro ⟨before, first, after, heq, hfirst, hafter⟩
    rcases List.eq_nil_or_concat after with rfl | ⟨after, last, rfl⟩
    · obtain ⟨rfl, hlast⟩ := List.append_inj' heq rfl
      obtain rfl : e = first := List.singleton_inj.mp hlast
      exact Or.inl hfirst
    · rw [List.concat_eq_append, ← List.cons_append, ← List.append_assoc] at heq
      obtain ⟨rfl, hlast⟩ := List.append_inj' heq rfl
      obtain rfl : e = last := List.singleton_inj.mp hlast
      exact Or.inr ⟨⟨before, first, after, rfl, hfirst,
        fun later hmem => hafter later (by simp [hmem])⟩, hafter e (by simp)⟩
  · rintro (hp | ⟨⟨before, first, after, rfl, hfirst, hafter⟩, hq⟩)
    · exact ⟨history, e, [], rfl, hp, fun later hmem => by cases hmem⟩
    · refine ⟨before, first, after ++ [e], by simp, hfirst, fun later hmem => ?_⟩
      rcases List.mem_append.mp hmem with hmem | hmem
      · exact hafter later hmem
      · exact (List.mem_singleton.mp hmem) ▸ hq

/-- The same at the other end: an event before everything else is the one if nothing else is
and nothing undoes it. -/
theorem since_cons {rest : List E} :
    Since p q (e :: rest) ↔ Since p q rest ∨ p e ∧ ∀ later ∈ rest, q later := by
  constructor
  · rintro ⟨before, first, after, heq, hfirst, hafter⟩
    cases before with
    | nil =>
      obtain ⟨rfl, rfl⟩ := List.cons.inj heq
      exact Or.inr ⟨hfirst, hafter⟩
    | cons other before =>
      obtain ⟨-, rfl⟩ := List.cons.inj heq
      exact Or.inl ⟨before, first, after, rfl, hfirst, hafter⟩
  · rintro (⟨before, first, after, rfl, hfirst, hafter⟩ | ⟨hp, hafter⟩)
    · exact ⟨e :: before, first, after, rfl, hfirst, hafter⟩
    · exact ⟨[], e, rest, rfl, hp, hafter⟩

instance Since.decidable [DecidablePred p] [DecidablePred q] :
    ∀ history : List E, Decidable (Since p q history)
  | [] => isFalse not_since_nil
  | e :: rest =>
    have := Since.decidable rest
    decidable_of_iff (Since p q rest ∨ p e ∧ ∀ later ∈ rest, q later) since_cons.symm

theorem Since.imp (hp : ∀ e, p e → p' e) (hq : ∀ e, q e → q' e) :
    Since p q history → Since p' q' history := by
  rintro ⟨before, e, after, rfl, he, hafter⟩
  exact ⟨before, e, after, rfl, hp e he, fun later hmem => hq later (hafter later hmem)⟩

theorem Since.exists_mem : Since p q history → ∃ e ∈ history, p e := by
  rintro ⟨before, e, after, rfl, he, -⟩
  exact ⟨e, by simp, he⟩

/-- Since one thing or another, since the one or since the other. -/
theorem since_or : Since (fun e => p e ∨ p' e) q history ↔
    Since p q history ∨ Since p' q history := by
  constructor
  · rintro ⟨before, e, after, rfl, he | he, hafter⟩
    · exact Or.inl ⟨before, e, after, rfl, he, hafter⟩
    · exact Or.inr ⟨before, e, after, rfl, he, hafter⟩
  · rintro (h | h)
    · exact h.imp (fun _ => Or.inl) fun _ => id
    · exact h.imp (fun _ => Or.inr) fun _ => id

/-- Since some one of several things. -/
theorem since_exists {ι : Sort*} {p : ι → E → Prop} :
    Since (fun e => ∃ i, p i e) q history ↔ ∃ i, Since (p i) q history := by
  constructor
  · rintro ⟨before, e, after, rfl, ⟨i, he⟩, hafter⟩
    exact ⟨i, before, e, after, rfl, he, hafter⟩
  · rintro ⟨i, before, e, after, rfl, he, hafter⟩
    exact ⟨before, e, after, rfl, ⟨i, he⟩, hafter⟩
