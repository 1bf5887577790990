import Mathlib

/-!
# Runs of a machine whose steps have a condition

A machine takes one event after another; `exec` is the state it ends in. What
may be asked of a run is asked of its steps, each seen in the state it is taken
from: `Along ok s events` says that every step of the run from `s` meets `ok`.

An invariant is then one step lemma, under the condition of the step, and the
rule `Along.invariant` carries it through every run. What a run does to the
state it started from, when that is a relation like "no less than", is the same
with two states: `Along.related`.

That a machine gets somewhere is a statement about runs without end. `settles` is
the rule for one that does not move while it waits: what it does makes a number
smaller, and nothing it waits for is waited for for ever.

Two machines are compared by a relation that their steps keep: `simulates` carries it
through every run. A step that may fail, and then changes nothing, is an `attempt`; what a
step keeps, an attempt keeps.
-/

namespace GuardedRun

universe u v w

variable {S : Type u} {E : Type v} {step : S → E → S} {ok : S → E → Prop}

/-- The state a run leads to. -/
def exec (step : S → E → S) (s : S) (events : List E) : S := events.foldl step s

@[simp] theorem exec_nil (s : S) : exec step s [] = s := rfl

@[simp] theorem exec_cons (s : S) (e : E) (rest : List E) :
    exec step s (e :: rest) = exec step (step s e) rest := rfl

theorem exec_append (s : S) (first second : List E) :
    exec step s (first ++ second) = exec step (exec step s first) second :=
  List.foldl_append ..

/-- What every step keeps, every run keeps. -/
theorem exec_invariant {I : S → Prop} (hstep : ∀ s e, I s → I (step s e))
    (events : List E) : ∀ {s : S}, I s → I (exec step s events) := by
  induction events with
  | nil => intro s hs; exact hs
  | cons e rest ih => intro s hs; exact ih (hstep s e hs)

/-- What every step keeps holds at every moment of a run. -/
theorem scanl_invariant {I : S → Prop} (hstep : ∀ s e, I s → I (step s e)) (events : List E) :
    ∀ {s : S}, I s → ∀ seen ∈ events.scanl step s, I seen := by
  induction events with
  | nil =>
    intro s hs seen hseen
    rw [List.scanl_nil, List.mem_singleton] at hseen
    exact hseen ▸ hs
  | cons e rest ih =>
    intro s hs seen hseen
    rw [List.scanl_cons, List.mem_cons] at hseen
    rcases hseen with rfl | hlater
    · exact hs
    · exact ih (hstep s e hs) seen hlater

/-- Every step of the run from `s` meets `ok`. -/
def Along (step : S → E → S) (ok : S → E → Prop) : S → List E → Prop
  | _, [] => True
  | s, e :: rest => ok s e ∧ Along step ok (step s e) rest

instance Along.decidable [∀ s e, Decidable (ok s e)] :
    ∀ (s : S) (events : List E), Decidable (Along step ok s events)
  | _, [] => inferInstanceAs (Decidable True)
  | s, e :: rest =>
    have := Along.decidable (step s e) rest
    inferInstanceAs (Decidable (ok s e ∧ Along step ok (step s e) rest))

theorem along_append {s : S} {first second : List E} :
    Along step ok s (first ++ second) ↔
      Along step ok s first ∧ Along step ok (exec step s first) second := by
  induction first generalizing s with
  | nil => simp [Along]
  | cons e rest ih => rw [List.cons_append, Along, Along, ih, and_assoc, exec_cons]

/-- Two conditions of the steps are one. -/
theorem Along.and {ok' : S → E → Prop} :
    ∀ {events : List E} {s : S}, Along step ok s events → Along step ok' s events →
      Along step (fun s e => ok s e ∧ ok' s e) s events := by
  intro events
  induction events with
  | nil => intro s _ _; trivial
  | cons e rest ih =>
    rintro s ⟨hok, hrest⟩ ⟨hok', hrest'⟩
    exact ⟨⟨hok, hok'⟩, ih hrest hrest'⟩

/-- What holds of every event of a run may be asked of its steps. -/
theorem Along.and_forall {P : E → Prop} :
    ∀ {events : List E} {s : S}, Along step ok s events → (∀ e ∈ events, P e) →
      Along step (fun s e => ok s e ∧ P e) s events := by
  intro events
  induction events with
  | nil => intro s _ _; trivial
  | cons e rest ih =>
    rintro s ⟨hok, hrest⟩ hall
    obtain ⟨hfirst, hlater⟩ := List.forall_mem_cons.mp hall
    exact ⟨⟨hok, hfirst⟩, ih hrest hlater⟩

/-- What holds of every event of a run is asked of its steps, wherever it starts. -/
theorem along_of_forall {P : E → Prop} (events : List E) :
    ∀ {s : S}, (∀ e ∈ events, P e) → Along step (fun _ e => P e) s events := by
  induction events with
  | nil => intro s _; trivial
  | cons e rest ih =>
    intro s hall
    obtain ⟨hfirst, hlater⟩ := List.forall_mem_cons.mp hall
    exact ⟨hfirst, ih hlater⟩

theorem Along.imp {ok' : S → E → Prop} (himp : ∀ s e, ok s e → ok' s e) :
    ∀ {events : List E} {s : S}, Along step ok s events → Along step ok' s events := by
  intro events
  induction events with
  | nil => intro s _; trivial
  | cons e rest ih =>
    rintro s ⟨hok, hrest⟩
    exact ⟨himp s e hok, ih hrest⟩

/-- Some step of the run from `s` meets `p`. -/
def Meets (step : S → E → S) (p : S → E → Prop) (s : S) (events : List E) : Prop :=
  ∃ before e after, events = before ++ e :: after ∧ p (exec step s before) e

theorem not_meets_nil {p : S → E → Prop} {s : S} : ¬ Meets step p s [] := by
  rintro ⟨before, e, after, heq, -⟩
  simp at heq

/-- One step more is one more that may be it. -/
theorem meets_concat {p : S → E → Prop} {s : S} {events : List E} {e : E} :
    Meets step p s (events ++ [e]) ↔ Meets step p s events ∨ p (exec step s events) e := by
  constructor
  · rintro ⟨before, met, after, heq, hp⟩
    rcases List.eq_nil_or_concat after with rfl | ⟨after, last, rfl⟩
    · obtain ⟨rfl, hlast⟩ := List.append_inj' heq rfl
      obtain rfl : e = met := List.singleton_inj.mp hlast
      exact Or.inr hp
    · rw [List.concat_eq_append, ← List.cons_append, ← List.append_assoc] at heq
      obtain ⟨rfl, -⟩ := List.append_inj' heq rfl
      exact Or.inl ⟨before, met, after, rfl, hp⟩
  · rintro (⟨before, met, after, rfl, hp⟩ | hp)
    · exact ⟨before, met, after ++ [e], by simp, hp⟩
    · exact ⟨events, e, [], rfl, hp⟩

/-- A run meets a condition all along exactly if no step of it fails it. -/
theorem along_iff_not_meets {s : S} {events : List E} :
    Along step ok s events ↔ ¬ Meets step (fun s e => ¬ ok s e) s events := by
  induction events using List.reverseRecOn with
  | nil => exact iff_of_true trivial not_meets_nil
  | append_singleton events e ih =>
    rw [along_append, meets_concat, not_or, not_not, ← ih]
    simp [Along]

/-- **The rule for where a run is**: what one kind of step enters and another leaves holds
at the end of a run exactly if it was entered by some step and not left since. -/
theorem exec_iff_entered {P : S → Prop} {enters : S → E → Prop} {leaves : E}
    (hstep : ∀ s e, P (step s e) ↔ (P s ∧ e ≠ leaves) ∨ enters s e) {s : S} (hs : ¬ P s)
    (events : List E) :
    P (exec step s events) ↔
      ∃ before e after, events = before ++ e :: after ∧ enters (exec step s before) e ∧
        leaves ∉ after := by
  induction events using List.reverseRecOn with
  | nil => simpa using hs
  | append_singleton events last ih =>
    rw [exec_append, exec_cons, exec_nil, hstep, ih]
    constructor
    · rintro (⟨⟨before, e, after, rfl, henters, hstays⟩, hlast⟩ | henters)
      · exact ⟨before, e, after ++ [last], by simp, henters, by simpa using ⟨hstays, hlast.symm⟩⟩
      · exact ⟨events, last, [], rfl, henters, List.not_mem_nil⟩
    · rintro ⟨before, e, after, heq, henters, hstays⟩
      rcases List.eq_nil_or_concat after with rfl | ⟨after, other, rfl⟩
      · obtain ⟨rfl, hlast⟩ := List.append_inj' heq rfl
        obtain rfl := List.singleton_inj.mp hlast
        exact Or.inr henters
      · rw [List.concat_eq_append, ← List.cons_append, ← List.append_assoc] at heq
        obtain ⟨rfl, hlast⟩ := List.append_inj' heq rfl
        obtain rfl := List.singleton_inj.mp hlast
        rw [List.concat_eq_append, List.mem_append, List.mem_singleton, not_or] at hstays
        exact Or.inl ⟨⟨before, e, after, rfl, henters, hstays.1⟩, Ne.symm hstays.2⟩

/-- **The invariant rule.** -/
theorem Along.invariant {I : S → Prop} (hstep : ∀ s e, I s → ok s e → I (step s e)) :
    ∀ {events : List E} {s : S}, I s → Along step ok s events → I (exec step s events) := by
  intro events
  induction events with
  | nil => intro s hs _; exact hs
  | cons e rest ih =>
    rintro s hs ⟨hok, hrest⟩
    exact ih (hstep s e hs hok) hrest

/-- What a step is from a state with the invariant may be asked of the steps of a run. -/
theorem Along.imp_invariant {I : S → Prop} {ok' : S → E → Prop}
    (hstep : ∀ s e, I s → ok s e → I (step s e) ∧ ok' s e) :
    ∀ {events : List E} {s : S}, I s → Along step ok s events → Along step ok' s events := by
  intro events
  induction events with
  | nil => intro s _ _; trivial
  | cons e rest ih =>
    rintro s hs ⟨hok, hrest⟩
    obtain ⟨hnext, hok'⟩ := hstep s e hs hok
    exact ⟨hok', ih hnext hrest⟩

/-- What every step is from a state with the invariant, every step of a run is. -/
theorem along_of_invariant {I : S → Prop} (hstep : ∀ s e, I s → I (step s e) ∧ ok s e)
    (events : List E) : ∀ {s : S}, I s → Along step ok s events := by
  induction events with
  | nil => intro s _; trivial
  | cons e rest ih =>
    intro s hs
    obtain ⟨hnext, hok⟩ := hstep s e hs
    exact ⟨hok, ih hnext⟩

/-- **The rule for what one bad step spoils for good**: where every step keeps a property
exactly if it meets `ok`, a run keeps it exactly if all of its steps do. -/
theorem iff_along {I P : S → Prop} (hkeep : ∀ s e, I s → I (step s e))
    (hstep : ∀ s e, I s → (P (step s e) ↔ P s ∧ ok s e)) (events : List E) :
    ∀ {s : S}, I s → (P (exec step s events) ↔ P s ∧ Along step ok s events) := by
  induction events with
  | nil => intro s _; exact (and_iff_left trivial).symm
  | cons e rest ih =>
    intro s hs
    rw [exec_cons, ih (hkeep s e hs), hstep s e hs, and_assoc]
    exact Iff.rfl

/-- **The rule for what every step may spoil anew**: where, of a state that is as it should
be, one condition on a step comes to the same as another, and leaves the next state as it
should be, all steps of a run meet the one exactly if all meet the other. -/
theorem along_iff {I P : S → Prop} {ok' : S → E → Prop} (hkeep : ∀ s e, I s → I (step s e))
    (hstep : ∀ s e, I s → P s → (ok s e ↔ ok' s e))
    (hgood : ∀ s e, P s → ok s e → P (step s e)) (events : List E) :
    ∀ {s : S}, I s → P s → (Along step ok s events ↔ Along step ok' s events) := by
  induction events with
  | nil => intro s _ _; exact Iff.rfl
  | cons e rest ih =>
    intro s hI hP
    rw [Along, Along, ← hstep s e hI hP]
    exact and_congr_right fun hok => ih (hkeep s e hI) (hgood s e hP hok)

/-- **The rule for what a run does**: a relation that every step makes, from a
state with the invariant, and that composes, is made by the whole run. -/
theorem Along.related {I : S → Prop} {R : S → S → Prop}
    (hstep : ∀ s e, I s → ok s e → I (step s e) ∧ R s (step s e)) (hrefl : ∀ s, R s s)
    (htrans : ∀ a b c, R a b → R b c → R a c) :
    ∀ {events : List E} {s : S}, I s → Along step ok s events → R s (exec step s events) := by
  intro events
  induction events with
  | nil => intro s _ _; exact hrefl s
  | cons e rest ih =>
    rintro s hs ⟨hok, hrest⟩
    obtain ⟨hnext, hmove⟩ := hstep s e hs hok
    exact htrans _ _ _ hmove (ih hnext hrest)

/-! ## Two machines -/

section Simulation

variable {A : Type w} {astep : A → E → A} {aok : A → E → Prop} {R : S → A → Prop}

/-- **The simulation rule**: a relation between two machines that every step keeps, under a
condition on the second, is kept by every run whose steps meet it there. -/
theorem simulates (hstep : ∀ s a e, R s a → aok a e → R (step s e) (astep a e)) :
    ∀ {events : List E} {s : S} {a : A}, R s a → Along astep aok a events →
      R (exec step s events) (exec astep a events) := by
  intro events
  induction events with
  | nil => intro s a hrel _; exact hrel
  | cons e rest ih =>
    rintro s a hrel ⟨hok, hrest⟩
    exact ih (hstep s a e hrel hok) hrest

/-- A step that takes effect only if `took` says so of how it went. -/
def attempt {F : Type*} (step : S → E → S) (took : F → Bool) (s : S) (tried : E × F) : S :=
  if took tried.2 then step s tried.1 else s

/-- What a step keeps, an attempt at it keeps. -/
theorem attempt_simulates {F : Type*} {took : F → Bool} (aok : A → E → Prop)
    (hstep : ∀ s a e, R s a → aok a e → R (step s e) (astep a e)) (s : S) (a : A) (tried : E × F)
    (hrel : R s a) (hok : aok a tried.1) :
    R (attempt step took s tried) (attempt astep took a tried) := by
  rw [attempt, attempt]
  split
  · exact hstep s a tried.1 hrel hok
  · exact hrel

end Simulation

/-- A machine that stays where it is while it does nothing has stayed, or has done
something from where it was. -/
theorem stays_or_moves {f : ℕ → S} {moves : ℕ → Prop}
    (hstep : ∀ t, moves t ∨ f (t + 1) = f t) (start k : ℕ) :
    (∀ s, start ≤ s → s ≤ start + k → f s = f start) ∨
      ∃ t ≥ start, f t = f start ∧ moves t := by
  induction k with
  | zero =>
    left
    intro s hlo hhi
    obtain rfl : s = start := by omega
    rfl
  | succ k ih =>
    rcases ih with hstays | hmoved
    · have hsame := hstays (start + k) (by omega) le_rfl
      rcases hstep (start + k) with hmove | hstay
      · exact Or.inr ⟨start + k, by omega, hsame, hmove⟩
      · left
        intro s hlo hhi
        rcases (show s ≤ start + k ∨ s = start + k + 1 by omega) with hle | rfl
        · exact hstays s hlo hle
        · exact hstay.trans hsame
    · exact Or.inr hmoved

/-- **The settling rule.** A sequence of states at every point of which the
machine is done, makes `μ` smaller, or stays where it is, and which does not stay
for ever, gets done. -/
theorem settles {f : ℕ → S} {μ : S → ℕ} {D : ℕ → Prop}
    (hstep : ∀ t, (D t ∨ μ (f (t + 1)) < μ (f t)) ∨ f (t + 1) = f t)
    (hfair : ∀ t, ¬ D t → ∃ later ≥ t, (∀ s, t ≤ s → s ≤ later → f s = f t) →
      D later ∨ μ (f (later + 1)) < μ (f later)) :
    ∀ start, ∃ n ≥ start, D n := by
  intro start
  induction hμ : μ (f start) using Nat.strongRecOn generalizing start with
  | ind size ih =>
    -- from the same state, being done or moving is enough
    have hmoved : ∀ t ≥ start, f t = f start →
        D t ∨ μ (f (t + 1)) < μ (f t) → ∃ n ≥ start, D n := by
      intro t ht hsame hmove
      rcases hmove with hdone | hlt
      · exact ⟨t, ht, hdone⟩
      · rw [hsame, hμ] at hlt
        obtain ⟨n, hn, hdone⟩ := ih _ hlt (t + 1) rfl
        exact ⟨n, by omega, hdone⟩
    by_cases hnow : D start
    · exact ⟨start, le_rfl, hnow⟩
    · obtain ⟨later, hlater, hmoves⟩ := hfair start hnow
      rcases stays_or_moves hstep start (later - start) with hstays | ⟨t, ht, hsame, hmove⟩
      · rw [show start + (later - start) = later by omega] at hstays
        exact hmoved later hlater (hstays later hlater le_rfl) (hmoves hstays)
      · exact hmoved t ht hsame hmove

end GuardedRun
