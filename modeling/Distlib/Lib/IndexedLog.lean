import Mathlib

/-!
# Runs over an indexed log

A replicated log hands a state machine its entries one at a time, each at an
index, the indices strictly increasing. The machine is deterministic, so a run
*is* the log: `run step start log` is the state reached.

What a proof about such a machine needs is one induction. An invariant of the
reached state may speak about the log that led there (who signed which entry,
what happened since an entry), so the rule `run_induction` carries the log along
with the state: it holds of the empty log, and appending one entry above every
index so far preserves it.

A reader of the log that is not fed by it but fetches it piecewise keeps a
cursor instead. `through n` is what a cursor at `n` claims to have read and
`between a b` what a reader at `a` is owed to get to `b`; that the two add up
is `through_append_between`.
-/

namespace IndexedLog

universe u v

variable {S : Type u} {E : Type v}

/-- A log: entries in the order they were committed, each at its index. -/
abbrev Log (E : Type v) : Type v := List (ℕ × E)

/-- The indices strictly increase. -/
def Ascending (log : Log E) : Prop := log.Pairwise fun a b => a.1 < b.1

instance (log : Log E) : Decidable (Ascending log) :=
  inferInstanceAs (Decidable (log.Pairwise fun a b => a.1 < b.1))

theorem Ascending.left {pre post : Log E} (h : Ascending (pre ++ post)) : Ascending pre :=
  (List.pairwise_append.mp h).1

/-- Every entry of a prefix stands below every entry after it. -/
theorem Ascending.lt_of_mem {pre post : Log E} (h : Ascending (pre ++ post)) {a b : ℕ × E}
    (ha : a ∈ pre) (hb : b ∈ post) : a.1 < b.1 :=
  (List.pairwise_append.mp h).2.2 a ha b hb

theorem Ascending.lt_last {pre : Log E} {i : ℕ} {e : E} (h : Ascending (pre ++ [(i, e)]))
    {a : ℕ × E} (ha : a ∈ pre) : a.1 < i :=
  h.lt_of_mem ha (List.mem_singleton_self _)

theorem Ascending.nodup {log : Log E} (h : Ascending log) : log.Nodup := by
  refine List.Pairwise.imp ?_ h
  rintro a b hlt rfl
  exact lt_irrefl _ hlt

/-- An ascending log is known by its entries. -/
theorem Ascending.ext {a b : Log E} (ha : Ascending a) (hb : Ascending b)
    (h : ∀ entry, entry ∈ a ↔ entry ∈ b) : a = b := by
  have hperm : a.Perm b := (List.perm_ext_iff_of_nodup ha.nodup hb.nodup).mpr h
  exact hperm.eq_of_pairwise (fun _ _ _ _ hlt hgt => absurd hgt (lt_asymm hlt)) ha hb

/-! ## Indices without a gap -/

/-- Increasing numbers above `c` that number `n` reach `c + n` at least. -/
theorem exists_ge_of_increasing {l : List ℕ} {c : ℕ} (hsorted : l.Pairwise (· < ·))
    (habove : ∀ i ∈ l, c < i) (hne : l ≠ []) : ∃ i ∈ l, c + l.length ≤ i := by
  induction l using List.reverseRecOn with
  | nil => exact absurd rfl hne
  | append_singleton l last ih =>
    obtain ⟨hl, -, hlast⟩ := List.pairwise_append.mp hsorted
    refine ⟨last, List.mem_append_right _ (List.mem_singleton_self _), ?_⟩
    rw [List.length_append, List.length_singleton]
    by_cases hnil : l = []
    · have hc := habove last (List.mem_append_right _ (List.mem_singleton_self _))
      rw [hnil, List.length_nil]
      omega
    · obtain ⟨i, hi, hge⟩ := ih hl (fun i hi => habove i (List.mem_append_left _ hi)) hnil
      have hlt := hlast i hi last (List.mem_singleton_self _)
      omega

/-- Increasing numbers above `c` stay within their own number of it only if they
leave none out. -/
theorem increasing_within_iff {l : List ℕ} {c : ℕ} (hsorted : l.Pairwise (· < ·))
    (habove : ∀ i ∈ l, c < i) :
    (∀ i ∈ l, i ≤ c + l.length) ↔ l = List.range' (c + 1) l.length := by
  constructor
  · intro hwithin
    induction l using List.reverseRecOn with
    | nil => rfl
    | append_singleton l last ih =>
      obtain ⟨hl, -, hlast⟩ := List.pairwise_append.mp hsorted
      have hmem := List.mem_append_right l (List.mem_singleton_self last)
      have hle := hwithin last hmem
      rw [List.length_append, List.length_singleton] at hle ⊢
      have hinit := ih hl (fun i hi => habove i (List.mem_append_left _ hi)) fun i hi => by
        have hlt := hlast i hi last (List.mem_singleton_self _)
        omega
      obtain ⟨i, hi, hge⟩ := exists_ge_of_increasing hsorted habove (by simp)
      have hend : last = c + 1 + l.length := by
        rw [List.length_append, List.length_singleton] at hge
        rcases List.mem_append.mp hi with hold | hnew
        · have hlt := hlast i hold last (List.mem_singleton_self _)
          omega
        · have := List.mem_singleton.mp hnew
          omega
      rw [List.range'_concat, ← hinit, hend, one_mul]
  · intro heq i hi
    rw [heq, List.mem_range'_1] at hi
    omega

/-! ## Reading a log by a cursor -/

/-- The entries of the log up to and including index `n`. -/
def through (n : ℕ) (log : Log E) : Log E := log.filter fun entry => entry.1 ≤ n

/-- The entries of the log above index `a`, up to and including `b`. -/
def between (a b : ℕ) (log : Log E) : Log E :=
  log.filter fun entry => a < entry.1 ∧ entry.1 ≤ b

theorem mem_through {n : ℕ} {log : Log E} {entry : ℕ × E} :
    entry ∈ through n log ↔ entry ∈ log ∧ entry.1 ≤ n := by
  simp [through]

theorem mem_between {a b : ℕ} {log : Log E} {entry : ℕ × E} :
    entry ∈ between a b log ↔ entry ∈ log ∧ a < entry.1 ∧ entry.1 ≤ b := by
  simp [between]

theorem between_of_le {a b : ℕ} (h : b ≤ a) (log : Log E) : between a b log = [] := by
  rw [List.eq_nil_iff_forall_not_mem]
  intro entry hentry
  have hrange := (mem_between.mp hentry).2
  omega

theorem Ascending.filter {log : Log E} (h : Ascending log) (keep : ℕ × E → Bool) :
    Ascending (log.filter keep) :=
  List.Pairwise.filter keep h

/-- Selecting lower entries and then higher ones is selecting all of them. -/
theorem filter_append_filter {log : Log E} (h : Ascending log) {P Q R : ℕ → Prop}
    [DecidablePred P] [DecidablePred Q] [DecidablePred R] (hlt : ∀ i j, P i → Q j → i < j)
    (hall : ∀ i, R i ↔ P i ∨ Q i) :
    (log.filter fun entry => P entry.1) ++ (log.filter fun entry => Q entry.1) =
      log.filter fun entry => R entry.1 := by
  apply Ascending.ext
  · refine List.pairwise_append.mpr ⟨h.filter _, h.filter _, ?_⟩
    intro x hx y hy
    exact hlt _ _ (of_decide_eq_true (List.mem_filter.mp hx).2)
      (of_decide_eq_true (List.mem_filter.mp hy).2)
  · exact h.filter _
  · intro entry
    simp only [List.mem_append, List.mem_filter, decide_eq_true_eq, hall, and_or_left]

/-- **A cursor moves without loss**: what was read through `a` and what lies
between `a` and `b` are, in order, what there is through `b`. -/
theorem through_append_between {log : Log E} (h : Ascending log) {a b : ℕ} (hab : a ≤ b) :
    through a log ++ between a b log = through b log :=
  filter_append_filter h (P := fun i => i ≤ a) (Q := fun i => a < i ∧ i ≤ b) (R := fun i => i ≤ b)
    (fun i j hi hj => by omega) (fun i => by omega)

theorem between_append_between {log : Log E} (h : Ascending log) {a b c : ℕ} (hab : a ≤ b)
    (hbc : b ≤ c) : between a b log ++ between b c log = between a c log :=
  filter_append_filter h (P := fun i => a < i ∧ i ≤ b) (Q := fun i => b < i ∧ i ≤ c)
    (R := fun i => a < i ∧ i ≤ c) (fun i j hi hj => by omega) (fun i => by omega)

/-- Cutting what is owed after some of it moves the far end to the last entry
taken. -/
theorem between_of_cut {log : Log E} (h : Ascending log) {a b : ℕ} {taken rest : Log E}
    {last : ℕ × E} (hcut : between a b log = taken ++ rest) (hlast : taken.getLast? = some last) :
    between a last.1 log = taken := by
  have hasc : Ascending (taken ++ rest) := hcut ▸ h.filter _
  obtain ⟨init, rfl⟩ := List.getLast?_eq_some_iff.mp hlast
  have hmem : ∀ entry, entry ∈ between a b log ↔ entry ∈ (init ++ [last]) ++ rest := by
    intro entry
    rw [hcut]
  have hb : last.1 ≤ b := (mem_between.mp ((hmem last).mpr (by simp))).2.2
  apply Ascending.ext (h.filter _) hasc.left
  intro entry
  constructor
  · intro hentry
    obtain ⟨hin, hlo, hhi⟩ := mem_between.mp hentry
    rcases List.mem_append.mp ((hmem entry).mp (mem_between.mpr ⟨hin, hlo, hhi.trans hb⟩)) with
      htaken | hrest
    · exact htaken
    · exact absurd (hasc.lt_of_mem (by simp) hrest) (not_lt.mpr hhi)
  · intro hentry
    obtain ⟨hin, hlo, -⟩ := mem_between.mp ((hmem entry).mpr (List.mem_append_left rest hentry))
    refine mem_between.mpr ⟨hin, hlo, ?_⟩
    rcases List.mem_append.mp hentry with hinit | hsingle
    · exact (hasc.left.lt_of_mem hinit (List.mem_singleton_self _)).le
    · rw [List.mem_singleton.mp hsingle]

/-! ## Runs -/

/-- The state a log leads to from `start`. -/
def run (step : S → ℕ → E → S) (start : S) (log : Log E) : S :=
  log.foldl (fun s entry => step s entry.1 entry.2) start

@[simp] theorem run_nil (step : S → ℕ → E → S) (start : S) : run step start [] = start := rfl

theorem run_append (step : S → ℕ → E → S) (start : S) (pre post : Log E) :
    run step start (pre ++ post) = run step (run step start pre) post :=
  List.foldl_append ..

theorem run_concat (step : S → ℕ → E → S) (start : S) (pre : Log E) (i : ℕ) (e : E) :
    run step start (pre ++ [(i, e)]) = step (run step start pre) i e := by
  rw [run_append]
  rfl

/-- `P` holds of the state before every entry of the log. -/
def Throughout (step : S → ℕ → E → S) (P : S → Prop) : S → Log E → Prop
  | _, [] => True
  | start, entry :: rest => P start ∧ Throughout step P (step start entry.1 entry.2) rest

theorem throughout_append {step : S → ℕ → E → S} {P : S → Prop} {pre post : Log E} :
    ∀ {start : S}, Throughout step P start (pre ++ post) ↔
      Throughout step P start pre ∧ Throughout step P (run step start pre) post := by
  induction pre with
  | nil => intro start; simp [Throughout]
  | cons entry pre ih =>
    intro start
    rw [List.cons_append, Throughout, Throughout, ih, and_assoc]
    rfl

theorem Throughout.imp {step : S → ℕ → E → S} {P Q : S → Prop} (hPQ : ∀ s, P s → Q s)
    {log : Log E} : ∀ {start : S}, Throughout step P start log → Throughout step Q start log := by
  induction log with
  | nil => intro _ _; trivial
  | cons entry rest ih =>
    rintro start ⟨hstart, hrest⟩
    exact ⟨hPQ _ hstart, ih hrest⟩

/-- **The run rule.** A property of a log and the state it leads to holds of
every ascending log once it holds of the empty one and survives one more
entry at an index above all before. -/
theorem run_induction {step : S → ℕ → E → S} {start : S} {P : Log E → S → Prop}
    (init : P [] start)
    (next : ∀ (pre : Log E) (i : ℕ) (e : E), Ascending (pre ++ [(i, e)]) →
      P pre (run step start pre) → P (pre ++ [(i, e)]) (step (run step start pre) i e)) :
    ∀ (log : Log E), Ascending log → P log (run step start log) := by
  intro log
  induction log using List.reverseRecOn with
  | nil => intro _; exact init
  | append_singleton pre entry ih =>
    obtain ⟨i, e⟩ := entry
    intro h
    rw [run_concat]
    exact next pre i e h (ih h.left)

/-! ## What has happened in a log -/

/-- Some entry of the log did `Q`, on the log before it. -/
def Occurs (Q : Log E → ℕ → E → Prop) (log : Log E) : Prop :=
  ∃ pre i e post, log = pre ++ (i, e) :: post ∧ Q pre i e

variable {Q : Log E → ℕ → E → Prop}

theorem not_occurs_nil : ¬Occurs Q [] := by
  rintro ⟨pre, i, e, post, heq, -⟩
  exact List.append_ne_nil_of_right_ne_nil pre (List.cons_ne_nil (i, e) post) heq.symm

/-- What has happened with one more entry had happened before, or the last entry did it. -/
theorem occurs_concat {log : Log E} {i : ℕ} {e : E} :
    Occurs Q (log ++ [(i, e)]) ↔ Occurs Q log ∨ Q log i e := by
  constructor
  · rintro ⟨pre, j, d, post, heq, hdid⟩
    rcases List.eq_nil_or_concat post with rfl | ⟨mid, last, rfl⟩
    · obtain ⟨rfl, hlast⟩ := List.append_inj' heq rfl
      obtain ⟨rfl, rfl⟩ := Prod.mk.inj (List.singleton_inj.mp hlast)
      exact Or.inr hdid
    · rw [List.concat_eq_append, ← List.cons_append, ← List.append_assoc] at heq
      obtain ⟨rfl, -⟩ := List.append_inj' heq rfl
      exact Or.inl ⟨pre, j, d, mid, rfl, hdid⟩
  · rintro (⟨pre, j, d, post, rfl, hdid⟩ | hdid)
    · exact ⟨pre, j, d, post ++ [(i, e)], by simp, hdid⟩
    · exact ⟨log, i, e, [], rfl, hdid⟩

/-- What has happened in a log had happened at an earlier moment, or has since. -/
theorem occurs_append {pre post : Log E} :
    Occurs Q (pre ++ post) ↔ Occurs Q pre ∨ Occurs (fun since => Q (pre ++ since)) post := by
  induction post using List.reverseRecOn with
  | nil => rw [List.append_nil, or_iff_left not_occurs_nil]
  | append_singleton post entry ih =>
    obtain ⟨i, e⟩ := entry
    rw [← List.append_assoc, occurs_concat, ih, occurs_concat, or_assoc]

theorem Occurs.exists_mem {log : Log E} (h : Occurs Q log) :
    ∃ pre i e, (i, e) ∈ log ∧ Q pre i e := by
  obtain ⟨pre, i, e, post, rfl, hdid⟩ := h
  exact ⟨pre, i, e, List.mem_append_right pre List.mem_cons_self, hdid⟩

end IndexedLog
