import Distlib.Lib.GuardedRun
import Distlib.Lib.Since
import Mathlib.Order.Bounds.Basic

/-!
# Waiting for the membership to settle

Custody of every item follows who the members are, so it follows them only once they have
stayed the same for a while, or at the latest a longer while after they first moved away from
those it follows. `Settling` waits like this for any value.

It keeps two times: since when the value waiting has been the latest one, and since when every
value has been another than the adopted one. Both are read off the changes there were, and
what is adopted when is a law about those alone: `adopts_iff`.
-/

namespace Distlib

open GuardedRun

/-- A value seen but not adopted yet. -/
structure Waiting (T : Type) where
  value : T
  firstChange : ℕ
  lastChange : ℕ

/-- A value that is adopted only once it has stayed the same for a settling period, or at the
latest `maxSettle` after it first moved away from the adopted one. -/
structure Settling (T : Type) where
  settlePeriod : ℕ
  maxSettle : ℕ
  adopted : T
  waiting : Option (Waiting T)

namespace Settling

variable {T : Type}

/-- Starts from `adopted`, taken as settled already. -/
def new (adopted : T) (settlePeriod maxSettle : ℕ) : Settling T :=
  ⟨settlePeriod, maxSettle, adopted, none⟩

/-- The value is now `value`. The same value again changes nothing; a different one restarts the
wait, but not the `maxSettle` limit. -/
def change [DecidableEq T] (settling : Settling T) (value : T) (now : ℕ) : Settling T :=
  if value = settling.adopted then { settling with waiting := none }
  else match settling.waiting with
    | some waiting =>
      if waiting.value = value then settling
      else { settling with waiting := some { waiting with value := value, lastChange := now } }
    | none => { settling with waiting := some ⟨value, now, now⟩ }

/-- When the value waiting is adopted, if one is. -/
def deadline (settling : Settling T) : Option ℕ :=
  settling.waiting.map fun waiting =>
    min (waiting.lastChange + settling.settlePeriod) (waiting.firstChange + settling.maxSettle)

/-- Adopts the value waiting if its deadline has passed, and returns it. -/
def settle (settling : Settling T) (now : ℕ) : Settling T × Option T :=
  match settling.deadline, settling.waiting with
  | some deadline, some waiting =>
    if now < deadline then (settling, none)
    else ({ settling with adopted := waiting.value, waiting := none }, some waiting.value)
  | _, _ => (settling, none)

/-! ## All calls -/

inductive Call (T : Type) : Type where
  | change (value : T) (now : ℕ)
  | settle (now : ℕ)

def Call.time : Call T → ℕ
  | .change _ now => now
  | .settle now => now

def Call.value : Call T → Option T
  | .change value _ => some value
  | .settle _ => none

/-- What a call leaves. -/
def call [DecidableEq T] (settling : Settling T) : Call T → Settling T
  | .change value now => settling.change value now
  | .settle now => (settling.settle now).1

/-- A change at a time, to a value of which `p` holds. -/
def Call.Gives (p : T → Prop) (time : ℕ) : Call T → Prop
  | .change value now => p value ∧ now = time
  | .settle _ => False

/-- No change to a value of which `p` does not hold. -/
def Call.Keeps (p : T → Prop) : Call T → Prop
  | .change value _ => p value
  | .settle _ => True

instance (p : T → Prop) [DecidablePred p] (time : ℕ) : DecidablePred (Call.Gives p time)
  | .change value now => inferInstanceAs (Decidable (p value ∧ now = time))
  | .settle _ => inferInstanceAs (Decidable False)

instance (p : T → Prop) [DecidablePred p] : DecidablePred (Call.Keeps p)
  | .change value _ => inferInstanceAs (Decidable (p value))
  | .settle _ => inferInstanceAs (Decidable True)

/-- `p` has held of every value given since a change at that time. -/
def GivenSince (p : T → Prop) (time : ℕ) (calls : List (Call T)) : Prop :=
  Since (Call.Gives p time) (Call.Keeps p) calls

instance (p : T → Prop) [DecidablePred p] (time : ℕ) (calls : List (Call T)) :
    Decidable (GivenSince p time calls) :=
  inferInstanceAs (Decidable (Since _ _ calls))

/-- The value given by the latest change. -/
def latest (calls : List (Call T)) : Option T := (calls.filterMap Call.value).getLast?

variable {p : T → Prop} {calls : List (Call T)} {time now : ℕ} {value : T}

theorem givenSince_change : GivenSince p time (calls ++ [.change value now]) ↔
    p value ∧ (time = now ∨ GivenSince p time calls) := by
  rw [GivenSince, since_concat]
  change (p value ∧ now = time) ∨ GivenSince p time calls ∧ p value ↔ _
  rw [eq_comm (a := now), and_comm (b := p value), ← and_or_left]

theorem givenSince_settle :
    GivenSince p time (calls ++ [.settle now]) ↔ GivenSince p time calls := by
  rw [GivenSince, since_concat]
  change False ∨ GivenSince p time calls ∧ True ↔ _
  rw [false_or, and_true]

@[simp] theorem latest_change : latest (calls ++ [.change value now]) = some value := by
  simp [latest, Call.value]

@[simp] theorem latest_settle : latest (calls ++ [.settle now]) = latest calls := by
  simp [latest, Call.value]

/-- What has held of every value since some change holds of the latest. -/
theorem GivenSince.latest (h : GivenSince p time calls) :
    ∃ value, Settling.latest calls = some value ∧ p value := by
  induction calls using List.reverseRecOn with
  | nil => exact absurd h not_since_nil
  | append_singleton calls last ih =>
    cases last with
    | change value now => exact ⟨value, latest_change, (givenSince_change.mp h).1⟩
    | settle now =>
      rw [latest_settle]
      exact ih (givenSince_settle.mp h)

/-- A change was made when some call was. -/
theorem GivenSince.mem_times (h : GivenSince p time calls) : time ∈ calls.map Call.time := by
  obtain ⟨first, hmem, hfirst⟩ := h.exists_mem
  cases first with
  | change value now =>
    obtain ⟨-, rfl⟩ := hfirst
    exact List.mem_map_of_mem hmem
  | settle now => cases hfirst

/-- The times since which something has held of every value, with one change more. -/
theorem isLeast_change (hp : p value) (hclock : ∀ before ∈ calls.map Call.time, before ≤ now)
    (h : IsLeast {time | GivenSince p time calls} time) :
    IsLeast {time | GivenSince p time (calls ++ [.change value now])} time := by
  obtain ⟨hsince, hleast⟩ := h
  refine ⟨givenSince_change.mpr ⟨hp, Or.inr hsince⟩, fun other hother => ?_⟩
  rcases (givenSince_change.mp hother).2 with rfl | hbefore
  · exact hclock time hsince.mem_times
  · exact hleast hbefore

/-- The same where it had not held of the latest value: it holds since now. -/
theorem isLeast_now (hp : p value) (hlatest : ∀ before ∈ latest calls, ¬p before) :
    IsLeast {time | GivenSince p time (calls ++ [.change value now])} now := by
  refine ⟨givenSince_change.mpr ⟨hp, Or.inl rfl⟩, fun other hother => ?_⟩
  rcases (givenSince_change.mp hother).2 with rfl | hbefore
  · exact le_refl _
  · obtain ⟨before, hmem, hbefore⟩ := hbefore.latest
    exact absurd hbefore (hlatest before hmem)

/-! ## What is kept, in terms of the calls -/

/-- The value waiting is the latest one and not the adopted one, and its times are the first
since which it has been the latest, and since which no value has been the adopted one. -/
structure Sound (settlePeriod maxSettle : ℕ) (calls : List (Call T)) (settling : Settling T) :
    Prop where
  settlePeriod : settling.settlePeriod = settlePeriod
  maxSettle : settling.maxSettle = maxSettle
  waiting : ∀ waiting ∈ settling.waiting, latest calls = some waiting.value ∧
    waiting.value ≠ settling.adopted ∧
    IsLeast {time | GivenSince (· = waiting.value) time calls} waiting.lastChange ∧
    IsLeast {time | GivenSince (· ≠ settling.adopted) time calls} waiting.firstChange
  still : settling.waiting = none → ∀ value ∈ latest calls, value = settling.adopted

variable {settlePeriod maxSettle : ℕ} {settling : Settling T}

theorem sound_new (adopted : T) (settlePeriod maxSettle : ℕ) :
    Sound settlePeriod maxSettle [] (.new adopted settlePeriod maxSettle) :=
  ⟨rfl, rfl, fun waiting hwaiting => (by cases hwaiting), fun _ value hvalue => (by cases hvalue)⟩

theorem Sound.change [DecidableEq T] (h : Sound settlePeriod maxSettle calls settling)
    (hclock : ∀ before ∈ calls.map Call.time, before ≤ now) (value : T) :
    Sound settlePeriod maxSettle (calls ++ [.change value now]) (settling.change value now) := by
  rw [Settling.change]
  by_cases hvalue : value = settling.adopted
  · rw [if_pos hvalue]
    refine ⟨h.settlePeriod, h.maxSettle, fun waiting hwaiting => (by cases hwaiting),
      fun _ given hgiven => ?_⟩
    rw [latest_change] at hgiven
    obtain rfl := Option.some.inj hgiven
    exact hvalue
  · rw [if_neg hvalue]
    rcases hwaiting : settling.waiting with _ | waiting
    · -- nothing but the adopted value was given last
      refine ⟨h.settlePeriod, h.maxSettle, fun waiting hnew => ?_, fun hnone => by cases hnone⟩
      obtain rfl := Option.some.inj hnew
      have hstill := h.still hwaiting
      refine ⟨latest_change, hvalue, isLeast_now rfl fun before hbefore heq => ?_,
        isLeast_now hvalue fun before hbefore hne => hne (hstill before hbefore)⟩
      exact hvalue (heq.symm.trans (hstill before hbefore))
    · obtain ⟨hlatest, hne, hlast, hfirst⟩ := h.waiting waiting hwaiting
      by_cases hsame : waiting.value = value
      · dsimp only
        rw [if_pos hsame]
        refine ⟨h.settlePeriod, h.maxSettle, fun other hother => ?_, fun hnone => ?_⟩
        · rw [hwaiting] at hother
          obtain rfl := Option.some.inj hother
          refine ⟨by rw [latest_change, hsame], hne, ?_, isLeast_change hvalue hclock hfirst⟩
          exact isLeast_change hsame.symm hclock hlast
        · rw [hwaiting] at hnone
          cases hnone
      · dsimp only
        rw [if_neg hsame]
        refine ⟨h.settlePeriod, h.maxSettle, fun other hother => ?_, fun hnone => by cases hnone⟩
        obtain rfl := Option.some.inj hother
        refine ⟨latest_change, hvalue, isLeast_now rfl fun before hbefore heq => ?_,
          isLeast_change hvalue hclock hfirst⟩
        rw [hlatest] at hbefore
        obtain rfl := Option.some.inj hbefore
        exact hsame heq

theorem Sound.settle (h : Sound settlePeriod maxSettle calls settling) (now : ℕ) :
    Sound settlePeriod maxSettle (calls ++ [.settle now]) (settling.settle now).1 := by
  have hsame : Sound settlePeriod maxSettle (calls ++ [.settle now]) settling := by
    refine ⟨h.settlePeriod, h.maxSettle, fun waiting hwaiting => ?_, fun hnone => ?_⟩
    · obtain ⟨hlatest, hne, hlast, hfirst⟩ := h.waiting waiting hwaiting
      refine ⟨by rw [latest_settle, hlatest], hne, ?_, ?_⟩
      · simpa only [givenSince_settle] using hlast
      · simpa only [givenSince_settle] using hfirst
    · rw [latest_settle]
      exact h.still hnone
  rw [Settling.settle]
  split
  · rename_i deadline waiting hdeadline hwaiting
    split
    · exact hsame
    · refine ⟨h.settlePeriod, h.maxSettle, fun other hother => (by cases hother),
        fun _ value hvalue => ?_⟩
      rw [latest_settle, (h.waiting waiting hwaiting).1] at hvalue
      exact (Option.some.inj hvalue).symm
  · exact hsame

theorem sound_calls [DecidableEq T] (adopted : T) (settlePeriod maxSettle : ℕ)
    (calls : List (Call T)) (hclock : (calls.map Call.time).Pairwise (· ≤ ·)) :
    Sound settlePeriod maxSettle calls (exec call (.new adopted settlePeriod maxSettle) calls) := by
  induction calls using List.reverseRecOn with
  | nil => exact sound_new adopted settlePeriod maxSettle
  | append_singleton calls last ih =>
    rw [List.map_append, List.pairwise_append] at hclock
    obtain ⟨hbefore, -, hlast⟩ := hclock
    rw [exec_append, exec_cons, exec_nil]
    cases last with
    | change value now =>
      exact (ih hbefore).change (fun before hmem => hlast before hmem now List.mem_cons_self) value
    | settle now => exact (ih hbefore).settle now

/-! ## What is adopted when -/

/-- The deadline is what a settle call goes by. -/
theorem settle_eq_some_iff : (settling.settle now).2 = some value ↔
    ∃ waiting ∈ settling.waiting, waiting.value = value ∧
      ∃ deadline ∈ settling.deadline, deadline ≤ now := by
  rw [Settling.settle, Settling.deadline]
  rcases settling.waiting with _ | waiting
  · simp
  · simp only [Option.map_some, Option.mem_some_iff, exists_eq_left']
    split
    · rename_i hlate
      refine iff_of_false (fun h => by cases h) fun h => ?_
      omega
    · rename_i hpassed
      rw [Option.some.injEq]
      exact (and_iff_left (not_lt.mp hpassed)).symm

/-- The latest value has been so for the settling period. -/
def Settled (settlePeriod now : ℕ) (value : T) (calls : List (Call T)) : Prop :=
  ∃ time, time + settlePeriod ≤ now ∧ GivenSince (· = value) time calls

/-- Every value given since some change `maxSettle` ago or before differs from `adopted`. -/
def Overdue (maxSettle now : ℕ) (adopted : T) (calls : List (Call T)) : Prop :=
  ∃ time, time + maxSettle ≤ now ∧ GivenSince (· ≠ adopted) time calls

/-- A time is far enough back if the first one is. -/
theorem exists_iff_of_isLeast {period : ℕ} (h : IsLeast {time | GivenSince p time calls} time) :
    (∃ first, first + period ≤ now ∧ GivenSince p first calls) ↔ time + period ≤ now := by
  constructor
  · rintro ⟨first, hle, hsince⟩
    have hleast := h.2 hsince
    omega
  · exact fun hle => ⟨time, hle, h.1⟩

/-- The deadline has passed exactly when the latest value has settled or is overdue. -/
theorem Sound.adopts_iff (h : Sound settlePeriod maxSettle calls settling) :
    (settling.settle now).2 = some value ↔
      latest calls = some value ∧ value ≠ settling.adopted ∧
        (Settled settlePeriod now value calls ∨ Overdue maxSettle now settling.adopted calls) := by
  rw [settle_eq_some_iff, deadline]
  rcases hwaiting : settling.waiting with _ | waiting
  · refine iff_of_false (fun ⟨_, hnone, _⟩ => by cases hnone) fun ⟨hlatest, hne, _⟩ => ?_
    exact hne (h.still hwaiting value hlatest)
  · obtain ⟨hlatest, hne, hlast, hfirst⟩ := h.waiting waiting hwaiting
    simp only [Option.map_some, Option.mem_some_iff, exists_eq_left', min_le_iff, hlatest,
      Option.some.injEq, h.settlePeriod, h.maxSettle]
    refine and_congr_right fun hvalue => ?_
    subst hvalue
    rw [and_iff_right hne, Settled, Overdue, exists_iff_of_isLeast hlast,
      exists_iff_of_isLeast hfirst]

/-- The deadline is the first time at which something would be adopted. -/
theorem deadline_eq_some_iff :
    settling.deadline = some time ↔ IsLeast {now | ((settling.settle now).2).isSome} time := by
  have hadopts : ∀ now, ((settling.settle now).2).isSome ↔
      ∃ deadline ∈ settling.deadline, deadline ≤ now := by
    intro now
    rw [Option.isSome_iff_exists]
    simp only [settle_eq_some_iff, deadline]
    rcases settling.waiting with _ | waiting <;> simp
  constructor
  · intro hdeadline
    refine ⟨(hadopts time).mpr ⟨time, hdeadline, le_refl _⟩, fun now hnow => ?_⟩
    obtain ⟨deadline, hmem, hle⟩ := (hadopts now).mp hnow
    rw [hdeadline] at hmem
    exact (Option.some.inj hmem).le.trans hle
  · rintro ⟨hfirst, hleast⟩
    obtain ⟨deadline, hmem, hle⟩ := (hadopts time).mp hfirst
    have hback : time ≤ deadline := hleast ((hadopts deadline).mpr ⟨deadline, hmem, le_refl _⟩)
    rw [hmem, le_antisymm hle hback]

/-- What a settle call returns is what is adopted then; one that returns nothing changes
nothing. -/
theorem settle_fst (settling : Settling T) (now : ℕ) :
    ((settling.settle now).2 = none → (settling.settle now).1 = settling) ∧
      ∀ value, (settling.settle now).2 = some value → (settling.settle now).1.adopted = value := by
  rw [settle]
  split
  · split
    · exact ⟨fun _ => rfl, fun value hvalue => by cases hvalue⟩
    · exact ⟨fun hnone => (by cases hnone), fun value hvalue => Option.some.inj hvalue⟩
  · exact ⟨fun _ => rfl, fun value hvalue => by cases hvalue⟩

/-- **What is adopted, and when**, after any changes and settle calls in the order of their
times: the latest value, if it is not the adopted one, once it has settled or is overdue. The
deadline is the first time it would be, and a call that adopts nothing leaves all as it was. -/
theorem settles_when [DecidableEq T] (adopted : T) (settlePeriod maxSettle : ℕ)
    (calls : List (Call T)) (hclock : (calls.map Call.time).Pairwise (· ≤ ·)) :
    let settling := exec call (.new adopted settlePeriod maxSettle) calls
    (∀ now value, (settling.settle now).2 = some value ↔
      latest calls = some value ∧ value ≠ settling.adopted ∧
        (Settled settlePeriod now value calls ∨ Overdue maxSettle now settling.adopted calls)) ∧
    (∀ now, ((settling.settle now).2 = none → (settling.settle now).1 = settling) ∧
      ∀ value, (settling.settle now).2 = some value → (settling.settle now).1.adopted = value) ∧
    ∀ time, settling.deadline = some time ↔
      IsLeast {now | ((settling.settle now).2).isSome} time := by
  have hsound := sound_calls adopted settlePeriod maxSettle calls hclock
  exact ⟨fun _ _ => hsound.adopts_iff, fun now => settle_fst _ now, fun _ => deadline_eq_some_iff⟩

/-- Two changes ten apart, and a settling period of thirty: the second is adopted at forty. -/
theorem settles_after_last :
    ((exec call (.new 0 30 100) [.change 1 0, .change 2 10]).settle 40).2 = some 2 := by
  have hlaw := settles_when 0 30 100 [.change 1 0, .change 2 10] (by decide)
  exact (hlaw.1 40 2).mpr ⟨rfl, by decide, Or.inl ⟨10, by decide, by decide⟩⟩

end Settling

end Distlib
