import Distlib.Lib.GuardedRun

/-!
# Bytes held to a rate

A caller that has moved some bytes waits until the rate allows them. All callers
of a pacer share one time, when the bytes let through so far are all within the
rate; each call moves it on by what its bytes take, under a lock, and then waits
until the time it left there, while others move it further. Time idle is made up
for by a burst at most: a call never counts from longer ago than that.

So a run is the calls in the order they took the lock, each with the moment its
wait ended, if it has; nothing is asked of that order, of the clock or of how long
anyone sleeps, but that nobody wakes before the time left (`Woken`). The bytes of
any window are within the rate of it and a burst, less what rounding a duration
down loses, a nanosecond a call (`pacer_holds_its_rate`).

Times are nanoseconds.
-/

namespace Distlib

open GuardedRun

/-- How far ahead of its rate a pacer lets bytes through after a pause: a tenth of
a second. -/
def BURST : ℕ := 100 * 1000000

/-- A rate in bytes per second, shared by everyone pacing through it. -/
structure BytePacer where
  rate : Option ℕ+
  /-- when the bytes let through so far are all within the rate -/
  caughtUpAt : ℕ
  deriving DecidableEq

/-- How long `bytes` take at `rate` bytes per second. -/
def timeFor (bytes : ℕ) (rate : ℕ+) : ℕ := min (bytes * 1000000000 / rate) (2 ^ 64 - 1)

namespace BytePacer

/-- A pacer at `rate` bytes per second, or with no limit. -/
def new (rate : Option ℕ+) (now : ℕ) : BytePacer := ⟨rate, now⟩

/-- Lets `bytes` more through at `now`: when they are within the rate, if there is
one. -/
def pace (pacer : BytePacer) (now bytes : ℕ) : Option ℕ × BytePacer :=
  match pacer.rate with
  | none => (none, pacer)
  | some rate =>
    let earliest := if BURST ≤ now then now - BURST else now
    let caughtUpAt := max pacer.caughtUpAt earliest + timeFor bytes rate
    (some caughtUpAt, { pacer with caughtUpAt })

/-! ## Calls, by anybody -/

/-- A call, and when its wait ended, if it has. -/
structure Call where
  now : ℕ
  bytes : ℕ
  ended : Option ℕ
  deriving DecidableEq

/-- A call that has been made, and until when it waits. -/
structure Wait extends Call where
  waitsUntil : Option ℕ
  deriving DecidableEq

/-- A pacer, and the calls it has had, in the order they took its lock. -/
structure World where
  pacer : BytePacer
  waits : List Wait

namespace World

def start (rate : ℕ+) (now : ℕ) : World := ⟨.new (some rate) now, []⟩

def step (w : World) (call : Call) : World :=
  let paced := w.pacer.pace call.now call.bytes
  { pacer := paced.2, waits := w.waits ++ [{ call with waitsUntil := paced.1 }] }

end World

/-- Nobody wakes early. -/
def Woken (w : World) (call : Call) : Prop :=
  ∀ time ∈ (w.pacer.pace call.now call.bytes).1, ∀ ended ∈ call.ended, time ≤ ended

/-- The bytes let through so far are all within the rate. -/
def WithoutDebt (w : World) (call : Call) : Prop := w.pacer.caughtUpAt ≤ call.now

/-- A call without debt waits no longer than its bytes take. -/
def Prompt (rate : ℕ+) (w : World) (call : Call) : Prop :=
  WithoutDebt w call → ∀ time ∈ (w.pacer.pace call.now call.bytes).1,
    rate * (time - call.now) ≤ call.bytes * 1000000000

/-- The caller is alone: the last call has ended, if this is not the first one. -/
def Alone (w : World) (call : Call) : Prop :=
  ∀ last ∈ w.waits.getLast?, ∃ ended ∈ last.ended, ended ≤ call.now

instance (w : World) (call : Call) : Decidable (Woken w call) :=
  inferInstanceAs (Decidable (∀ time ∈ _, ∀ ended ∈ _, _))

instance (w : World) (call : Call) : Decidable (Alone w call) :=
  inferInstanceAs (Decidable (∀ last ∈ _, ∃ ended ∈ _, _))

/-- The time a call takes does not saturate. -/
def Fits (rate : ℕ+) (call : Call) : Prop := call.bytes * 1000000000 / rate < 2 ^ 64

instance (rate : ℕ+) (call : Call) : Decidable (Fits rate call) :=
  inferInstanceAs (Decidable (_ < _))

/-- The calls made at or after `s` whose waits have ended by `t`. -/
def passed (s t : ℕ) (waits : List Wait) : List Wait :=
  waits.filter fun wait => s ≤ wait.now ∧ wait.ended.any (· ≤ t)

/-- The calls made at or after `s`. -/
def since (s : ℕ) (waits : List Wait) : List Wait := waits.filter fun wait => s ≤ wait.now

/-! ## The time the bytes take -/

section Rate

variable {rate : ℕ+} {w : World} {call : Call} {s t : ℕ}

theorem timeFor_mul_le (bytes : ℕ) (rate : ℕ+) : rate * timeFor bytes rate ≤ bytes * 1000000000 :=
  (Nat.mul_le_mul_left _ (min_le_left _ _)).trans (Nat.mul_div_le _ _)

/-- What rounding down loses is less than a nanosecond. -/
theorem le_timeFor_mul (h : Fits rate call) :
    call.bytes * 1000000000 ≤ rate * timeFor call.bytes rate + rate := by
  have hmod := Nat.mod_lt (call.bytes * 1000000000) rate.pos
  have hdiv := Nat.div_add_mod (call.bytes * 1000000000) rate
  rw [Fits] at h
  rw [timeFor, min_eq_left (by omega)]
  omega

theorem pace_of_rate (call : Call) (h : w.pacer.rate = some rate) :
    ∃ earliest, call.now ≤ earliest + BURST ∧ earliest ≤ call.now ∧
      w.pacer.pace call.now call.bytes =
        (some (max w.pacer.caughtUpAt earliest + timeFor call.bytes rate),
          ⟨some rate, max w.pacer.caughtUpAt earliest + timeFor call.bytes rate⟩) := by
  refine ⟨if BURST ≤ call.now then call.now - BURST else call.now, ?_, ?_, ?_⟩
  · generalize BURST = burst
    split <;> omega
  · split <;> omega
  · simp only [pace, h]

/-- The time the bytes of some calls take. -/
def timeOf (rate : ℕ+) (waits : List Wait) : ℕ := (waits.map fun wait => timeFor wait.bytes rate).sum

theorem timeOf_cons (wait : Wait) (waits : List Wait) :
    timeOf rate (wait :: waits) = timeFor wait.bytes rate + timeOf rate waits := List.sum_cons ..

theorem timeOf_singleton (wait : Wait) : timeOf rate [wait] = timeFor wait.bytes rate := by
  rw [timeOf_cons]
  exact Nat.add_zero _

theorem timeOf_append (waits more : List Wait) :
    timeOf rate (waits ++ more) = timeOf rate waits + timeOf rate more := by
  rw [timeOf, List.map_append, List.sum_append]
  rfl

theorem timeOf_passed_le (rate : ℕ+) (s t : ℕ) (waits : List Wait) :
    timeOf rate (passed s t waits) ≤ timeOf rate (since s waits) := by
  have hsub : (passed s t waits).Sublist (since s waits) := by
    refine List.monotone_filter_right _ fun wait hwait => ?_
    simp only [decide_eq_true_eq] at hwait ⊢
    exact hwait.1
  exact (hsub.map _).sum_le_sum fun _ _ => Nat.zero_le _

/-! ## Any window -/

/-- What holds of the calls of a window, up to any moment: if there are any, the
bytes of all of them are within the rate by the time kept, but for a burst; and
those of the ones that have passed are, by the end of the window. -/
structure Within (rate : ℕ+) (s t : ℕ) (w : World) : Prop where
  paced : w.pacer.rate = some rate
  caught : (∃ wait ∈ w.waits, s ≤ wait.now) →
    s + timeOf rate (since s w.waits) ≤ w.pacer.caughtUpAt + BURST
  through : s + timeOf rate (passed s t w.waits) ≤ t + BURST

theorem timeOf_since_concat (s : ℕ) (waits : List Wait) (wait : Wait) :
    timeOf rate (since s (waits ++ [wait])) =
      timeOf rate (since s waits) + if s ≤ wait.now then timeFor wait.bytes rate else 0 := by
  rw [since, List.filter_append, timeOf_append, List.filter_singleton]
  by_cases hinside : s ≤ wait.now
  · rw [decide_eq_true hinside, cond_true, timeOf_singleton, if_pos hinside]
    rfl
  · rw [decide_eq_false hinside, cond_false, if_neg hinside]
    rfl

theorem timeOf_since_of_none {waits : List Wait} (h : ¬ ∃ wait ∈ waits, s ≤ wait.now) :
    timeOf rate (since s waits) = 0 := by
  have hnone : since s waits = [] := by
    rw [since, List.filter_eq_nil_iff]
    intro wait hwait hafter
    exact h ⟨wait, hwait, of_decide_eq_true hafter⟩
  rw [hnone]
  rfl

/-- The time kept after a call. -/
theorem Within.caught_step (h : Within rate s t w) (call : Call) :
    (∃ wait ∈ (w.step call).waits, s ≤ wait.now) →
      s + timeOf rate (since s (w.step call).waits) ≤ (w.step call).pacer.caughtUpAt + BURST := by
  obtain ⟨earliest, hearliest, -, hpace⟩ := pace_of_rate call h.paced
  have hnext : (w.step call).pacer.caughtUpAt =
      max w.pacer.caughtUpAt earliest + timeFor call.bytes rate := by
    rw [World.step, hpace]
  rintro ⟨wait, hwait, hinside⟩
  have hsince : timeOf rate (since s (w.step call).waits) =
      timeOf rate (since s w.waits) + if s ≤ call.now then timeFor call.bytes rate else 0 :=
    timeOf_since_concat ..
  rw [hnext, hsince]
  have hcaught := h.caught
  generalize BURST = burst at *
  by_cases hcall : s ≤ call.now
  · -- it counts from a burst before it at the earliest, or from where the others left off
    rw [if_pos hcall]
    by_cases hany : ∃ wait ∈ w.waits, s ≤ wait.now
    · have hbefore := hcaught hany
      omega
    · rw [timeOf_since_of_none hany]
      omega
  · have hearlier : wait ∈ w.waits := by
      rcases List.mem_append.mp hwait with hbefore | hlast
      · exact hbefore
      · rw [List.mem_singleton.mp hlast] at hinside
        exact absurd hinside hcall
    have hbefore := hcaught ⟨wait, hearlier, hinside⟩
    rw [if_neg hcall]
    omega

/-- One call, whoever makes it. -/
theorem Within.step (h : Within rate s t w) (call : Call) (hwoken : Woken w call) :
    Within rate s t (w.step call) := by
  have hcaught := h.caught_step call
  obtain ⟨earliest, -, -, hpace⟩ := pace_of_rate call h.paced
  rw [Woken, hpace] at hwoken
  refine ⟨by rw [World.step, hpace], hcaught, ?_⟩
  by_cases hpassed : s ≤ call.now ∧ call.ended.any (· ≤ t)
  · -- it has passed, so the time it was let through by is within the window
    have hall := timeOf_passed_le rate s t (w.step call).waits
    have htime : (w.step call).pacer.caughtUpAt ≤ t := by
      rcases hended : call.ended with _ | ended
      · rw [hended] at hpassed
        exact absurd hpassed.2 Bool.false_ne_true
      · rw [hended, Option.any_some, decide_eq_true_eq] at hpassed
        rw [World.step, hpace]
        exact (hwoken _ rfl ended hended).trans hpassed.2
    have hwithin := hcaught
      ⟨_, List.mem_append_right _ (List.mem_singleton_self _), hpassed.1⟩
    omega
  · have hsame : passed s t (w.step call).waits = passed s t w.waits := by
      rw [World.step, passed, List.filter_append]
      simp [passed, hpassed]
    rw [hsame]
    exact h.through

/-- Rounding loses a nanosecond a call at most. -/
theorem bytes_le_timeOf {waits : List Wait} (h : ∀ wait ∈ waits, Fits rate wait.toCall) :
    (waits.map fun wait => wait.bytes).sum * 1000000000 ≤
      rate * timeOf rate waits + rate * waits.length := by
  induction waits with
  | nil => exact Nat.zero_le _
  | cons wait waits ih =>
    have hrest := ih fun later hlater => h later (List.mem_cons_of_mem _ hlater)
    have hfirst := le_timeFor_mul (h wait (List.mem_cons_self ..))
    rw [timeOf_cons, List.map_cons, List.sum_cons, List.length_cons]
    have hlength : (rate : ℕ) * (waits.length + 1) = rate * waits.length + rate := Nat.mul_succ ..
    rw [Nat.add_mul, Nat.mul_add, hlength]
    linarith only [hrest, hfirst]

/-- The calls of a run are those that were made. -/
theorem toCall_mem_of_mem_waits (calls : List Call) :
    ∀ {w : World}, ∀ wait ∈ (exec World.step w calls).waits, wait ∈ w.waits ∨ wait.toCall ∈ calls := by
  induction calls with
  | nil => exact fun wait hwait => Or.inl hwait
  | cons call rest ih =>
    intro w wait hwait
    rcases ih wait hwait with hbefore | hlater
    · rcases List.mem_append.mp hbefore with hold | hnew
      · exact Or.inl hold
      · rw [List.mem_singleton.mp hnew]
        exact Or.inr (List.mem_cons_self ..)
    · exact Or.inr (List.mem_cons_of_mem _ hlater)

/-! ## A caller alone -/

/-- Whoever calls without debt waits no longer than the bytes take. -/
theorem prompt (h : w.pacer.rate = some rate) (call : Call) : Prompt rate w call := by
  intro hdebt time htime
  obtain ⟨earliest, -, hle, hpace⟩ := pace_of_rate call h
  rw [hpace] at htime
  obtain rfl := Option.some.inj htime
  have hwait : max w.pacer.caughtUpAt earliest + timeFor call.bytes rate - call.now ≤
      timeFor call.bytes rate := by
    rw [WithoutDebt] at hdebt
    omega
  exact (Nat.mul_le_mul_left _ hwait).trans (timeFor_mul_le call.bytes rate)

theorem rate_step (call : Call) (h : w.pacer.rate = some rate) :
    (w.step call).pacer.rate = some rate := by
  obtain ⟨earliest, -, -, hpace⟩ := pace_of_rate call h
  rw [World.step, hpace]

/-- Of a caller alone, from `now` on: the time kept is no later than when its last wait
was over. -/
structure Settled (rate : ℕ+) (now : ℕ) (w : World) : Prop where
  paced : w.pacer.rate = some rate
  first : w.waits.getLast? = none → w.pacer.caughtUpAt = now
  last : ∀ last ∈ w.waits.getLast?, ∀ ended ∈ last.ended, w.pacer.caughtUpAt ≤ ended

theorem Settled.step {now : ℕ} (h : Settled rate now w) (call : Call) (hwoken : Woken w call) :
    Settled rate now (w.step call) := by
  obtain ⟨earliest, -, -, hpace⟩ := pace_of_rate call h.paced
  refine ⟨rate_step call h.paced, ?_, ?_⟩
  · intro hnone
    rw [World.step, List.getLast?_concat] at hnone
    cases hnone
  · intro last hlast ended hended
    rw [World.step, List.getLast?_concat] at hlast
    obtain rfl := Option.some.inj hlast
    rw [World.step, hpace]
    rw [Woken, hpace] at hwoken
    exact hwoken _ rfl ended hended

theorem Settled.without_debt {now : ℕ} (h : Settled rate now w) (halone : Alone w call)
    (hlater : now ≤ call.now) : WithoutDebt w call := by
  rw [WithoutDebt]
  rcases hlast : w.waits.getLast? with _ | last
  · rw [h.first hlast]
    exact hlater
  · obtain ⟨ended, hended, hle⟩ := halone last hlast
    exact (h.last last hlast ended hended).trans hle

/-- **The pacer holds its rate**, for any calls of any number of callers, whoever
takes the lock when, as long as no wait ends before its time:

* the bytes of the calls made at or after `s` whose waits have ended by `t` are
  within the rate of the time between and a burst, and of a nanosecond more for each
  of these calls;
* every call without debt waits no longer than its bytes take;
* and a caller alone, each call after the last one's wait has ended, is without debt
  at all of them. -/
theorem pacer_holds_its_rate (rate : ℕ+) (now : ℕ) (calls : List Call)
    (hfits : ∀ call ∈ calls, Fits rate call)
    (hwoken : Along World.step Woken (World.start rate now) calls) :
    (∀ s t, s ≤ t →
      let through := passed s t (exec World.step (World.start rate now) calls).waits
      (through.map fun wait => wait.bytes).sum * 1000000000 ≤
        rate * (t - s + BURST) + rate * through.length) ∧
    Along World.step (Prompt rate) (World.start rate now) calls ∧
    ((∀ call ∈ calls, now ≤ call.now) → Along World.step Alone (World.start rate now) calls →
      Along World.step WithoutDebt (World.start rate now) calls) := by
  refine ⟨fun s t hst => ?_, ?_, fun hlater halone => ?_⟩
  · intro through
    have hstart : Within rate s t (World.start rate now) :=
      ⟨rfl, (by rintro ⟨wait, hwait, -⟩; cases hwait), hst.trans (Nat.le_add_right ..)⟩
    have hwithin : s + timeOf rate through ≤ t + BURST := (Along.invariant (I := Within rate s t)
      (fun w call h hok => h.step call hok) hstart hwoken).through
    have hbytes : (through.map fun wait => wait.bytes).sum * 1000000000 ≤
        rate * timeOf rate through + rate * through.length := by
      refine bytes_le_timeOf fun wait hwait => ?_
      rcases toCall_mem_of_mem_waits calls wait (List.mem_filter.mp hwait).1 with hnone | hcall
      · cases hnone
      · exact hfits _ hcall
    have htime : timeOf rate through ≤ t - s + BURST := by omega
    exact hbytes.trans (Nat.add_le_add_right (Nat.mul_le_mul_left _ htime) _)
  · exact along_of_invariant (I := fun w => w.pacer.rate = some rate)
      (fun w call h => ⟨rate_step call h, prompt h call⟩) calls rfl
  · have hstart : Settled rate now (World.start rate now) :=
      ⟨rfl, fun _ => rfl, by intro last hlast; cases hlast⟩
    exact Along.imp_invariant (I := Settled rate now)
      (fun w call h hok => ⟨h.step call hok.1.1, h.without_debt hok.1.2 hok.2⟩) hstart
      ((hwoken.and halone).and_forall hlater)

/-- One caller after the other, at a thousand bytes a second: both have waited, and both
are through in a quarter of a second. -/
theorem pacer_holds_its_rate_thousand :
    let calls : List Call := [⟨0, 100, some 100000000⟩, ⟨150000000, 100, some 250000000⟩]
    let w := exec World.step (World.start 1000 0) calls
    (∀ s t, s ≤ t → ((passed s t w.waits).map fun wait => wait.bytes).sum * 1000000000 ≤
      (1000 : ℕ+) * (t - s + BURST) + (1000 : ℕ+) * (passed s t w.waits).length) ∧
    ((passed 0 250000000 w.waits).map fun wait => wait.bytes).sum = 200 ∧
    Along World.step WithoutDebt (World.start 1000 0) calls := by
  have hholds := pacer_holds_its_rate 1000 0
    [⟨0, 100, some 100000000⟩, ⟨150000000, 100, some 250000000⟩] (by decide) (by decide)
  exact ⟨hholds.1, by decide, hholds.2.2 (by decide) (by decide)⟩

end Rate

end BytePacer

end Distlib
