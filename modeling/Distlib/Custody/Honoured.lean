import Distlib.Custody.Fetches

/-!
# What happens during a fetch

While an item is fetched it may be wanted again, since it changed, and news of availability
may be looked at, after which a fetch that fails is worth asking again. Both are marked on
its pin and read when the fetch ends; and if the item is no longer this node's by then, that
is the moment to judge its release.

A fetch that panics ends too, but its result is not read: the pin becomes a failed one, with
the marks gone and nothing judged. `honoured_iff` says of every run and of every end of a
fetch in it that what happened meanwhile is honoured, except at such an end. The marks are
what happened: `Noted` is the invariant that they are set exactly when the run has a step
that sets them while the task is in flight.
-/

namespace Distlib

open Ranking GuardedRun

/-- The task that fetches the item, if one does, and what is marked on it. -/
def Pin.flight : Pin → Option (ℕ × Bool × Bool)
  | .fetching task wantedAgain availabilityChanged => some (task, wantedAgain, availabilityChanged)
  | _ => none

theorem Pin.flight_eq_some_iff {pin : Pin} {task : ℕ} {again changed : Bool} :
    pin.flight = some (task, again, changed) ↔ pin = .fetching task again changed := by
  cases pin <;> simp [flight]

/-- Another item wanted, and one being fetched wanted again. -/
theorem Pin.flight_wanted (pin : Option Pin) (turn : ℕ) :
    (wanted pin turn).flight = (pin.bind Pin.flight).map fun flight => (flight.1, true, flight.2.2) := by
  rcases pin with _ | pin
  · rfl
  · cases pin <;> rfl

namespace Pins

/-- The event brings that an item is this node's, and changed. -/
def Event.wants (event : Event) (item : ItemId) : Prop := ∃ look, event = .item item true look

namespace World

variable {item other : ItemId} {me : MemberId} {sel : Selection InLine} {world next : World}
  {maxFetches : ℕ+} {task : ℕ}

/-- The fetch of an item, as its pin has it. -/
def flight (world : World) (item : ItemId) : Option (ℕ × Bool × Bool) :=
  (world.pin item).bind Pin.flight

/-! ## What each operation does to a fetch -/

theorem flight_eq_none_of_task (h : world.pins.taskOf item = none) : world.flight item = none := by
  rw [flight, pin]
  rw [taskOf] at h
  rcases hpin : world.pins.pins[item]? with _ | pin
  · rfl
  · rw [hpin] at h
    cases pin with
    | fetching task again changed => cases h
    | _ => rfl

theorem task_of_flight {again changed : Bool} (h : world.flight item = some (task, again, changed)) :
    world.pins.taskOf item = some task := by
  obtain ⟨pin, hpin, hflight⟩ := Option.bind_eq_some_iff.mp h
  rw [Pin.flight_eq_some_iff] at hflight
  rw [World.pin] at hpin
  rw [taskOf, hpin, hflight]
  rfl

theorem flight_setPin (pin : Pin) :
    (world.setPin item pin).flight other = if other = item then pin.flight else world.flight other := by
  rw [flight, pin_setPin]
  split
  · rfl
  · rfl

theorem flight_releaseIfSafe_of_ne (look : Look) (h : other ≠ item) :
    (world.releaseIfSafe me item look).flight other = world.flight other := by
  rw [flight, flight]
  rcases pin_releaseIfSafe_of_ne me world look h with hsame | ⟨hold, turn, hnow⟩
  · rw [hsame]
  · rw [hold, hnow]
    rfl

theorem flight_lose (look : Look) : (world.lose me item look).flight other = world.flight other := by
  rw [lose]
  split
  · rfl
  · rfl
  · rename_i pin hfetching hpin
    by_cases h : other = item
    · obtain rfl := h
      have hnone : world.flight other = none := by
        rw [flight, hpin]
        cases pin with
        | fetching task again changed => exact absurd rfl (hfetching task again changed)
        | _ => rfl
      rw [hnone]
      exact flight_eq_none_of_task (frees_releaseIfSafe look).freed
    · exact flight_releaseIfSafe_of_ne look h

theorem flight_want :
    { world with pins := world.pins.want item }.flight other =
      if other = item then (world.flight item).map fun flight => (flight.1, true, flight.2.2)
      else world.flight other := by
  rw [flight, pin_want]
  split
  · exact Pin.flight_wanted _ _
  · rfl

/-- Nothing that is being fetched needs keeping. -/
theorem flight_keepAgain (holds : ItemId → Bool) :
    (keepAgain holds world item).flight other = world.flight other := by
  rcases hflight : world.flight item with _ | ⟨task, again, changed⟩
  · rcases keepAgain_cases holds world item with heq | ⟨heq, -⟩
    · rw [heq, flight_want, hflight]
      split
      · rename_i hsame
        rw [hsame, hflight]
        rfl
      · rfl
    · rw [heq]
  · obtain ⟨pin, hpin, hmarks⟩ := Option.bind_eq_some_iff.mp hflight
    rw [Pin.flight_eq_some_iff] at hmarks
    have hsame : keepAgain holds world item = world := by simp [keepAgain, hpin, hmarks]
    rw [hsame]

theorem flight_readCustodyAgain (reading : Reading) :
    (world.readCustodyAgain me reading).flight other = world.flight other := by
  rw [readCustodyAgain]
  split
  · rfl
  · rename_i mine _
    have hwants : (mine.foldl (keepAgain reading.holds) world).flight other = world.flight other :=
      exec_invariant (I := fun next : World => next.flight other = world.flight other)
        (fun _ _ h => (flight_keepAgain _).trans h) mine rfl
    exact exec_invariant (I := fun next : World => next.flight other = world.flight other)
      (fun _ _ h => (flight_lose _).trans h) (lost _ mine) hwants

theorem flight_markAvailability :
    { world with pins := world.pins.markAvailability }.flight other =
      (world.flight other).map fun flight => (flight.1, flight.2.1, true) := by
  rw [flight, flight, pin, pin]
  rcases pin_revisit _ world.pins other with ⟨hnone, hnone'⟩ | ⟨pin, turn, hpin, hnow⟩
  · rw [markAvailability, hnone, hnone']
    rfl
  · rw [markAvailability, hnow, hpin]
    cases pin <;> rfl

theorem flight_availabilityChanged (looks : ItemId → Look) :
    (world.availabilityChanged me looks).flight other =
      (world.flight other).map fun flight => (flight.1, flight.2.1, true) := by
  rw [← flight_markAvailability]
  have hreleases : ∀ (items : List ItemId) (world : World),
      (∀ item ∈ items, world.pins.taskOf item = none) →
      (items.foldl (fun world item => world.releaseIfSafe me item (looks item)) world).flight other =
        world.flight other := by
    intro items
    induction items with
    | nil =>
      intro world _
      rfl
    | cons item items ih =>
      intro world hnone
      have hfirst : Undisturbed world (world.releaseIfSafe me item (looks item)) :=
        (frees_releaseIfSafe (looks item)).undisturbed (hnone item List.mem_cons_self)
      rw [List.foldl_cons, ih _ fun next hmem => by
        rw [hfirst.tasks]
        exact hnone next (List.mem_cons_of_mem _ hmem)]
      by_cases h : other = item
      · obtain rfl := h
        rw [flight_eq_none_of_task (frees_releaseIfSafe _).freed,
          flight_eq_none_of_task (hnone other List.mem_cons_self)]
      · exact flight_releaseIfSafe_of_ne _ h
  refine hreleases _ _ fun item hmem => ?_
  have hreleasing := (List.mem_filter.mp hmem).2
  exact taskOf_markAvailability.trans (taskOf_of_releasing (by simpa using hreleasing))

theorem flight_fetched_of_ne (kept : Except KeepError Unit) (keeps : Bool) (look : Look)
    (h : other ≠ item) : (world.fetched me item kept keeps look).flight other = world.flight other := by
  rw [fetched.eq_def]
  split
  · split
    · exact flight_releaseIfSafe_of_ne look h
    · split
      · exact (flight_setPin _).trans (if_neg h)
      · exact (flight_setPin _).trans (if_neg h)
  · rfl

theorem flight_spawn : (world.spawn item).flight other =
    if other = item then some (world.nextTask, false, false) else world.flight other :=
  flight_setPin (.fetching world.nextTask false false)

/-- A fetch that is there once fetches are started was there before, or is new, with nothing
marked on it. -/
theorem flight_startFetches (me : MemberId) (sel : Selection InLine) (world : World)
    (sources : PinSources) :
    world.nextTask ≤ (world.startFetches me sel sources).nextTask ∧
      ∀ item task again changed,
        (world.startFetches me sel sources).flight item = some (task, again, changed) →
          world.flight item = some (task, again, changed) ∨
            world.nextTask ≤ task ∧ again = false ∧ changed = false := by
  rw [startFetches]
  split
  · exact ⟨le_refl _, fun _ _ _ _ h => Or.inl h⟩
  · refine exec_invariant (I := fun next : World => world.nextTask ≤ next.nextTask ∧
      ∀ item task again changed, next.flight item = some (task, again, changed) →
        world.flight item = some (task, again, changed) ∨
          world.nextTask ≤ task ∧ again = false ∧ changed = false) ?_ _
      ⟨le_refl _, fun _ _ _ _ h => Or.inl h⟩
    rintro next spawned ⟨hnext, hflights⟩
    refine ⟨Nat.le_succ_of_le hnext, fun item task again changed h => ?_⟩
    rw [flight_spawn] at h
    split at h
    · obtain ⟨rfl, hmarks⟩ := Prod.mk.inj (Option.some.inj h)
      obtain ⟨rfl, rfl⟩ := Prod.mk.inj hmarks
      exact Or.inr ⟨hnext, rfl, rfl⟩
    · exact hflights item task again changed h

/-! ## What is marked, and when -/

/-- The event is a look at what has been gathered of availability. -/
def looksAt (world : World) (event : Event) : Prop :=
  ∃ looks, event = .gathered looks ∧ world.lookAtAvailability = true

/-- Of other fetches nothing changes when one returns. -/
theorem flight_of_fetched {ended : ℕ} {marks : ℕ × Bool × Bool} {this : ItemId}
    (hpin : world.pins.taskOf this = some ended) (kept : Except KeepError Unit) (keeps : Bool)
    (look : Look) (h : (world.fetched me this kept keeps look).flight item = some marks) :
    world.flight item = some marks := by
  have hne : item ≠ this := by
    rintro rfl
    rw [flight_eq_none_of_task (frees_fetched hpin kept keeps look).freed] at h
    cases h
  rwa [flight_fetched_of_ne kept keeps look hne] at h

/-- Nor when one panics. -/
theorem flight_of_fetchPanicked {ended : ℕ} {marks : ℕ × Bool × Bool}
    (h : (world.fetchPanicked ended).flight item = some marks) :
    world.flight item = some marks := by
  rw [fetchPanicked] at h
  split at h
  · rw [flight_setPin] at h
    split at h
    · cases h
    · exact h
  · exact h

/-- **The marks on a fetch** that goes on are those it had, and what the event brings. -/
theorem flight_handle (hmatched : Matched maxFetches world) (event : Event) {again' changed' : Bool}
    (h : (world.handle me event).flight item = some (task, again', changed')) :
    ∃ again changed, world.flight item = some (task, again, changed) ∧
      (again' = true ↔ again = true ∨ event.wants item) ∧
      (changed' = true ↔ changed = true ∨ world.looksAt event) := by
  -- most events leave the fetch as it is, and bring neither
  have hquiet : world.flight item = some (task, again', changed') → ¬ event.wants item →
      ¬ world.looksAt event → ∃ again changed, world.flight item = some (task, again, changed) ∧
        (again' = true ↔ again = true ∨ event.wants item) ∧
        (changed' = true ↔ changed = true ∨ world.looksAt event) := by
    intro hsame hwants hlooks
    exact ⟨again', changed', hsame, by simp [hwants], by simp [hlooks]⟩
  cases event with
  | recomputed reading =>
    exact hquiet (flight_readCustodyAgain reading ▸ h) (by simp [Event.wants]) (by simp [looksAt])
  | item changed mine look =>
    have hlooks : ¬ world.looksAt (.item changed mine look) := by simp [looksAt]
    cases mine with
    | false => exact hquiet (flight_lose look ▸ h) (by simp [Event.wants]) hlooks
    | true =>
      have hwant : (world.handle me (.item changed true look)).flight item = _ := flight_want
      rw [hwant] at h
      split at h
      · rename_i heq
        obtain rfl := heq
        obtain ⟨⟨task', again, changed⟩, hflight, hmarks⟩ := Option.map_eq_some_iff.mp h
        simp only [Prod.mk.injEq] at hmarks
        obtain ⟨rfl, rfl, rfl⟩ := hmarks
        refine ⟨again, changed, hflight, ?_, by simp [hlooks]⟩
        exact iff_of_true rfl (Or.inr ⟨look, rfl⟩)
      · rename_i hne
        exact hquiet h (by simp [Event.wants, Ne.symm hne]) hlooks
  | availabilityChanged => exact hquiet h (by simp [Event.wants]) (by simp [looksAt])
  | gathered looks =>
    have hwants : ¬ (Event.gathered looks).wants item := by simp [Event.wants]
    rw [handle] at h
    split at h
    · rename_i hlook
      rw [flight_availabilityChanged] at h
      obtain ⟨⟨task', again, changed⟩, hflight, hmarks⟩ := Option.map_eq_some_iff.mp h
      simp only [Prod.mk.injEq] at hmarks
      obtain ⟨rfl, rfl, rfl⟩ := hmarks
      refine ⟨again, changed, hflight, by simp [hwants], ?_⟩
      exact iff_of_true rfl (Or.inr ⟨looks, rfl, hlook⟩)
    · rename_i hlook
      exact hquiet h hwants (by simp [looksAt, hlook])
  | fetched ended kept keeps look =>
    have hwants : ¬ (Event.fetched ended kept keeps look).wants item := by simp [Event.wants]
    have hlooks : ¬ world.looksAt (.fetched ended kept keeps look) := by simp [looksAt]
    rw [handle] at h
    split at h
    · exact hquiet h hwants hlooks
    · rename_i fetched hfetched
      have hpin : { world with fetches := world.fetches.erase ended }.pins.taskOf fetched =
          some ended := (hmatched.tasks fetched ended).mpr hfetched
      have hsame := flight_of_fetched hpin kept keeps look h
      exact hquiet hsame hwants hlooks
  | panicked ended =>
    have hwants : ¬ (Event.panicked ended).wants item := by simp [Event.wants]
    have hlooks : ¬ world.looksAt (.panicked ended) := by simp [looksAt]
    rw [handle] at h
    split at h
    · exact hquiet h hwants hlooks
    · have hsame := flight_of_fetchPanicked h
      exact hquiet hsame hwants hlooks

/-! ## A run, and the ends of its fetches -/

/-- A step brings that `item` changed, while `task` fetches it. -/
def WantedIn (me : MemberId) (sel : Selection InLine) (item : ItemId) (task : ℕ) (world : World)
    (step : Step) : Prop :=
  ∃ sources event, step = .loop sources event ∧ event.wants item ∧
    (world.startFetches me sel sources).fetches[task]? = some item

/-- A step looks at availability, while `task` fetches `item`. -/
def LookedIn (me : MemberId) (sel : Selection InLine) (item : ItemId) (task : ℕ) (world : World)
    (step : Step) : Prop :=
  ∃ sources event, step = .loop sources event ∧
    (world.startFetches me sel sources).looksAt event ∧
    (world.startFetches me sel sources).fetches[task]? = some item

theorem wantedIn_loop {sources : PinSources} {event : Event} :
    WantedIn me sel item task world (.loop sources event) ↔
      event.wants item ∧ (world.startFetches me sel sources).fetches[task]? = some item := by
  constructor
  · rintro ⟨_, _, heq, hmet⟩
    obtain ⟨rfl, rfl⟩ := Step.loop.inj heq
    exact hmet
  · intro hmet
    exact ⟨sources, event, rfl, hmet⟩

theorem lookedIn_loop {sources : PinSources} {event : Event} :
    LookedIn me sel item task world (.loop sources event) ↔
      (world.startFetches me sel sources).looksAt event ∧
        (world.startFetches me sel sources).fetches[task]? = some item := by
  constructor
  · rintro ⟨_, _, heq, hmet⟩
    obtain ⟨rfl, rfl⟩ := Step.loop.inj heq
    exact hmet
  · intro hmet
    exact ⟨sources, event, rfl, hmet⟩

/-- After the steps of a run, what is marked on a fetch is what happened while it was in
flight. -/
structure Noted (me : MemberId) (sel : Selection InLine) (start : World) (steps : List Step)
    (world : World) : Prop where
  again : ∀ item task again changed, world.flight item = some (task, again, changed) →
    (again = true ↔ Meets (step me sel) (WantedIn me sel item task) start steps)
  changed : ∀ item task again changed, world.flight item = some (task, again, changed) →
    (changed = true ↔ Meets (step me sel) (LookedIn me sel item task) start steps)
  wanted : ∀ item task, Meets (step me sel) (WantedIn me sel item task) start steps →
    task < world.nextTask
  looked : ∀ item task, Meets (step me sel) (LookedIn me sel item task) start steps →
    task < world.nextTask

variable {start : World} {steps : List Step}

theorem Noted.startFetches (h : Noted me sel start steps world) (sources : PinSources) :
    Noted me sel start steps (world.startFetches me sel sources) := by
  obtain ⟨hnext, hflights⟩ := flight_startFetches me sel world sources
  refine ⟨fun item task again changed hflight => ?_, fun item task again changed hflight => ?_,
    fun item task hmet => (h.wanted item task hmet).trans_le hnext,
    fun item task hmet => (h.looked item task hmet).trans_le hnext⟩
  · rcases hflights item task again changed hflight with hold | ⟨hnew, rfl, -⟩
    · exact h.again item task again changed hold
    · exact iff_of_false Bool.false_ne_true fun hmet =>
        absurd (h.wanted item task hmet) (not_lt.mpr hnew)
  · rcases hflights item task again changed hflight with hold | ⟨hnew, -, rfl⟩
    · exact h.changed item task again changed hold
    · exact iff_of_false Bool.false_ne_true fun hmet =>
        absurd (h.looked item task hmet) (not_lt.mpr hnew)

theorem nextTask_handle (hmatched : Matched maxFetches world) (event : Event) :
    (world.handle me event).nextTask = world.nextTask := by
  rcases hmatched.heard me event with hsame | ⟨task, item, -, hended⟩
  · exact hsame.nextTask
  · exact hended.nextTask

/-- One step more. -/
theorem Noted.step (h : Noted me sel start steps (exec (step me sel) start steps))
    (hmatched : Matched maxFetches (exec (step me sel) start steps)) (last : Step) :
    Noted me sel start (steps ++ [last]) (exec (World.step me sel) start (steps ++ [last])) := by
  rw [exec_append]
  change Noted me sel start (steps ++ [last])
    ((exec (World.step me sel) start steps).step me sel last)
  cases last with
  | others tagging =>
    refine ⟨fun item task again changed hflight => ?_, fun item task again changed hflight => ?_,
      fun item task hmet => ?_, fun item task hmet => ?_⟩
    · rw [meets_concat, h.again item task again changed hflight]
      exact (or_iff_left fun ⟨_, _, heq, _⟩ => by cases heq).symm
    · rw [meets_concat, h.changed item task again changed hflight]
      exact (or_iff_left fun ⟨_, _, heq, _⟩ => by cases heq).symm
    · rcases meets_concat.mp hmet with hold | ⟨_, _, heq, -⟩
      · exact h.wanted item task hold
      · cases heq
    · rcases meets_concat.mp hmet with hold | ⟨_, _, heq, -⟩
      · exact h.looked item task hold
      · cases heq
  | loop sources event =>
    have hnoted := h.startFetches sources
    have hstarted : Matched maxFetches
        ((exec (World.step me sel) start steps).startFetches me sel sources) :=
      hmatched.startFetches sources
    have htold : Matched maxFetches
        (((exec (World.step me sel) start steps).startFetches me sel sources).told event) :=
      ⟨hstarted.max, hstarted.tasks, hstarted.fresh, hstarted.room⟩
    have hnext : ((exec (World.step me sel) start steps).step me sel (.loop sources event)).nextTask =
        ((exec (World.step me sel) start steps).startFetches me sel sources).nextTask :=
      nextTask_handle htold event
    have hfresh : ∀ {item task},
        ((exec (World.step me sel) start steps).startFetches me sel sources).fetches[task]? =
          some item → task < ((exec (World.step me sel) start steps).step me sel
            (.loop sources event)).nextTask := by
      intro item task hin
      rw [hnext]
      exact hstarted.fresh task (OrdMap.mem_iff_exists.mpr ⟨item, hin⟩)
    refine ⟨fun item task again' changed' hflight => ?_, fun item task again' changed' hflight => ?_,
      fun item task hmet => ?_, fun item task hmet => ?_⟩
    · obtain ⟨again, changed, hbefore, hagain, -⟩ := flight_handle htold event hflight
      have hin := (hstarted.tasks item task).mp (task_of_flight hbefore)
      rw [meets_concat, wantedIn_loop, hagain, hnoted.again item task again changed hbefore,
        and_iff_left hin]
    · obtain ⟨again, changed, hbefore, -, hchanged⟩ := flight_handle htold event hflight
      have hin := (hstarted.tasks item task).mp (task_of_flight hbefore)
      rw [meets_concat, lookedIn_loop, hchanged, hnoted.changed item task again changed hbefore,
        and_iff_left hin]
      rfl
    · rcases meets_concat.mp hmet with hold | hnew
      · rw [hnext]
        exact hnoted.wanted item task hold
      · exact hfresh (wantedIn_loop.mp hnew).2
    · rcases meets_concat.mp hmet with hold | hnew
      · rw [hnext]
        exact hnoted.looked item task hold
      · exact hfresh (lookedIn_loop.mp hnew).2

theorem noted_run (me : MemberId) (sel : Selection InLine) (tags : Tags) (maxFetches : ℕ+)
    (first : Reading) (steps : List Step) :
    Noted me sel (started me tags maxFetches first) steps
      (exec (step me sel) (started me tags maxFetches first) steps) := by
  induction steps using List.reverseRecOn with
  | nil =>
    have hnone : ∀ item, (started me tags maxFetches first).flight item = none := by
      intro item
      refine flight_eq_none_of_task ?_
      have hquiet : Undisturbed ((opened tags maxFetches).told (.recomputed first))
          (started me tags maxFetches first) := undisturbed_readCustodyAgain first
      rw [hquiet.tasks]
      rcases htask : ((opened tags maxFetches).told (.recomputed first)).pins.taskOf item with _ | task
      · rfl
      · have hin := ((matched_opened tags maxFetches).tasks item task).mp htask
        simp [opened] at hin
    refine ⟨fun item task again changed hflight => ?_, fun item task again changed hflight => ?_,
      fun item task hmet => absurd hmet not_meets_nil,
      fun item task hmet => absurd hmet not_meets_nil⟩
    · rw [exec_nil, hnone] at hflight
      cases hflight
    · rw [exec_nil, hnone] at hflight
      cases hflight
  | append_singleton steps last ih =>
    exact ih.step (matched_run me sel tags maxFetches first steps) last

/-- How a fetch ends: with a result, or in a panic. -/
inductive Ending : Type where
  | returned (kept : Except KeepError Unit)
  | panicked

/-- What the manager hears of it. `keeps` says whether the item is still this node's, and
`look` what a judgement of it would read. -/
def Ending.event (ending : Ending) (task : ℕ) (keeps : Bool) (look : Look) : Event :=
  match ending with
  | .returned kept => .fetched task kept keeps look
  | .panicked => .panicked task

/-- A failure other than lack of room. -/
def Ending.fails : Ending → Bool
  | .returned (.ok ()) | .returned (.error (.noRoom _)) => false
  | .returned (.error _) | .panicked => true

/-- **What happened while `task` fetched `item` is honoured** when the fetch ends. `world` is
the manager as it waits for the end, after `steps` of a run from `start`. -/
structure Honoured (me : MemberId) (sel : Selection InLine) (start : World) (steps : List Step)
    (world : World) (task : ℕ) (item : ItemId) (ending : Ending) (keeps : Bool) (look : Look) :
    Prop where
  /-- wanted again and still this node's: queued again -/
  wanted : keeps = true → Meets (step me sel) (WantedIn me sel item task) start steps →
    ∃ turn, (world.hear me (ending.event task keeps look)).pin item = some (.queued turn)
  /-- availability was looked at and the fetch failed: queued again -/
  looked : keeps = true → ending.fails = true →
    Meets (step me sel) (LookedIn me sel item task) start steps →
      ∃ turn, (world.hear me (ending.event task keeps look)).pin item = some (.queued turn)
  /-- lost: its release is judged -/
  lost : keeps = false → world.hear me (ending.event task keeps look) =
    { world.told (ending.event task keeps look) with
      fetches := world.fetches.erase task }.releaseIfSafe me item look

theorem pin_queue (world : World) (item : ItemId) :
    { world with pins := world.pins.queue item }.pin item = some (.queued world.pins.nextTurn) := by
  simp [pin, Pins.queue]

/-- A fetch that returns is judged on what is marked. -/
theorem fetched_of_flight {again changed : Bool} (me : MemberId)
    (hflight : world.flight item = some (task, again, changed)) (kept : Except KeepError Unit)
    (keeps : Bool) (look : Look) :
    (keeps = false → world.fetched me item kept keeps look = world.releaseIfSafe me item look) ∧
      (keeps = true → fetchAgain kept again changed = true →
        ∃ turn, (world.fetched me item kept keeps look).pin item = some (.queued turn)) := by
  obtain ⟨pin, hpin, hmarks⟩ := Option.bind_eq_some_iff.mp hflight
  rw [Pin.flight_eq_some_iff] at hmarks
  subst hmarks
  constructor
  · rintro rfl
    rw [fetched.eq_def, hpin]
    rfl
  · rintro rfl hagain
    refine ⟨world.pins.nextTurn, ?_⟩
    rw [fetched.eq_def, hpin]
    dsimp only
    rw [if_neg (by simp), if_pos hagain]
    exact pin_queue world item

variable {again changed keeps : Bool} {look : Look}

/-- A fetch that is in flight has marks on its pin. -/
theorem exists_flight (htask : world.pins.taskOf item = some task) :
    ∃ again changed, world.flight item = some (task, again, changed) := by
  obtain ⟨pin, hpin, hnames⟩ := Option.bind_eq_some_iff.mp htask
  cases pin with
  | fetching task' again changed =>
    obtain rfl := Option.some.inj hnames
    refine ⟨again, changed, ?_⟩
    rw [flight, World.pin, hpin]
    rfl
  | _ => cases hnames

/-- An end that returns is honoured. -/
theorem honoured_returned (hin : world.fetches[task]? = some item)
    (hflight : world.flight item = some (task, again, changed))
    (hagain : again = true ↔ Meets (step me sel) (WantedIn me sel item task) start steps)
    (hchanged : changed = true ↔ Meets (step me sel) (LookedIn me sel item task) start steps)
    (kept : Except KeepError Unit) :
    Honoured me sel start steps world task item (.returned kept) keeps look := by
  have hheard : world.hear me (.fetched task kept keeps look) =
      { world.told (.fetched task kept keeps look) with
        fetches := world.fetches.erase task }.fetched me item kept keeps look := by
    rw [hear, handle]
    have hstill : (world.told (.fetched task kept keeps look)).fetches[task]? = some item := hin
    rw [hstill]
    rfl
  have hafter : World.flight { world.told (.fetched task kept keeps look) with
      fetches := world.fetches.erase task } item = some (task, again, changed) := hflight
  have hended := fun keeps => fetched_of_flight me hafter kept keeps look
  refine ⟨fun hkeeps hmet => ?_, fun hkeeps hfails hmet => ?_, fun hkeeps => ?_⟩
  · rw [Ending.event, hheard]
    refine (hended keeps).2 hkeeps ?_
    rw [hagain.mpr hmet]
    rcases kept with error | _
    · cases error <;> rfl
    · rfl
  · rw [Ending.event, hheard]
    refine (hended keeps).2 hkeeps ?_
    rw [hchanged.mpr hmet]
    rcases kept with error | _
    · cases error with
      | noRoom shortBy => cases hfails
      | _ => exact Bool.or_true again
    · cases hfails
  · rw [Ending.event, hheard]
    exact (hended keeps).1 hkeeps

/-- A fetch that panics leaves a failed pin. -/
theorem pin_panicked (hmatched : Matched maxFetches world)
    (hin : world.fetches[task]? = some item) :
    (world.hear me (.panicked task)).pin item = some .failed := by
  rw [hear, handle]
  have hstill : (world.told (.panicked task)).fetches[task]? = some item := hin
  have hone : ∀ other, world.pins.taskOf other = some task → other = item := by
    intro other hother
    have hback := (hmatched.tasks other task).mp hother
    rw [hin] at hback
    exact (Option.some.inj hback).symm
  have htask : { world.told (.panicked task) with
      fetches := (world.told (.panicked task)).fetches.erase task }.pins.taskOf item = some task :=
    (hmatched.tasks item task).mpr hin
  rw [hstill]
  dsimp only
  rw [fetchPanicked_eq htask hone, pin_setPin, if_pos rfl]

/-- An end that leaves a failed pin is honoured if there was nothing to honour. -/
theorem honoured_panicked_iff
    (hpin : (world.hear me (.panicked task)).pin item = some .failed) :
    Honoured me sel start steps world task item .panicked keeps look ↔
      keeps = true ∧ ¬Meets (step me sel) (WantedIn me sel item task) start steps ∧
        ¬Meets (step me sel) (LookedIn me sel item task) start steps := by
  have hfailed : ∀ turn, (world.hear me (.panicked task)).pin item ≠ some (.queued turn) := by
    intro turn hqueued
    rw [hpin] at hqueued
    cases hqueued
  constructor
  · rintro ⟨hwanted, hlooked, hlost⟩
    have hkeeps : keeps = true := by
      by_contra hnot
      have hjudged := hlost (Bool.eq_false_of_not_eq_true hnot)
      rw [Ending.event] at hjudged
      rcases pin_releaseIfSafe_self me { world.told (.panicked task) with
        fetches := world.fetches.erase task } item look with hgone | hreleasing
      · rw [← hjudged, hpin] at hgone
        cases hgone
      · rw [← hjudged, hpin] at hreleasing
        cases hreleasing
    refine ⟨hkeeps, fun hmet => ?_, fun hmet => ?_⟩
    · obtain ⟨turn, hqueued⟩ := hwanted hkeeps hmet
      exact hfailed turn hqueued
    · obtain ⟨turn, hqueued⟩ := hlooked hkeeps rfl hmet
      exact hfailed turn hqueued
  · rintro ⟨hkeeps, hwanted, hlooked⟩
    refine ⟨fun _ hmet => absurd hmet hwanted, fun _ _ hmet => absurd hmet hlooked, fun hnot => ?_⟩
    rw [hkeeps] at hnot
    cases hnot

/-- **What happens during a fetch is honoured** whenever the fetch ends, in every run, unless it
ends in a panic: then exactly if the item is still this node's, was not wanted again, and no
news of availability was looked at meanwhile. -/
theorem honoured_iff (me : MemberId) (sel : Selection InLine) (tags : Tags) (maxFetches : ℕ+)
    (first : Reading) (steps : List Step) (sources : PinSources) (task : ℕ) (item : ItemId)
    (ending : Ending) (keeps : Bool) (look : Look)
    (hin : ((exec (step me sel) (started me tags maxFetches first) steps).startFetches me sel
      sources).fetches[task]? = some item) :
    Honoured me sel (started me tags maxFetches first) steps
        ((exec (step me sel) (started me tags maxFetches first) steps).startFetches me sel sources)
        task item ending keeps look ↔
      (ending = .panicked → keeps = true ∧
        ¬Meets (step me sel) (WantedIn me sel item task) (started me tags maxFetches first) steps ∧
        ¬Meets (step me sel) (LookedIn me sel item task) (started me tags maxFetches first) steps) := by
  have hnoted := (noted_run me sel tags maxFetches first steps).startFetches sources
  have hmatched : Matched maxFetches ((exec (step me sel) (started me tags maxFetches first)
      steps).startFetches me sel sources) :=
    (matched_run me sel tags maxFetches first steps).startFetches sources
  obtain ⟨again, changed, hflight⟩ := exists_flight ((hmatched.tasks item task).mpr hin)
  have hagain := hnoted.again item task again changed hflight
  have hchanged := hnoted.changed item task again changed hflight
  cases ending with
  | returned kept =>
    exact iff_of_true (honoured_returned hin hflight hagain hchanged kept) fun h => by cases h
  | panicked =>
    rw [honoured_panicked_iff (pin_panicked hmatched hin)]
    exact ⟨fun hcond _ => hcond, fun hcond => hcond rfl⟩

end World

/-! An item that changes while it is fetched. -/

namespace Changed

/-- This node, alone online. -/
def here : MemberId := ⟨1⟩

def item : ItemId := ⟨1⟩

def sources : PinSources where
  upgradeRequired := false
  holds _ := false
  online := ∅
  holders := ⟨Index.empty, ∅, ∅⟩
  replicas := 1

/-- The item is this node's, and not here yet. -/
def reading : Reading where
  mine := some [item]
  holds _ := false
  looks _ := ⟨sources, default⟩

/-- The node at the start of its loop. -/
def start : World := World.started here ⟨[], List.nodup_nil⟩ ⟨1, Nat.one_pos⟩ reading

/-- The item changes as soon as its fetch has started. -/
def steps : List World.Step := [.loop sources (.item item true ⟨sources, default⟩)]

/-- The manager as it waits for the end of that fetch. -/
def waits : World :=
  (exec (World.step here Selection.sorting) start steps).startFetches here Selection.sorting sources

theorem waits_fetching : waits.fetches[0]? = some item := by decide +kernel

/-- When the fetch succeeds, what happened is honoured: the item is fetched again. -/
theorem changed_and_returned :
    World.Honoured here Selection.sorting start steps waits 0 item (.returned (.ok ())) true
      ⟨sources, default⟩ :=
  (World.honoured_iff here Selection.sorting ⟨[], List.nodup_nil⟩ ⟨1, Nat.one_pos⟩ reading steps
    sources 0 item (.returned (.ok ())) true ⟨sources, default⟩ waits_fetching).mpr
      fun h => by cases h

/-- When it panics, the item is left failed, without its new file. -/
theorem changed_and_panicked :
    (waits.hear here (.panicked 0)).pin item = some .failed ∧
      ¬World.Honoured here Selection.sorting start steps waits 0 item .panicked true
        ⟨sources, default⟩ := by
  have hfailed : (waits.hear here (.panicked 0)).pin item = some .failed := by decide +kernel
  refine ⟨hfailed, fun honoured => ?_⟩
  have hfetching : ((exec (World.step here Selection.sorting) start []).startFetches here
      Selection.sorting sources).fetches[0]? = some item := by decide +kernel
  have hmet : Meets (World.step here Selection.sorting)
      (World.WantedIn here Selection.sorting item 0) start steps :=
    ⟨[], _, [], rfl, World.wantedIn_loop.mpr ⟨⟨_, rfl⟩, hfetching⟩⟩
  obtain ⟨turn, hqueued⟩ := honoured.wanted rfl hmet
  change (waits.hear here (.panicked 0)).pin item = some (.queued turn) at hqueued
  rw [hfailed] at hqueued
  cases hqueued

end Changed

end Pins

end Distlib
