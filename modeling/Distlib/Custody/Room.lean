import Distlib.Custody.Fetches

/-!
# Room let go of

An item that would not fit waits for room, and is asked again when this node lets go of
custody of another, since what is let go of into the cache can be evicted. What a fetch
finds about room it finds at some moment of its task, and reports later. Between the two a
release may complete: it wakes the items that wait, and the item whose fetch is about to
report is not yet one of them.

`World` carries for the record how many releases have completed and when each item was
last found not to fit, counted in them. An item that waits has missed nothing if that is
after the last of them (`Missed`). `room_never_missed_iff` says that this is so after every
step exactly if no report of no room, of an item still this node's, is older than the last
release, unless the item was wanted again meanwhile.

A release has awaits in it, at which a fetch may find no room as well. What it finds then it
finds before the release completes and reports after, as it would have found it just before.
-/

namespace Distlib

open Ranking GuardedRun

namespace Pins

namespace World

variable {item other : ItemId} {me : MemberId} {sel : Selection InLine} {world next last : World}

/-! ## Who waits, and who is asked -/

/-- From one world to the next nobody starts to wait for room, and if anything is let go
of, nobody waits any more. -/
structure Asks (world next : World) : Prop where
  waits : ∀ item, next.pin item = some .waitingForRoom → world.pin item = some .waitingForRoom
  asked : ∀ item, (world.pin item).isSome → next.pin item = none →
    ∀ other, next.pin other ≠ some .waitingForRoom

theorem Asks.refl (world : World) : Asks world world :=
  ⟨fun _ h => h, fun item hsome hnone => by rw [hnone] at hsome; cases hsome⟩

theorem Asks.trans (h : Asks world next) (h' : Asks next last) : Asks world last where
  waits item hwaits := h.waits item (h'.waits item hwaits)
  asked item hsome hnone other hwaits := by
    rcases hnext : next.pin item with _ | pin
    · exact h.asked item hsome hnext other (h'.waits other hwaits)
    · exact h'.asked item (by rw [hnext]; rfl) hnone other hwaits

/-- Nothing is let go of, and no pin becomes one that waits. -/
def Stirs (world next : World) : Prop :=
  ∀ item, next.pin item = world.pin item ∨
    ∃ pin, next.pin item = some pin ∧ pin ≠ .waitingForRoom

theorem Stirs.trans (h : Stirs world next) (h' : Stirs next last) : Stirs world last := by
  intro item
  rcases h' item with hsame | hpin
  · rw [hsame]
    exact h item
  · exact Or.inr hpin

theorem Asks.of_pins (hpins : Stirs world next) : Asks world next where
  waits item hwaits := by
    rcases hpins item with hsame | ⟨pin, hpin, hnot⟩
    · rw [← hsame]
      exact hwaits
    · rw [hpin] at hwaits
      exact absurd (Option.some.inj hwaits) hnot
  asked item hsome hnone := by
    rcases hpins item with hsame | ⟨pin, hpin, -⟩
    · rw [← hsame, hnone] at hsome
      cases hsome
    · rw [hpin] at hnone
      cases hnone

/-- The judgement lets go of the item. -/
def completes (me : MemberId) (world : World) (item : ItemId) (look : Look) : Bool :=
  !(look.upgradeRequired || (look.holds item && !look.enoughCopiesElsewhere me item)) &&
    (Keeper.release item look.awaits world.tags).ok

theorem asks_setPin {pin : Pin} (h : pin ≠ .waitingForRoom) : Asks world (world.setPin item pin) := by
  refine .of_pins fun other => ?_
  rw [pin_setPin]
  split
  · exact Or.inr ⟨pin, rfl, h⟩
  · exact Or.inl rfl

/-- After room is asked for again nobody waits. -/
theorem not_waiting_askAgainForRoom (pins : Pins) (item : ItemId) :
    pins.askAgainForRoom.pins[item]? ≠ some .waitingForRoom := by
  rcases pin_revisit _ pins item with ⟨hnone, -⟩ | ⟨pin, turn, -, hnow⟩
  · rw [askAgainForRoom, hnone]
    exact fun h => by cases h
  · rw [askAgainForRoom, hnow]
    cases pin with
    | waitingForRoom => exact fun h => by cases h
    | queued _ => exact fun h => by cases h
    | fetching _ _ _ => exact fun h => by cases h
    | failed => exact fun h => by cases h
    | kept => exact fun h => by cases h
    | releasing => exact fun h => by cases h

/-- An item has no pin after it is judged exactly when it is let go of. -/
theorem pin_releaseIfSafe_eq_none (look : Look) :
    (world.releaseIfSafe me item look).pin item = none ↔ world.completes me item look = true := by
  rw [releaseIfSafe, completes]
  split
  · rename_i hheld
    rw [pin_setPin, if_pos rfl, hheld]
    exact iff_of_false (fun h => by cases h) (fun h => by cases h)
  · rename_i hsafe
    rw [Bool.eq_false_iff.mpr hsafe]
    dsimp only
    split
    · rename_i hok
      refine iff_of_true ?_ hok
      rcases pin_askAgainForRoom { world.pins with pins := world.pins.pins.erase item } item
        with hsame | ⟨hwaiting, -⟩
      · exact hsame.trans Std.ExtTreeMap.getElem?_erase_self
      · rw [Std.ExtTreeMap.getElem?_erase_self] at hwaiting
        cases hwaiting
    · rename_i hfailed
      rw [pin_setPin, if_pos rfl]
      exact iff_of_false (fun h => by cases h) hfailed

theorem asks_releaseIfSafe (look : Look) : Asks world (world.releaseIfSafe me item look) where
  waits other hwaits := by
    by_cases heq : other = item
    · subst heq
      rcases pin_releaseIfSafe_self me world other look with h | h <;> rw [h] at hwaits <;>
        cases hwaits
    · rcases pin_releaseIfSafe_of_ne me world look heq with hsame | ⟨hwaiting, -⟩
      · rw [← hsame]
        exact hwaits
      · exact hwaiting
  asked other hsome hnone waiting := by
    have heq : other = item := by
      by_contra hne
      rcases pin_releaseIfSafe_of_ne me world look hne with hsame | ⟨-, turn, hqueued⟩
      · rw [← hsame, hnone] at hsome
        cases hsome
      · rw [hqueued] at hnone
        cases hnone
    subst heq
    have hcompletes := (pin_releaseIfSafe_eq_none look).mp hnone
    rw [completes, Bool.and_eq_true] at hcompletes
    rw [releaseIfSafe, if_neg (Bool.eq_false_iff.mp ((Bool.not_eq_true' _).mp hcompletes.1))]
    dsimp only
    rw [if_pos hcompletes.2]
    exact not_waiting_askAgainForRoom _ waiting

/-! ## What one turn of the loop does -/

theorem asks_lose (look : Look) : Asks world (world.lose me item look) := by
  rw [lose]
  split
  · exact .refl world
  · exact .refl world
  · exact asks_releaseIfSafe look

theorem wanted_ne_waitingForRoom (pin : Option Pin) (turn : ℕ) : wanted pin turn ≠ .waitingForRoom := by
  rcases pin with _ | pin
  · simp [wanted]
  · cases pin <;> simp [wanted]

theorem asks_want : Asks world { world with pins := world.pins.want item } := by
  refine .of_pins fun other => ?_
  rw [pin_want]
  split
  · exact Or.inr ⟨_, rfl, wanted_ne_waitingForRoom _ _⟩
  · exact Or.inl rfl

theorem asks_keepAgain (holds : ItemId → Bool) : Asks world (keepAgain holds world item) := by
  rcases keepAgain_cases holds world item with h | ⟨h, -⟩
  · rw [h]
    exact asks_want
  · rw [h]
    exact .refl world

theorem asks_readCustodyAgain (reading : Reading) : Asks world (world.readCustodyAgain me reading) := by
  rw [readCustodyAgain]
  split
  · exact .refl world
  · rename_i mine _
    have hwants : Asks world (mine.foldl (keepAgain reading.holds) world) :=
      exec_invariant (I := Asks world) (fun _ _ h => h.trans (asks_keepAgain _)) mine (.refl world)
    exact exec_invariant (I := Asks world) (fun _ _ h => h.trans (asks_lose _)) (lost _ mine) hwants

theorem asks_availabilityChanged (looks : ItemId → Look) :
    Asks world (world.availabilityChanged me looks) := by
  have hmarked : Asks world { world with pins := world.pins.markAvailability } := by
    refine .of_pins fun item => ?_
    rcases pin_revisit _ world.pins item with ⟨hnone, hnone'⟩ | ⟨pin, turn, hpin, hnow⟩
    · exact Or.inl (hnone.trans hnone'.symm)
    · cases pin with
      | fetching task wantedAgain _ => exact Or.inr ⟨_, hnow, fun h => by cases h⟩
      | failed => exact Or.inr ⟨_, hnow, fun h => by cases h⟩
      | queued _ => exact Or.inl (hnow.trans hpin.symm)
      | waitingForRoom => exact Or.inl (hnow.trans hpin.symm)
      | kept => exact Or.inl (hnow.trans hpin.symm)
      | releasing => exact Or.inl (hnow.trans hpin.symm)
  exact exec_invariant (I := Asks world) (fun _ _ h => h.trans (asks_releaseIfSafe _)) _ hmarked

theorem asks_fetchPanicked (task : ℕ) : Asks world (world.fetchPanicked task) := by
  rw [fetchPanicked]
  split
  · exact asks_setPin fun h => by cases h
  · exact .refl world

theorem stirs_spawn : Stirs world (world.spawn item) := by
  intro other
  by_cases heq : other = item
  · subst heq
    exact Or.inr ⟨_, Std.ExtTreeMap.getElem?_insert_self, fun h => by cases h⟩
  · left
    rw [pin, spawn, Pins.set, Std.ExtTreeMap.getElem?_insert, if_neg (by simpa using Ne.symm heq), pin]

theorem stirs_startFetches (sources : PinSources) :
    Stirs world (world.startFetches me sel sources) := by
  rw [startFetches]
  split
  · exact fun _ => Or.inl rfl
  · exact exec_invariant (I := Stirs world) (fun _ _ h => h.trans stirs_spawn) _ fun _ => Or.inl rfl

/-- The report of a fetch says that there was no room. -/
def noRoom : Except KeepError Unit → Bool
  | .error (.noRoom _) => true
  | _ => false

/-- Only a report of no room, of an item still this node's, makes an item wait. -/
theorem asks_fetched {kept : Except KeepError Unit} {keeps : Bool} (look : Look)
    (h : (noRoom kept && keeps) = false) : Asks world (world.fetched me item kept keeps look) := by
  rw [fetched.eq_def]
  split
  · rename_i task wantedAgain changed hpin
    cases keeps with
    | false => exact asks_releaseIfSafe look
    | true =>
      rw [Bool.and_true] at h
      rw [if_neg (by simp)]
      split
      · refine .of_pins fun other => ?_
        by_cases heq : other = item
        · subst heq
          exact Or.inr ⟨_, Std.ExtTreeMap.getElem?_insert_self, fun h => by cases h⟩
        · left
          rw [pin, queue, Std.ExtTreeMap.getElem?_insert, if_neg (by simpa using Ne.symm heq), pin]
      · refine asks_setPin ?_
        rcases restingPin_cases kept with hrests | hrests | hrests
        · rw [hrests]
          exact fun heq => by cases heq
        · -- only a report of no room leaves an item waiting
          rw [restingPin.eq_def] at hrests
          split at hrests
          · cases hrests
          · cases h
          · cases hrests
        · rw [hrests]
          exact fun heq => by cases heq
  · exact .refl world

/-- A report of no room queues an item that was wanted meanwhile, leaves any other waiting,
and does nothing to the rest. -/
theorem pin_hear_noRoom {shortBy task : ℕ} {wantedAgain changed : Bool} (look : Look)
    (htask : world.fetches[task]? = some item)
    (hpin : world.pin item = some (.fetching task wantedAgain changed)) :
    let next := world.hear me (.fetched task (.error (.noRoom shortBy)) true look)
    (∀ other, other ≠ item → next.pin other = world.pin other) ∧
      (if wantedAgain then ∃ turn, next.pin item = some (.queued turn)
        else next.pin item = some .waitingForRoom) := by
  simp only [hear, handle, told, htask]
  rw [pin] at hpin
  simp only [fetched, pin, hpin, Bool.not_true, Bool.false_eq_true, if_false, fetchAgain]
  cases wantedAgain with
  | true =>
    simp only [if_true]
    refine ⟨fun other hne => ?_, _, Std.ExtTreeMap.getElem?_insert_self⟩
    rw [queue, Std.ExtTreeMap.getElem?_insert, if_neg (by simpa using Ne.symm hne)]
  | false =>
    simp only [Bool.false_eq_true, if_false]
    refine ⟨fun other hne => ?_, ?_⟩
    · exact (pin_setPin _ _ _ _).trans (if_neg hne)
    · exact (pin_setPin _ _ _ _).trans (if_pos rfl)

/-- Whatever else is heard, nobody starts to wait. -/
theorem asks_handle {event : Event}
    (h : ∀ task shortBy look, event ≠ .fetched task (.error (.noRoom shortBy)) true look) :
    Asks world (world.handle me event) := by
  cases event with
  | recomputed reading => exact asks_readCustodyAgain reading
  | item item mine look =>
    cases mine with
    | true => exact asks_want
    | false => exact asks_lose look
  | availabilityChanged => exact .of_pins fun _ => Or.inl rfl
  | gathered looks =>
    rw [World.handle]
    split
    · have hcleared : Asks world { world with lookAtAvailability := false } :=
        .of_pins fun _ => Or.inl rfl
      exact hcleared.trans (asks_availabilityChanged looks)
    · exact .refl world
  | fetched task kept keeps look =>
    rw [World.handle]
    split
    · exact .refl world
    · rename_i item htask
      have herased : Asks world { world with fetches := world.fetches.erase task } :=
        .of_pins fun _ => Or.inl rfl
      refine herased.trans (asks_fetched look ?_)
      cases keeps with
      | false => exact Bool.and_false _
      | true =>
        rcases kept with error | ⟨⟩
        · cases error with
          | noRoom shortBy => exact absurd rfl (h task shortBy look)
          | _ => rfl
        · rfl
  | panicked task =>
    rw [World.handle]
    split
    · exact .refl world
    · have herased : Asks world { world with fetches := world.fetches.erase task } :=
        .of_pins fun _ => Or.inl rfl
      exact herased.trans (asks_fetchPanicked task)

/-! ## The fetches in flight -/

/-- A fetch in flight is as it was when others have been started. -/
theorem spawns_in_flight {task : ℕ} (items : List ItemId) :
    ∀ {world : World}, task < world.nextTask →
      let next := items.foldl spawn world
      next.fetches[task]? = world.fetches[task]? ∧ world.nextTask ≤ next.nextTask ∧
        ∀ item, item ∉ items → next.pin item = world.pin item := by
  induction items with
  | nil => intro world _; exact ⟨rfl, le_rfl, fun _ _ => rfl⟩
  | cons first items ih =>
    intro world htask
    obtain ⟨hfetches, hnext, hpin⟩ := @ih (world.spawn first) (Nat.lt_succ_of_lt htask)
    refine ⟨hfetches.trans ?_, (Nat.le_succ _).trans hnext, fun item hnot => ?_⟩
    · rw [spawn, Std.ExtTreeMap.getElem?_insert, if_neg (by simpa using Nat.ne_of_gt htask)]
    · rw [List.mem_cons, not_or] at hnot
      refine (hpin item hnot.2).trans ?_
      rw [pin, spawn, Pins.set, Std.ExtTreeMap.getElem?_insert,
        if_neg (by simpa using Ne.symm hnot.1), pin]

theorem startFetches_in_flight (sources : PinSources) {task : ℕ} (htask : task < world.nextTask) :
    let next := world.startFetches me sel sources
    next.fetches[task]? = world.fetches[task]? ∧ world.nextTask ≤ next.nextTask ∧
      ∀ item, world.pins.taskOf item ≠ none → next.pin item = world.pin item := by
  dsimp only
  rw [startFetches]
  split
  · exact ⟨rfl, le_rfl, fun _ _ => rfl⟩
  · obtain ⟨hfetches, hnext, hpin⟩ := spawns_in_flight _ htask
    refine ⟨hfetches, hnext, fun item hfetching => hpin item fun hmem => hfetching ?_⟩
    rw [fewestCopiesFirst] at hmem
    split at hmem
    · exact absurd hmem List.not_mem_nil
    · obtain ⟨turn, hqueued⟩ := queued_of_mem_nextToFetch hmem
      rw [taskOf, hqueued]
      rfl

variable {maxFetches : ℕ+}

/-- Hearing something starts no fetch. -/
theorem handle_in_flight (h : Matched maxFetches world) (event : Event) :
    (world.handle me event).nextTask = world.nextTask ∧ ∀ (task : ℕ) (item : ItemId),
      (world.handle me event).fetches[task]? = some item → world.fetches[task]? = some item := by
  rcases h.heard me event with hsame | ⟨joined, found, -, hended⟩
  · exact ⟨hsame.nextTask, fun task item htask => hsame.fetches ▸ htask⟩
  · refine ⟨hended.nextTask, fun task item htask => ?_⟩
    rw [hended.fetches, Std.ExtTreeMap.getElem?_erase] at htask
    split at htask
    · cases htask
    · exact htask

/-- Of the tasks there have been, one turn of the loop puts none in flight again. -/
theorem loop_in_flight (h : Matched maxFetches world) (sources : PinSources) (event : Event)
    {task : ℕ} (htask : task < world.nextTask) :
    let next := world.step me sel (.loop sources event)
    task < next.nextTask ∧ ∀ item, next.fetches[task]? = some item → world.fetches[task]? = some item := by
  intro next
  have hstarted : Matched maxFetches (world.startFetches me sel sources) := h.startFetches sources
  have htold : Matched maxFetches ((world.startFetches me sel sources).told event) :=
    ⟨hstarted.max, hstarted.tasks, hstarted.fresh, hstarted.room⟩
  obtain ⟨hnext, hfetches⟩ := @handle_in_flight me _ _ htold event
  refine ⟨?_, fun item hitem => ?_⟩
  · refine lt_of_lt_of_le htask (le_trans ?_ hnext.ge)
    exact (startFetches_in_flight sources htask).2.1
  · have hbefore := hfetches task item hitem
    exact (startFetches_in_flight sources htask).1.symm.trans hbefore

end World

/-! ## When room was found -/

/-- The manager, with a record of when fetches found no room, in releases completed by
then. -/
structure RoomWorld where
  world : World
  /-- the releases completed so far -/
  completed : ℕ
  /-- the fetches that found no room -/
  found : OrdMap ℕ ℕ
  /-- when each item was last found not to fit -/
  foundFor : ItemId → Option ℕ

/-- What happens: a fetch finds no room, which ends its work and is all it will report; or
something else happens to the manager. -/
inductive RoomStep : Type where
  | findsNoRoom (task : ℕ)
  | others (tagging : Tagging)
  | loop (sources : PinSources) (event : Event)

namespace RoomWorld

variable (me : MemberId) (sel : Selection InLine)

/-- A fetch reports that there was no room if it found that, and not otherwise. -/
def reports (room : RoomWorld) : Event → Bool
  | .fetched task kept _ _ => World.noRoom kept == (room.found[task]?).isSome
  | _ => true

/-- How many items were let go of: an item loses its pin only when its release completes. -/
def letGo (world next : World) : ℕ :=
  (world.pins.pins.keys.filter fun item => next.pin item = none).length

def step (room : RoomWorld) : RoomStep → RoomWorld
  | .findsNoRoom task =>
    match room.world.fetches[task]? with
    | none => room
    | some item =>
      if (room.found[task]?).isSome then room
      else
        { room with
          found := room.found.insert task room.completed
          foundFor := Function.update room.foundFor item (some room.completed) }
  | .others tagging => { room with world := room.world.step me sel (.others tagging) }
  | .loop sources event =>
    if room.reports event then
      let world := room.world.step me sel (.loop sources event)
      { room with world, completed := room.completed + letGo room.world world }
    else room

/-- The manager at the start of its loop. -/
def started (tags : Tags) (maxFetches : ℕ+) (reading : Reading) : RoomWorld :=
  ⟨World.started me tags maxFetches reading, 0, ∅, fun _ => none⟩

variable {me sel}

/-- Every item that waits for room was last found not to fit after the last release. -/
def NothingMissed (room : RoomWorld) : Prop :=
  ∀ item, room.world.pin item = some .waitingForRoom → room.foundFor item = some room.completed

/-- The step is a report about `item`, still this node's, that there was no room before the
last release. -/
def StaleReport (room : RoomWorld) (step : RoomStep) (item : ItemId) : Prop :=
  ∃ sources task shortBy look stamp,
    step = .loop sources (.fetched task (.error (.noRoom shortBy)) true look) ∧
      room.world.fetches[task]? = some item ∧ room.found[task]? = some stamp ∧
      stamp < room.completed

/-- After the step nothing has been missed, and what was found not to fit before the last
release, if the step reports that, is queued again. -/
def WakesAll (me : MemberId) (sel : Selection InLine) (room : RoomWorld) (step : RoomStep) : Prop :=
  (room.step me sel step).NothingMissed ∧ ∀ item, room.StaleReport step item →
    ∃ turn, (room.step me sel step).world.pin item = some (.queued turn)

/-- **The condition**: an item that such a report is about was wanted again meanwhile. -/
def WantedMeanwhile (room : RoomWorld) (step : RoomStep) : Prop :=
  ∀ item, room.StaleReport step item →
    ∃ task changed, room.world.pin item = some (.fetching task true changed)

/-- What is known of the record. -/
structure Records (maxFetches : ℕ+) (room : RoomWorld) : Prop where
  matched : World.Matched maxFetches room.world
  fresh : ∀ task, task ∈ room.found → task < room.world.nextTask
  /-- no fetch of the item has found anything since the one in flight -/
  last : ∀ (task : ℕ) (item : ItemId) (stamp : ℕ), room.world.fetches[task]? = some item →
    room.found[task]? = some stamp → room.foundFor item = some stamp
  past : ∀ (task stamp : ℕ), room.found[task]? = some stamp → stamp ≤ room.completed

variable {maxFetches : ℕ+} {room : RoomWorld}

theorem records_started (tags : Tags) (reading : Reading) :
    Records maxFetches (started me tags maxFetches reading) where
  matched := World.Matched.hear (World.matched_opened tags maxFetches) (.recomputed reading)
  fresh task hmem := absurd hmem Std.ExtTreeMap.not_mem_empty
  last task item stamp _ hfound := by cases hfound
  past task stamp hfound := by cases hfound

/-- A fetch in flight names its item's pin. -/
theorem Records.pin_of_fetch (h : Records maxFetches room) {task : ℕ} {item : ItemId}
    (htask : room.world.fetches[task]? = some item) :
    ∃ wantedAgain changed, room.world.pin item = some (.fetching task wantedAgain changed) := by
  obtain ⟨pin, hpin, hnames⟩ := Option.bind_eq_some_iff.mp ((h.matched.tasks item task).mpr htask)
  cases pin with
  | fetching task' wantedAgain changed =>
    obtain rfl := Option.some.inj hnames
    exact ⟨wantedAgain, changed, hpin⟩
  | _ => cases hnames

theorem Records.findsNoRoom (h : Records maxFetches room) {task : ℕ} {item : ItemId}
    (htask : room.world.fetches[task]? = some item) :
    Records maxFetches { room with
      found := room.found.insert task room.completed
      foundFor := Function.update room.foundFor item (some room.completed) } where
  matched := h.matched
  fresh other hmem := by
    rcases Std.ExtTreeMap.mem_insert.mp hmem with hsame | hold
    · obtain rfl := Std.LawfulEqCmp.eq_of_compare hsame
      exact h.matched.fresh task (OrdMap.mem_iff_exists.mpr ⟨item, htask⟩)
    · exact h.fresh other hold
  last other found stamp hother hstamp := by
    by_cases hsame : other = task
    · subst hsame
      obtain rfl := Option.some.inj (htask.symm.trans hother)
      rw [Std.ExtTreeMap.getElem?_insert_self] at hstamp
      exact (Function.update_self _ _ _).trans hstamp
    · have hne : found ≠ item := fun heq =>
        hsame (h.matched.inStep.2.2 item other task (heq ▸ hother) htask)
      rw [Std.ExtTreeMap.getElem?_insert, if_neg (by simpa using Ne.symm hsame)] at hstamp
      exact (Function.update_of_ne hne _ _).trans (h.last other found stamp hother hstamp)
  past other stamp hstamp := by
    rw [Std.ExtTreeMap.getElem?_insert] at hstamp
    split at hstamp
    · obtain rfl := Option.some.inj hstamp
      exact le_rfl
    · exact h.past other stamp hstamp

theorem Records.loop (h : Records maxFetches room) (sources : PinSources) (event : Event)
    (more : ℕ) :
    Records maxFetches { room with
      world := room.world.step me sel (.loop sources event)
      completed := room.completed + more } where
  matched := World.Matched.step h.matched (.loop sources event)
  fresh task hmem := (World.loop_in_flight h.matched sources event (h.fresh task hmem)).1
  last task item stamp htask hstamp := by
    have hfresh := h.fresh task (OrdMap.mem_iff_exists.mpr ⟨stamp, hstamp⟩)
    exact h.last task item stamp
      ((World.loop_in_flight h.matched sources event hfresh).2 item htask) hstamp
  past task stamp hstamp := (h.past task stamp hstamp).trans (Nat.le_add_right _ _)

theorem Records.step (h : Records maxFetches room) (step : RoomStep) :
    Records maxFetches (room.step me sel step) := by
  cases step with
  | findsNoRoom task =>
    rw [RoomWorld.step]
    split
    · exact h
    · rename_i item htask
      split
      · exact h
      · exact h.findsNoRoom htask
  | others tagging =>
    exact ⟨@World.Matched.step me sel _ _ h.matched (.others tagging), h.fresh, h.last, h.past⟩
  | loop sources event =>
    rw [RoomWorld.step]
    split
    · exact h.loop sources event _
    · exact h

/-! ## One step -/

/-- A step that makes nobody wait, and lets go of nothing without asking, misses nothing. -/
theorem NothingMissed.asks (h : room.NothingMissed) {next : World} (hasks : World.Asks room.world next) :
    NothingMissed { room with world := next, completed := room.completed + letGo room.world next } := by
  intro item hwaits
  have hnone : letGo room.world next = 0 := by
    rw [letGo, List.length_eq_zero_iff, List.filter_eq_nil_iff]
    intro other hmem hgone
    obtain ⟨pin, hpin⟩ := OrdMap.mem_iff_exists.mp (Std.ExtTreeMap.mem_keys.mp hmem)
    exact hasks.asked other (by rw [World.pin, hpin]; rfl) (of_decide_eq_true hgone) item hwaits
  rw [hnone]
  exact h item (hasks.waits item hwaits)

/-- A turn of the loop that hears of no fetch without room makes nobody wait. -/
theorem asks_loop (h : Records maxFetches room) (sources : PinSources) {event : Event}
    (hreports : room.reports event = true)
    (hnone : ∀ task shortBy look, event = .fetched task (.error (.noRoom shortBy)) true look →
      room.world.fetches[task]? = none) :
    World.Asks room.world (room.world.step me sel (.loop sources event)) := by
  have hstarted : World.Stirs room.world (room.world.startFetches me sel sources) :=
    World.stirs_startFetches sources
  have htold : World.Asks room.world ((room.world.startFetches me sel sources).told event) :=
    .of_pins (hstarted.trans fun _ => Or.inl rfl)
  refine htold.trans ?_
  by_cases hreport : ∃ task shortBy look, event = .fetched task (.error (.noRoom shortBy)) true look
  · obtain ⟨task, shortBy, look, rfl⟩ := hreport
    have hfound : task ∈ room.found := by
      rw [Std.ExtTreeMap.mem_iff_isSome_getElem?]
      exact (eq_of_beq hreports).symm
    have hgone : (room.world.startFetches me sel sources).fetches[task]? = none :=
      (World.startFetches_in_flight sources (h.fresh task hfound)).1.trans
        (hnone task shortBy look rfl)
    have hsame : ((room.world.startFetches me sel sources).told
        (.fetched task (.error (.noRoom shortBy)) true look)).handle me
          (.fetched task (.error (.noRoom shortBy)) true look) =
        (room.world.startFetches me sel sources).told
          (.fetched task (.error (.noRoom shortBy)) true look) := by
      simp only [World.handle, World.told, hgone]
    exact hsame ▸ .refl _
  · exact World.asks_handle fun task shortBy look heq => hreport ⟨task, shortBy, look, heq⟩

/-- A report of no room lets go of nothing, and decides its own item. -/
theorem noRoom_reported (h : Records maxFetches room) (sources : PinSources) {task shortBy stamp : ℕ}
    {item : ItemId} (look : Look) (htask : room.world.fetches[task]? = some item)
    (hstamp : room.found[task]? = some stamp) {wantedAgain changed : Bool}
    (hpin : room.world.pin item = some (.fetching task wantedAgain changed)) :
    let next := room.world.step me sel (.loop sources (.fetched task (.error (.noRoom shortBy)) true look))
    letGo room.world next = 0 ∧
      (∀ other, other ≠ item → next.pin other = some .waitingForRoom →
        room.world.pin other = some .waitingForRoom) ∧
      (if wantedAgain then ∃ turn, next.pin item = some (.queued turn)
        else next.pin item = some .waitingForRoom) := by
  intro next
  have hfresh := h.fresh task (OrdMap.mem_iff_exists.mpr ⟨stamp, hstamp⟩)
  obtain ⟨hfetch, -, hkept⟩ := World.startFetches_in_flight sources hfresh
  have hstirs : World.Stirs room.world (room.world.startFetches me sel sources) :=
    World.stirs_startFetches sources
  have hfetching : (room.world.startFetches me sel sources).pin item =
      some (.fetching task wantedAgain changed) := by
    refine (hkept item ?_).trans hpin
    rw [(h.matched.tasks item task).mpr htask]
    exact fun heq => by cases heq
  obtain ⟨hothers, hitem⟩ := @World.pin_hear_noRoom item me (room.world.startFetches me sel sources)
    shortBy task wantedAgain changed look (hfetch.trans htask) hfetching
  refine ⟨?_, fun other hne hwaits => ?_, hitem⟩
  · rw [letGo, List.length_eq_zero_iff, List.filter_eq_nil_iff]
    intro other hmem hgone
    have hnone : next.pin other = none := of_decide_eq_true hgone
    by_cases heq : other = item
    · subst heq
      cases wantedAgain with
      | true =>
        obtain ⟨turn, hqueued⟩ := hitem
        cases hnone.symm.trans hqueued
      | false => cases hnone.symm.trans hitem
    · obtain ⟨pin, hbefore⟩ := OrdMap.mem_iff_exists.mp (Std.ExtTreeMap.mem_keys.mp hmem)
      have hstarted := (hothers other heq).symm.trans hnone
      rcases hstirs other with hsame | ⟨stirred, hstirred, -⟩
      · cases hbefore.symm.trans (hsame.symm.trans hstarted)
      · cases hstirred.symm.trans hstarted
  · have hstarted := (hothers other hne).symm.trans hwaits
    rcases hstirs other with hsame | ⟨stirred, hstirred, hnot⟩
    · exact hsame.symm.trans hstarted
    · exact absurd (Option.some.inj (hstirred.symm.trans hstarted)) hnot

/-- A report of lack of room wakes all exactly if the item was wanted again meanwhile, where its
room came too late. -/
theorem wakesAll_iff_of_report (h : Records maxFetches room) (hnothing : room.NothingMissed)
    {sources : PinSources} {task shortBy : ℕ} {look : Look} {item : ItemId}
    (hreports : room.reports (.fetched task (.error (.noRoom shortBy)) true look) = true)
    (htask : room.world.fetches[task]? = some item) :
    room.WakesAll me sel (.loop sources (.fetched task (.error (.noRoom shortBy)) true look)) ↔
      room.WantedMeanwhile (.loop sources (.fetched task (.error (.noRoom shortBy)) true look)) := by
  have hstep : room.step me sel
      (.loop sources (.fetched task (.error (.noRoom shortBy)) true look)) =
        let world := room.world.step me sel
          (.loop sources (.fetched task (.error (.noRoom shortBy)) true look))
        { room with world, completed := room.completed + letGo room.world world } :=
    if_pos hreports
  obtain ⟨stamp, hstamp⟩ := Option.isSome_iff_exists.mp (eq_of_beq hreports).symm
  obtain ⟨wantedAgain, changed, hpin⟩ := h.pin_of_fetch htask
  obtain ⟨hnone, hothers, hitem⟩ := @noRoom_reported me sel maxFetches room h sources task
    shortBy stamp item look htask hstamp wantedAgain changed hpin
  have hstale : ∀ other, room.StaleReport
      (.loop sources (.fetched task (.error (.noRoom shortBy)) true look)) other ↔
        other = item ∧ stamp < room.completed := by
    intro other
    constructor
    · rintro ⟨_, _, _, _, _, heq, hother, hfound, hlate⟩
      cases heq
      obtain rfl := Option.some.inj (hstamp.symm.trans hfound)
      exact ⟨Option.some.inj (hother.symm.trans htask), hlate⟩
    · rintro ⟨rfl, hlate⟩
      exact ⟨sources, task, shortBy, look, stamp, rfl, htask, hstamp, hlate⟩
  have hlast := h.last task item stamp htask hstamp
  have hpast := h.past task stamp hstamp
  rw [WakesAll, WantedMeanwhile, NothingMissed]
  simp only [hstale, hstep, hnone, Nat.add_zero]
  have hkept : ∀ other, other ≠ item → (room.world.step me sel (.loop sources
      (.fetched task (.error (.noRoom shortBy)) true look))).pin other = some .waitingForRoom →
        room.foundFor other = some room.completed :=
    fun other hne hwaits => hnothing other (hothers other hne hwaits)
  cases wantedAgain with
  | true =>
    obtain ⟨turn, hqueued⟩ := hitem
    refine iff_of_true ⟨fun other hwaits => hkept other ?_ hwaits, ?_⟩ ?_
    · rintro rfl
      cases hwaits.symm.trans hqueued
    · rintro other ⟨rfl, -⟩
      exact ⟨turn, hqueued⟩
    · rintro other ⟨rfl, -⟩
      exact ⟨task, changed, hpin⟩
  | false =>
    by_cases hlate : stamp < room.completed
    · refine iff_of_false (fun hwakes => ?_) fun hwanted => ?_
      · obtain ⟨turn, hqueued⟩ := hwakes.2 item ⟨rfl, hlate⟩
        cases hqueued.symm.trans hitem
      · obtain ⟨task', changed', hagain⟩ := hwanted item ⟨rfl, hlate⟩
        cases hagain.symm.trans hpin
    · obtain rfl : stamp = room.completed := le_antisymm hpast (not_lt.mp hlate)
      refine iff_of_true ⟨fun other hwaits => ?_, ?_⟩ ?_
      · by_cases heq : other = item
        · exact heq ▸ hlast
        · exact hkept other heq hwaits
      · exact fun other hother => absurd hother.2 hlate
      · exact fun other hother => absurd hother.2 hlate

/-- **One step**: of a state in which nothing has been missed, a step wakes all it has to
exactly if every item it reports on late was wanted meanwhile. -/
theorem wakesAll_iff (h : Records maxFetches room) (hnothing : room.NothingMissed) (step : RoomStep) :
    room.WakesAll me sel step ↔ room.WantedMeanwhile step := by
  -- where nothing late is reported, nothing has to be woken
  have hquiet : (∀ item, ¬room.StaleReport step item) → (room.step me sel step).NothingMissed →
      (room.WakesAll me sel step ↔ room.WantedMeanwhile step) := fun hnone hkept =>
    iff_of_true ⟨hkept, fun item hstale => absurd hstale (hnone item)⟩
      fun item hstale => absurd hstale (hnone item)
  cases step with
  | findsNoRoom task =>
    refine hquiet (fun item hstale => ?_) ?_
    · obtain ⟨_, _, _, _, _, heq, -⟩ := hstale
      cases heq
    · rw [RoomWorld.step]
      split
      · exact hnothing
      · rename_i item htask
        split
        · exact hnothing
        · intro other hwaits
          have hne : other ≠ item := by
            rintro rfl
            obtain ⟨wantedAgain, changed, hpin⟩ := h.pin_of_fetch htask
            cases hwaits.symm.trans hpin
          exact (Function.update_of_ne hne _ _).trans (hnothing other hwaits)
  | others tagging =>
    refine hquiet (fun item hstale => ?_) hnothing
    obtain ⟨_, _, _, _, _, heq, -⟩ := hstale
    cases heq
  | loop sources event =>
    by_cases hreports : room.reports event = true
    · have hstep : room.step me sel (.loop sources event) =
          let world := room.world.step me sel (.loop sources event)
          { room with world, completed := room.completed + letGo room.world world } :=
        if_pos hreports
      by_cases hreport : ∃ task shortBy look item,
          event = .fetched task (.error (.noRoom shortBy)) true look ∧
            room.world.fetches[task]? = some item
      · obtain ⟨task, shortBy, look, item, rfl, htask⟩ := hreport
        exact wakesAll_iff_of_report h hnothing hreports htask
      · have hasks : World.Asks room.world (room.world.step me sel (.loop sources event)) := by
          refine asks_loop h sources hreports fun task shortBy look heq => ?_
          rcases htask : room.world.fetches[task]? with _ | item
          · rfl
          · exact absurd ⟨task, shortBy, look, item, heq, htask⟩ hreport
        refine hquiet (fun item hstale => ?_) (hstep ▸ hnothing.asks hasks)
        obtain ⟨_, task, shortBy, look, _, heq, htask, -⟩ := hstale
        cases heq
        exact hreport ⟨task, shortBy, look, item, rfl, htask⟩
    · have hstep : room.step me sel (.loop sources event) = room := if_neg hreports
      refine hquiet (fun item hstale => ?_) (by rw [hstep]; exact hnothing)
      obtain ⟨_, task, shortBy, look, stamp, heq, -, hstamp, -⟩ := hstale
      cases heq
      exact hreports (by rw [reports, hstamp]; rfl)

/-! ## Every run -/

/-- At the start of the loop nothing waits for room. -/
theorem nothingMissed_started (tags : Tags) (maxFetches : ℕ+) (reading : Reading) :
    (started me tags maxFetches reading).NothingMissed := by
  intro item hwaits
  have hopened : ∀ item, (World.opened tags maxFetches).pin item ≠ some .waitingForRoom := by
    intro item hpin
    obtain ⟨kept, -, heq⟩ := List.mem_map.mp (OrdMap.mem_of_getElem?_ofList hpin)
    cases (Prod.mk.inj heq).2
  have hasks : World.Asks (World.opened tags maxFetches)
      (World.started me tags maxFetches reading) := by
    have htold : World.Asks (World.opened tags maxFetches)
        ((World.opened tags maxFetches).told (.recomputed reading)) := .of_pins fun _ => Or.inl rfl
    exact htold.trans (World.asks_readCustodyAgain reading)
  exact absurd (hasks.waits item hwaits) (hopened item)

/-- **Room let go of is missed only by what is reported late**, in every run of the pin
manager and its fetches, whatever is released, assigned, or heard of others in between. After
every step every item that waits for room was last found not to fit after the last release,
and what was found not to fit before it and is reported after it is queued again, exactly if
whatever is reported so late had been wanted again while it was fetched. -/
theorem room_never_missed_iff (me : MemberId) (sel : Selection InLine) (tags : Tags)
    (maxFetches : ℕ+) (first : Reading) (steps : List RoomStep) :
    Along (step me sel) (WakesAll me sel) (started me tags maxFetches first) steps ↔
      Along (step me sel) WantedMeanwhile (started me tags maxFetches first) steps :=
  along_iff (I := Records maxFetches) (P := NothingMissed) (fun _ step h => h.step step)
    (fun _ step h hnothing => wakesAll_iff h hnothing step) (fun _ _ _ hwakes => hwakes.1) steps
    (records_started tags first) (nothingMissed_started tags maxFetches first)

namespace Sample

/-- This node, and the one other member online. -/
def here : MemberId := ⟨1⟩

def neighbour : MemberId := ⟨2⟩

/-- The item that does not fit, and the one that is let go of. -/
def large : ItemId := ⟨1⟩

def lost : ItemId := ⟨2⟩

/-- The neighbour holds what is let go of, which is copy enough. -/
def sources : PinSources where
  upgradeRequired := false
  holds item := item = lost
  online := {neighbour}
  holders := ⟨(Index.empty.add neighbour lost).2,
    (∅ : OrdMap MemberId Stated).insert neighbour (.known none [lost] [] 1), ∅⟩
  replicas := 1

/-- Both items are this node's, and it has one of them. -/
def reading : Reading where
  mine := some [large, lost]
  holds item := item = lost
  looks _ := ⟨sources, default⟩

/-- The one is being fetched, and does not fit, when the other is no longer this node's; and
then the fetch reports. -/
def reportedLate : List RoomStep :=
  [.loop sources .availabilityChanged,
   .findsNoRoom 0,
   .loop sources (.item lost false ⟨sources, default⟩),
   .loop sources (.fetched 0 (.error (.noRoom 5)) true ⟨sources, default⟩)]

theorem lost_nodup : [(⟨.custody, lost, ⟨7⟩⟩ : Tag)].Nodup := List.nodup_singleton _

/-- The node at the start of its loop. -/
def start : RoomWorld :=
  started here ⟨[⟨.custody, lost, ⟨7⟩⟩], lost_nodup⟩ ⟨1, Nat.one_pos⟩ reading

/-- **The item goes on waiting**: it was found not to fit before the other was let go of,
waits since after that, and nothing asks for it again. -/
theorem large_goes_on_waiting :
    ¬Along (step here Selection.sorting) (WakesAll here Selection.sorting) start reportedLate := by
  rintro ⟨-, -, -, ⟨hnothing, -⟩, -⟩
  have hwaits : (exec (step here Selection.sorting) start reportedLate).world.pin large =
      some .waitingForRoom := by decide +kernel
  have hmissed : (exec (step here Selection.sorting) start reportedLate).foundFor large ≠
      some (exec (step here Selection.sorting) start reportedLate).completed := by decide +kernel
  exact hmissed (hnothing large hwaits)

end Sample

end RoomWorld

end Pins

end Distlib
