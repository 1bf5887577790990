import Distlib.Custody.Pins

/-!
# Pins and fetches

Items enter and leave custody while they are being fetched, results arrive for pins
whose meaning has changed since, and a panic is known by its task alone. A forgotten
transition would leak a slot for ever, or leave an item this node is to keep without
a pin.

The invariant is one equivalence: an item's pin names a task exactly when that task is
in flight for the item (`World.Matched`). Every handler either leaves all fetches
alone (`Undisturbed`) or ends the one whose task was joined (`Frees`). The main result
is `pins_match_fetches`, which adds what a whole reading of custody leaves: a pin on
every item it assigns, and none but a fetch or a release on any other.
-/

namespace Distlib

open Ranking GuardedRun

namespace Pins

namespace World

variable {item other : ItemId} {me : MemberId} {sel : Selection InLine} {world next : World}

/-! ## Pins and fetches -/

/-- From one world to the next no fetch starts or ends. -/
structure Undisturbed (world next : World) : Prop where
  fetches : next.fetches = world.fetches
  nextTask : next.nextTask = world.nextTask
  max : next.pins.maxFetches = world.pins.maxFetches
  tasks : ∀ item, next.pins.taskOf item = world.pins.taskOf item

/-- The fetch of `item` is over, and nothing else happens to any fetch. -/
structure Frees (item : ItemId) (world next : World) : Prop where
  fetches : next.fetches = world.fetches
  nextTask : next.nextTask = world.nextTask
  max : next.pins.maxFetches = world.pins.maxFetches
  freed : next.pins.taskOf item = none
  tasks : ∀ other, other ≠ item → next.pins.taskOf other = world.pins.taskOf other

theorem Undisturbed.refl (world : World) : Undisturbed world world :=
  ⟨rfl, rfl, rfl, fun _ => rfl⟩

theorem Undisturbed.trans {last : World} (h : Undisturbed world next) (h' : Undisturbed next last) :
    Undisturbed world last :=
  ⟨h'.fetches.trans h.fetches, h'.nextTask.trans h.nextTask, h'.max.trans h.max,
    fun item => (h'.tasks item).trans (h.tasks item)⟩

/-- An item that was not being fetched has no fetch to free. -/
theorem Frees.undisturbed (h : Frees item world next) (hnone : world.pins.taskOf item = none) :
    Undisturbed world next := by
  refine ⟨h.fetches, h.nextTask, h.max, fun other => ?_⟩
  by_cases heq : other = item
  · subst heq
    exact h.freed.trans hnone.symm
  · exact h.tasks other heq

theorem frees_releaseIfSafe (look : Look) : Frees item world (world.releaseIfSafe me item look) := by
  obtain ⟨hfetches, htask, hmax⟩ := releaseIfSafe_rest me world item look
  refine ⟨hfetches, htask, hmax, ?_, fun other hne => ?_⟩
  · rw [taskOf]
    rcases pin_releaseIfSafe_self me world item look with h | h
    · rw [pin] at h
      rw [h]
      rfl
    · rw [pin] at h
      rw [h]
      rfl
  · rw [taskOf, taskOf]
    rcases pin_releaseIfSafe_of_ne me world look hne with h | ⟨hold, turn, hnow⟩
    · rw [pin, pin] at h
      rw [h]
    · rw [pin] at hold hnow
      rw [hold, hnow]
      rfl

theorem frees_setPin {pin : Pin} (h : pin.task = none) : Frees item world (world.setPin item pin) := by
  refine ⟨rfl, rfl, rfl, ?_, fun other hne => ?_⟩
  · exact (taskOf_set pin).trans ((if_pos rfl).trans h)
  · exact (taskOf_set pin).trans (if_neg hne)

/-- Pins and fetches agree: an item's pin names a task exactly when that task is in
flight for the item, and there are no more of them than there are slots. -/
structure Matched (maxFetches : ℕ+) (world : World) : Prop where
  max : world.pins.maxFetches = maxFetches
  tasks : ∀ item task, world.pins.taskOf item = some task ↔ world.fetches[task]? = some item
  fresh : ∀ task, task ∈ world.fetches → task < world.nextTask
  room : world.fetches.size ≤ maxFetches

variable {maxFetches : ℕ+}

theorem Matched.undisturbed (h : Matched maxFetches world) (hnext : Undisturbed world next) :
    Matched maxFetches next where
  max := hnext.max.trans h.max
  tasks item task := by rw [hnext.tasks, hnext.fetches, h.tasks]
  fresh task := by rw [hnext.fetches, hnext.nextTask]; exact h.fresh task
  room := by rw [hnext.fetches]; exact h.room

/-- A fetch that ended leaves the set of tasks, and its pin no longer names it. -/
theorem Matched.joined (h : Matched maxFetches world) {task : ℕ}
    (htask : world.fetches[task]? = some item)
    (hnext : Frees item { world with fetches := world.fetches.erase task } next) :
    Matched maxFetches next where
  max := hnext.max.trans h.max
  tasks other task' := by
    rw [hnext.fetches, Std.ExtTreeMap.getElem?_erase]
    by_cases hitem : other = item
    · subst hitem
      rw [hnext.freed]
      by_cases hsame : task' = task
      · simp [hsame]
      · -- the item had one fetch, and it is over
        have hone := h.tasks other task'
        rw [(h.tasks other task).mpr htask] at hone
        rw [if_neg (by simpa using Ne.symm hsame), ← hone]
        simpa using Ne.symm hsame
    · rw [hnext.tasks other hitem, h.tasks]
      by_cases hsame : task' = task
      · subst hsame
        simp [htask, Ne.symm hitem]
      · rw [if_neg (by simpa using Ne.symm hsame)]
  fresh task' hmem := by
    rw [hnext.fetches] at hmem
    rw [hnext.nextTask]
    exact h.fresh task' (Std.ExtTreeMap.mem_of_mem_erase hmem)
  room := by
    rw [hnext.fetches]
    exact Std.ExtTreeMap.size_erase_le.trans h.room

/-- A fetch is started for an item that is not being fetched, in a free slot. -/
theorem Matched.spawn (h : Matched maxFetches world) (hnone : world.pins.taskOf item = none)
    (hslot : world.fetches.size < maxFetches) : Matched maxFetches (world.spawn item) where
  max := h.max
  tasks other task := by
    refine Iff.trans (Eq.congr_left (taskOf_set _)) ?_
    rw [World.spawn, Std.ExtTreeMap.getElem?_insert]
    by_cases hnew : task = world.nextTask
    · -- no pin names the new task yet
      have hfresh : world.fetches[task]? = none := by
        rw [← Option.not_isSome_iff_eq_none, ← Std.ExtTreeMap.mem_iff_isSome_getElem?]
        exact fun hmem => absurd (h.fresh task hmem) (by omega)
      by_cases hitem : other = item
      · simp [hitem, hnew, Pin.task]
      · rw [if_neg hitem, h.tasks, hfresh]
        simp [hnew, Ne.symm hitem]
    · have hold : ¬compare world.nextTask task = .eq := by simpa using Ne.symm hnew
      by_cases hitem : other = item
      · subst hitem
        rw [if_pos rfl, if_neg hold, ← h.tasks, hnone]
        simp [Pin.task, Ne.symm hnew]
      · rw [if_neg hitem, if_neg hold, h.tasks]
  fresh task hmem := by
    rw [World.spawn, Std.ExtTreeMap.mem_insert, Std.LawfulEqCmp.compare_eq_iff_eq] at hmem
    rw [World.spawn]
    rcases hmem with rfl | hold
    · exact Nat.lt_succ_self _
    · exact Nat.lt_succ_of_lt (h.fresh task hold)
  room := by
    rw [World.spawn]
    exact Std.ExtTreeMap.size_insert_le.trans hslot

/-- Fetches are started for as many queued items as there are free slots. -/
theorem Matched.spawns (items : List ItemId) :
    ∀ {world : World}, Matched maxFetches world → items.Nodup →
      (∀ item ∈ items, world.pins.taskOf item = none) →
      items.length ≤ maxFetches - world.fetches.size →
      Matched maxFetches (items.foldl World.spawn world) := by
  induction items with
  | nil => intro world h _ _ _; exact h
  | cons item items ih =>
    intro world h hnodup hnone hslots
    obtain ⟨hnew, hrest⟩ := List.nodup_cons.mp hnodup
    rw [List.length_cons] at hslots
    have hspawned := h.spawn (hnone item List.mem_cons_self) (by omega)
    refine ih hspawned hrest (fun other hmem => ?_) ?_
    · refine (taskOf_set _).trans ?_
      rw [if_neg (fun heq : other = item => hnew (heq ▸ hmem))]
      exact hnone other (List.mem_cons_of_mem _ hmem)
    · have hsize : (world.spawn item).fetches.size ≤ world.fetches.size + 1 :=
        Std.ExtTreeMap.size_insert_le
      omega

theorem Matched.startFetches (h : Matched maxFetches world) (sources : PinSources) :
    Matched maxFetches (world.startFetches me sel sources) := by
  rw [World.startFetches]
  split
  · exact h
  · rw [fewestCopiesFirst]
    split
    · exact h
    · refine h.spawns _ nodup_nextToFetch (fun item hmem => ?_) ?_
      · obtain ⟨turn, hqueued⟩ := queued_of_mem_nextToFetch hmem
        rw [taskOf, hqueued]
        rfl
      · rw [← h.max]
        exact length_nextToFetch_le

/-! ### The handlers -/

theorem undisturbed_lose (look : Look) : Undisturbed world (world.lose me item look) := by
  rw [lose]
  split
  · exact .refl world
  · exact .refl world
  · rename_i pin hfetching hpin
    refine (frees_releaseIfSafe look).undisturbed ?_
    rw [World.pin] at hpin
    rw [taskOf, hpin]
    cases pin with
    | fetching task again changed => exact absurd rfl (hfetching task again changed)
    | _ => rfl

theorem undisturbed_keepAgain (holds : ItemId → Bool) :
    Undisturbed world (keepAgain holds world item) := by
  rcases keepAgain_cases holds world item with h | ⟨h, -⟩
  · rw [h]
    exact ⟨rfl, rfl, rfl, fun _ => taskOf_want⟩
  · rw [h]
    exact .refl world

theorem undisturbed_readCustodyAgain (reading : Reading) :
    Undisturbed world (world.readCustodyAgain me reading) := by
  rw [readCustodyAgain]
  split
  · exact .refl world
  · rename_i mine _
    have hwants : Undisturbed world (mine.foldl (keepAgain reading.holds) world) :=
      exec_invariant (I := Undisturbed world) (fun _ _ h => h.trans (undisturbed_keepAgain _)) mine
        (.refl world)
    exact exec_invariant (I := Undisturbed world) (fun _ _ h => h.trans (undisturbed_lose _))
      (lost _ mine) hwants

/-- However a fetch ends, its item is no longer being fetched. -/
theorem frees_fetched {task : ℕ} (htask : world.pins.taskOf item = some task)
    (kept : Except KeepError Unit) (keeps : Bool) (look : Look) :
    Frees item world (world.fetched me item kept keeps look) := by
  obtain ⟨pin, hpin, hnames⟩ := Option.bind_eq_some_iff.mp htask
  cases pin with
  | fetching task' wantedAgain changed =>
    rw [fetched.eq_def, World.pin, hpin]
    dsimp only
    split
    · exact frees_releaseIfSafe look
    · split
      · exact ⟨rfl, rfl, rfl, (taskOf_set _).trans (if_pos rfl), fun other hne =>
          (taskOf_set _).trans (if_neg hne)⟩
      · refine frees_setPin ?_
        rcases restingPin_cases kept with h | h | h <;> rw [h] <;> rfl
  | _ => cases hnames

/-- A fetch that panics leaves the one pin that names it failed. -/
theorem fetchPanicked_eq {task : ℕ} (htask : world.pins.taskOf item = some task)
    (hone : ∀ other, world.pins.taskOf other = some task → other = item) :
    world.fetchPanicked task = world.setPin item .failed := by
  obtain ⟨pin, hpin, hnames⟩ := Option.bind_eq_some_iff.mp htask
  have hentry := Std.ExtTreeMap.mem_toList_iff_getElem?_eq_some.mpr hpin
  rw [fetchPanicked]
  split
  · rename_i found pin' hfound
    have hmem := List.mem_of_find?_eq_some hfound
    have hget := Std.ExtTreeMap.mem_toList_iff_getElem?_eq_some.mp hmem
    have hfinds : pin'.task = some task := by simpa using List.find?_some hfound
    rw [hone found (by rw [taskOf, hget]; exact hfinds)]
  · rename_i hfound
    exact absurd (List.find?_eq_none.mp hfound (item, pin) hentry) (by simpa using hnames)

theorem frees_fetchPanicked {task : ℕ} (htask : world.pins.taskOf item = some task)
    (hone : ∀ other, world.pins.taskOf other = some task → other = item) :
    Frees item world (world.fetchPanicked task) := by
  rw [fetchPanicked_eq htask hone]
  exact frees_setPin rfl

/-- What is being released is not being fetched. -/
theorem taskOf_of_releasing (h : world.pin item = some .releasing) : world.pins.taskOf item = none := by
  rw [World.pin] at h
  rw [taskOf, h]
  rfl

theorem undisturbed_releases (looks : ItemId → Look) (items : List ItemId) :
    ∀ {world : World}, (∀ item ∈ items, world.pins.taskOf item = none) →
      Undisturbed world (items.foldl (fun world item => world.releaseIfSafe me item (looks item)) world) := by
  induction items with
  | nil => intro world _; exact .refl world
  | cons item items ih =>
    intro world hnone
    have hfirst : Undisturbed world (world.releaseIfSafe me item (looks item)) :=
      (frees_releaseIfSafe (looks item)).undisturbed (hnone item List.mem_cons_self)
    refine hfirst.trans (ih fun other hmem => ?_)
    rw [hfirst.tasks]
    exact hnone other (List.mem_cons_of_mem _ hmem)

theorem undisturbed_availabilityChanged (looks : ItemId → Look) :
    Undisturbed world (world.availabilityChanged me looks) := by
  have hmarked : Undisturbed world { world with pins := world.pins.markAvailability } :=
    ⟨rfl, rfl, maxFetches_revisit _ _, fun _ => taskOf_markAvailability⟩
  refine hmarked.trans (undisturbed_releases looks _ fun item hmem => ?_)
  have hreleasing := (List.mem_filter.mp hmem).2
  exact taskOf_markAvailability.trans (taskOf_of_releasing (by simpa using hreleasing))

/-- Whatever is heard, no fetch starts, and none ends but one that is joined. -/
theorem Matched.heard (h : Matched maxFetches world) (me : MemberId) (event : Event) :
    Undisturbed world (world.handle me event) ∨
      ∃ task item, world.fetches[task]? = some item ∧
        Frees item { world with fetches := world.fetches.erase task } (world.handle me event) := by
  cases event with
  | recomputed reading => exact Or.inl (undisturbed_readCustodyAgain reading)
  | item item mine look =>
    cases mine with
    | true => exact Or.inl ⟨rfl, rfl, rfl, fun _ => taskOf_want⟩
    | false => exact Or.inl (undisturbed_lose look)
  | availabilityChanged => exact Or.inl ⟨rfl, rfl, rfl, fun _ => rfl⟩
  | gathered looks =>
    rw [World.handle]
    split
    · have hcleared : Undisturbed world { world with lookAtAvailability := false } :=
        ⟨rfl, rfl, rfl, fun _ => rfl⟩
      exact Or.inl (hcleared.trans (undisturbed_availabilityChanged looks))
    · exact Or.inl (.refl world)
  | fetched task kept keeps look =>
    rw [World.handle]
    split
    · exact Or.inl (.refl world)
    · rename_i item htask
      have hpin : { world with fetches := world.fetches.erase task }.pins.taskOf item = some task :=
        (h.tasks item task).mpr htask
      exact Or.inr ⟨task, item, htask, frees_fetched hpin kept keeps look⟩
  | panicked task =>
    rw [World.handle]
    split
    · exact Or.inl (.refl world)
    · rename_i item htask
      refine Or.inr ⟨task, item, htask, frees_fetchPanicked ?_ fun other hother => ?_⟩
      · exact (h.tasks item task).mpr htask
      have hback := (h.tasks other task).mp hother
      rw [htask] at hback
      exact (Option.some.inj hback).symm

/-- Whatever is heard, pins and fetches go on agreeing. -/
theorem Matched.handle (h : Matched maxFetches world) (event : Event) :
    Matched maxFetches (world.handle me event) := by
  rcases h.heard me event with hsame | ⟨task, item, htask, hended⟩
  · exact h.undisturbed hsame
  · exact h.joined htask hended

theorem Matched.hear (h : Matched maxFetches world) (event : Event) :
    Matched maxFetches (world.hear me event) := by
  have htold : Matched maxFetches (world.told event) := ⟨h.max, h.tasks, h.fresh, h.room⟩
  exact htold.handle event

theorem Matched.step (h : Matched maxFetches world) (step : Step) :
    Matched maxFetches (world.step me sel step) := by
  cases step with
  | others tagging => exact ⟨h.max, h.tasks, h.fresh, h.room⟩
  | loop sources event => exact (h.startFetches sources).hear event

/-- Before anything is read nothing is fetched. -/
theorem matched_opened (tags : Tags) (maxFetches : ℕ+) : Matched maxFetches (opened tags maxFetches) where
  max := rfl
  tasks item task := by
    have hnone : (opened tags maxFetches).pins.taskOf item = none := by
      rw [taskOf, Option.bind_eq_none_iff]
      intro pin hpin
      obtain ⟨kept, -, heq⟩ := List.mem_map.mp (OrdMap.mem_of_getElem?_ofList hpin)
      rw [← (Prod.mk.inj heq).2]
      rfl
    rw [hnone]
    simp [opened]
  fresh task hmem := absurd hmem Std.ExtTreeMap.not_mem_empty
  room := Nat.zero_le _

/-! ## What a whole reading leaves -/

/-- What a whole reading of custody leaves: every item of it has a pin that is no
release, and any other item's pin is a fetch, to be judged at its end, or a
release. -/
def Assigned (mine : List ItemId) (world : World) : Prop :=
  (∀ item ∈ mine, ∃ pin, world.pin item = some pin ∧ pin ≠ .releasing) ∧
    ∀ item pin, world.pin item = some pin → item ∉ mine →
      pin.task.isSome = true ∨ pin = .releasing

/-- The item is looked after, and is not being let go of. -/
def LookedAfter (world : World) (item : ItemId) : Prop :=
  ∃ pin, world.pin item = some pin ∧ pin ≠ .releasing

/-- The item is gone, or being fetched, or being let go of. -/
def Settled (world : World) (item : ItemId) : Prop :=
  ∀ pin, world.pin item = some pin → pin.task.isSome = true ∨ pin = .releasing

theorem lookedAfter_keepAgain (holds : ItemId → Bool) (world : World) (item : ItemId) :
    (keepAgain holds world item).LookedAfter item := by
  rcases keepAgain_cases holds world item with h | ⟨h, hpin⟩
  · rw [h]
    exact ⟨_, (pin_want world item item).trans (if_pos rfl), wanted_ne_releasing _ _⟩
  · rw [h]
    exact hpin

/-- After the items of a reading are gone through, each is looked after, and no other
pin has changed. -/
theorem keepAgain_all (holds : ItemId → Bool) (mine : List ItemId) :
    ∀ world : World,
      (∀ item, item ∈ mine ∨ world.LookedAfter item →
        (mine.foldl (keepAgain holds) world).LookedAfter item) ∧
      ∀ item, item ∉ mine → (mine.foldl (keepAgain holds) world).pin item = world.pin item := by
  induction mine with
  | nil =>
    intro world
    exact ⟨fun item h => h.resolve_left List.not_mem_nil, fun _ _ => rfl⟩
  | cons first mine ih =>
    intro world
    obtain ⟨hmine, hothers⟩ := ih (keepAgain holds world first)
    constructor
    · intro item h
      refine hmine item ?_
      by_cases heq : item = first
      · subst heq
        exact Or.inr (lookedAfter_keepAgain holds world item)
      · rcases h with hmem | hbefore
        · exact Or.inl ((List.mem_cons.mp hmem).resolve_left heq)
        · rw [LookedAfter, pin_keepAgain_of_ne holds world heq]
          exact Or.inr hbefore
    · intro item hnot
      rw [List.mem_cons, not_or] at hnot
      exact (hothers item hnot.2).trans (pin_keepAgain_of_ne holds world hnot.1)

theorem settled_lose (look : Look) : (world.lose me item look).Settled item := by
  intro pin hpin
  rw [lose] at hpin
  split at hpin
  · rename_i hnone
    rw [hnone] at hpin
    cases hpin
  · rename_i hfetching
    rw [hfetching] at hpin
    exact Or.inl (by rw [← Option.some.inj hpin]; rfl)
  · right
    rcases pin_releaseIfSafe_self me world item look with h | h
    · rw [h] at hpin
      cases hpin
    · rw [h] at hpin
      exact (Option.some.inj hpin).symm

theorem LookedAfter.lose (h : world.LookedAfter other) (look : Look) (hne : other ≠ item) :
    (world.lose me item look).LookedAfter other := by
  rcases pin_lose_of_ne me world look hne with hsame | ⟨-, turn, hqueued⟩
  · rw [LookedAfter, hsame]
    exact h
  · exact ⟨.queued turn, hqueued, by simp⟩

theorem Settled.lose (h : world.Settled other) (look : Look) :
    (world.lose me item look).Settled other := by
  by_cases hne : other = item
  · subst hne
    exact settled_lose look
  · rcases pin_lose_of_ne me world look hne with hsame | ⟨hwaiting, -⟩
    · rw [Settled, hsame]
      exact h
    · -- an item that waits for room is not settled
      rcases h .waitingForRoom hwaiting with hfetching | hreleasing
      · cases hfetching
      · cases hreleasing

theorem lose_all (me : MemberId) (looks : ItemId → Look) (items : List ItemId) :
    ∀ world : World,
      (∀ item, item ∉ items → world.LookedAfter item →
        (items.foldl (fun world item => world.lose me item (looks item)) world).LookedAfter item) ∧
      ∀ item, item ∈ items ∨ world.Settled item →
        (items.foldl (fun world item => world.lose me item (looks item)) world).Settled item := by
  induction items with
  | nil =>
    intro world
    exact ⟨fun _ _ h => h, fun _ h => h.resolve_left List.not_mem_nil⟩
  | cons first items ih =>
    intro world
    obtain ⟨hkept, hlost⟩ := ih (world.lose me first (looks first))
    constructor
    · intro item hnot h
      rw [List.mem_cons, not_or] at hnot
      exact hkept item hnot.2 (h.lose _ hnot.1)
    · intro item h
      refine hlost item ?_
      rcases h with hmem | hsettled
      · rcases List.mem_cons.mp hmem with rfl | hlater
        · exact Or.inr (settled_lose _)
        · exact Or.inl hlater
      · exact Or.inr (hsettled.lose _)

/-- A whole reading of custody is done with when it has been acted on. -/
theorem assigned_readCustodyAgain (world : World) (reading : Reading) {mine : List ItemId}
    (hmine : reading.mine = some mine) : Assigned mine (world.readCustodyAgain me reading) := by
  rw [readCustodyAgain, hmine]
  obtain ⟨hwanted, -⟩ := keepAgain_all reading.holds mine world
  obtain ⟨hkept, hsettled⟩ := lose_all me reading.looks
    (lost (mine.foldl (keepAgain reading.holds) world) mine)
    (mine.foldl (keepAgain reading.holds) world)
  refine ⟨fun item hmem => hkept item ?_ (hwanted item (Or.inl hmem)), fun item pin hpin hnot =>
    hsettled item ?_ pin hpin⟩
  · exact fun hlost => by simpa [hmem] using (List.mem_filter.mp hlost).2
  · by_cases hthere : item ∈ (mine.foldl (keepAgain reading.holds) world).pins.pins
    · exact Or.inl (List.mem_filter.mpr ⟨Std.ExtTreeMap.mem_keys.mpr hthere, by simpa using hnot⟩)
    · right
      intro pin' hpin'
      exact absurd (OrdMap.mem_iff_exists.mpr ⟨pin', hpin'⟩) hthere

/-! ## Every run -/

theorem matched_run (me : MemberId) (sel : Selection InLine) (tags : Tags) (maxFetches : ℕ+)
    (first : Reading) (steps : List Step) :
    Matched maxFetches (exec (step me sel) (started me tags maxFetches first) steps) :=
  exec_invariant (fun _ event h => h.step event) steps ((matched_opened tags maxFetches).hear _)

/-- As many pins are fetching as there are tasks in flight, no more than there are
slots, and no two tasks fetch one item. -/
def InStep (maxFetches : ℕ+) (world : World) : Prop :=
  world.pins.counts.fetching = world.fetches.size ∧ world.fetches.size ≤ maxFetches ∧
    ∀ (item : ItemId) (task task' : ℕ), world.fetches[task]? = some item →
      world.fetches[task']? = some item → task = task'

theorem Matched.inStep (h : Matched maxFetches world) : InStep maxFetches world := by
  refine ⟨?_, h.room, fun item task task' hone hother => ?_⟩
  · rw [counts_fetching]
    exact OrdMap.length_filterMap_eq_size h.tasks
  · have hnames := (h.tasks item task).mpr hone
    rw [(h.tasks item task').mpr hother] at hnames
    exact (Option.some.inj hnames).symm

/-- **Pins and fetches never drift apart.** Whatever is heard, in whatever order,
and however fetches and releases end: before and after fetches are started, the pins
that are fetching are as many as the tasks in flight, at most `max_fetches`, with no
two tasks for one item. And whenever custody is read as a whole once it has been
computed, at the start or later, every item of the reading then has a pin that is no
release, and every other pin is a fetch or a release. -/
theorem pins_match_fetches (me : MemberId) (sel : Selection InLine) (tags : Tags) (maxFetches : ℕ+)
    (first : Reading) (steps : List Step) :
    let start := started me tags maxFetches first
    let world := exec (step me sel) start steps
    InStep maxFetches world ∧
      (∀ sources, InStep maxFetches (world.startFetches me sel sources)) ∧
      (∀ mine, first.mine = some mine → Assigned mine start) ∧
      ∀ sources reading mine, reading.mine = some mine →
        Assigned mine (world.step me sel (.loop sources (.recomputed reading))) := by
  intro start world
  have hmatched : Matched maxFetches world := matched_run me sel tags maxFetches first steps
  refine ⟨hmatched.inStep, fun sources => (hmatched.startFetches sources).inStep,
    fun mine hmine => ?_, fun sources reading mine hmine => ?_⟩
  · exact assigned_readCustodyAgain _ first hmine
  · exact assigned_readCustodyAgain _ reading hmine

end World

end Pins

end Distlib
