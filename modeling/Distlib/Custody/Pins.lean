import Distlib.Lib.Ranking
import Distlib.Custody.Keeping
import Distlib.Sync.Holders

/-!
# The pin manager

A node keeps what it is custodian of: each item it looks after has a `Pin`, and at
most `max_fetches` of the items that are not here are fetched at once, each in a
task of its own. One loop does all of it. It starts fetches while there are slots
and then takes one thing in: a custody change, a whole reading of custody, news of
who holds what, the end of a fetch.

What the manager reads meanwhile is not its own and changes as it pleases: custody,
who is online and what they hold, whether an upgrade is waited for, what this node
holds. Every event therefore carries what is read while it is handled, item by
item where there is an await between two items (`Look`). The sources are read
without an await in between, so each decision sees one moment of them.

`World.step` is one round of the loop. This module says what each operation does to
a pin: its own item's, and another's, to which it never does more than ask for room
again.

Where the source walks a hash map, in no order it promises, the model walks it by
key; nothing here depends on that order but the turns of items that join the queue
in one pass.
-/

namespace Distlib

open Ranking GuardedRun

/-- Where one item the pin manager looks after stands. -/
inductive Pin : Type where
  /-- waiting its turn to be fetched -/
  | queued (turn : ℕ)
  /-- being fetched by `task`, and what happened meanwhile -/
  | fetching (task : ℕ) (wantedAgain availabilityChanged : Bool)
  /-- its fetch failed: asked again when availability changes -/
  | failed
  /-- it would not fit within the storage limit -/
  | waitingForRoom
  /-- tagged, and every file here -/
  | kept
  /-- no longer this node's: kept until enough copies are elsewhere -/
  | releasing
  deriving DecidableEq

/-- Why an item could not be kept. -/
inductive KeepError : Type where
  | store
  | blobs
  | holdings
  | storage
  | stalled
  | noRoom (shortBy : ℕ)
  deriving DecidableEq

/-- The task that fetches the item, if one does. -/
def Pin.task : Pin → Option ℕ
  | .fetching task _ _ => some task
  | _ => none

/-- Whether the item waits its turn. -/
def Pin.isQueued : Pin → Bool
  | .queued _ => true
  | _ => false

/-! ## Who goes next -/

/-- A queued item's place: the fewer live copies the sooner, and among as many the
earliest turn. -/
structure InLine where
  copies : ℕ
  turn : ℕ
  item : ItemId
  deriving DecidableEq

/-- The sooner ranks the higher. -/
instance : LinearOrder InLine :=
  LinearOrder.lift'
    (fun place => OrderDual.toDual (toLex (place.copies, toLex (place.turn, place.item.hash.toNat))))
    <| by
      rintro ⟨copies, turn, ⟨hash⟩⟩ ⟨copies', turn', ⟨hash'⟩⟩ h
      obtain ⟨hcopies, hrest⟩ := Prod.mk.inj (toLex.injective (OrderDual.toDual.injective h))
      obtain ⟨hturn, hhash⟩ := Prod.mk.inj (toLex.injective hrest)
      rw [InLine.mk.injEq, ItemId.mk.injEq]
      exact ⟨hcopies, hturn, BitVec.eq_of_toNat_eq hhash⟩

/-- How many items the pin manager has in each state. -/
structure PinCounts where
  queued : ℕ
  fetching : ℕ
  failed : ℕ
  waitingForRoom : ℕ
  kept : ℕ
  releasing : ℕ
  deriving DecidableEq

/-- One more pin counted. -/
def PinCounts.add (counts : PinCounts) : Pin → PinCounts
  | .queued _ => { counts with queued := counts.queued + 1 }
  | .fetching _ _ _ => { counts with fetching := counts.fetching + 1 }
  | .failed => { counts with failed := counts.failed + 1 }
  | .waitingForRoom => { counts with waitingForRoom := counts.waitingForRoom + 1 }
  | .kept => { counts with kept := counts.kept + 1 }
  | .releasing => { counts with releasing := counts.releasing + 1 }

/-- Every item with custody tags, or about to have them. -/
structure Pins where
  pins : OrdMap ItemId Pin
  /-- the turn the next item to join the queue gets -/
  nextTurn : ℕ
  maxFetches : ℕ+

/-- What wanting an item makes of its pin: queued at `turn`, unless it is waiting
already, which keeps its place, or being fetched, which is then fetched again. -/
def wanted (pin : Option Pin) (turn : ℕ) : Pin :=
  match pin with
  | none | some .failed | some .waitingForRoom | some .kept | some .releasing => .queued turn
  | some (.queued earlier) => .queued earlier
  | some (.fetching task _ availabilityChanged) => .fetching task true availabilityChanged

/-- The place of an item, if it is queued. -/
def inLine (liveCopies : ItemId → ℕ) (item : ItemId) : Pin → Option InLine
  | .queued turn => some ⟨liveCopies item, turn, item⟩
  | _ => none

/-- Up to `count` of the queued items: those with the fewest live copies, and among
as many the earliest turn. -/
def nextToFetch (sel : Selection InLine) (pins : OrdMap ItemId Pin) (count : ℕ)
    (liveCopies : ItemId → ℕ) : List ItemId :=
  let queued := pins.toList.filterMap fun entry => inLine liveCopies entry.1 entry.2
  let queued := if queued.length > count then (sel.select count queued).take count else queued
  queued.map InLine.item

namespace Pins

/-- The pin counts, as they are published. -/
def counts (pins : Pins) : PinCounts :=
  pins.pins.toList.foldl (fun counts entry => counts.add entry.2) ⟨0, 0, 0, 0, 0, 0⟩

def set (pins : Pins) (item : ItemId) (pin : Pin) : Pins :=
  { pins with pins := pins.pins.insert item pin }

/-- Queues `item` to be kept, or, if it is being fetched, to be fetched again once
that ends. -/
def want (pins : Pins) (item : ItemId) : Pins :=
  { pins with
    pins := pins.pins.insert item (wanted pins.pins[item]? pins.nextTurn)
    nextTurn := pins.nextTurn + 1 }

/-- `item` joins the queue, behind those already in. -/
def queue (pins : Pins) (item : ItemId) : Pins :=
  { pins with
    pins := pins.pins.insert item (.queued pins.nextTurn)
    nextTurn := pins.nextTurn + 1 }

/-- A pass over every pin that may hand out turns. -/
def revisit (f : Pin → ℕ → Pin × ℕ) (pins : Pins) : Pins :=
  pins.pins.toList.foldl (fun pins entry =>
    let visited := f entry.2 pins.nextTurn
    { pins with pins := pins.pins.insert entry.1 visited.1, nextTurn := visited.2 }) pins

/-- What waits for room is asked again: an item let go of into the cache is room
that can be evicted. -/
def askAgainForRoom (pins : Pins) : Pins :=
  pins.revisit fun pin turn =>
    match pin with
    | .waitingForRoom => (.queued turn, turn + 1)
    | pin => (pin, turn)

/-- What news of availability makes of the pins: a fetch that then fails is asked
again at once, and one that failed may now succeed. -/
def markAvailability (pins : Pins) : Pins :=
  pins.revisit fun pin turn =>
    match pin with
    | .fetching task wantedAgain _ => (.fetching task wantedAgain true, turn)
    | .failed => (.queued turn, turn + 1)
    | pin => (pin, turn)

/-- Up to `count` of the queued items, those with the fewest live copies first. -/
def fewestCopiesFirst (sel : Selection InLine) (pins : Pins) (count : ℕ)
    (liveCopies : ItemId → ℕ) : List ItemId :=
  if !(pins.pins.toList.any fun entry => match entry.2 with | .queued _ => true | _ => false) then []
  else nextToFetch sel pins.pins count liveCopies

end Pins

/-! ## What the manager reads -/

/-- What the pin manager decides from. -/
structure PinSources where
  /-- this node stopped following the log until it is upgraded -/
  upgradeRequired : Bool
  /-- whether this node holds an item -/
  holds : ItemId → Bool
  /-- the other members online now -/
  online : Finset MemberId
  /-- what they are known to hold -/
  holders : Holders
  /-- the copies the group keeps of every item -/
  replicas : ℕ

namespace PinSources

/-- How many members online, other than this node, hold a real copy of `item`. -/
def liveCopies (sources : PinSources) (me : MemberId) (item : ItemId) : ℕ :=
  ((sources.holders.realHolders item).filter fun member =>
    member ≠ me && member ∈ sources.online).length

/-- Whether `replicas` online members other than this node hold `item`. Not while
anyone online has not said what they hold. -/
def enoughCopiesElsewhere (sources : PinSources) (me : MemberId) (item : ItemId) : Bool :=
  if ∃ member ∈ sources.online, member ≠ me ∧ sources.holders.isKnown member = false then false
  else decide (sources.liveCopies me item ≥ sources.replicas)

end PinSources

/-- What is read when an item is judged, and what a release of it then meets. -/
structure Look extends PinSources where
  awaits : Awaits

/-- A whole reading of custody: the items that are this node's, once custody has
been computed, and what is read about them. -/
structure Reading where
  mine : Option (List ItemId)
  holds : ItemId → Bool
  looks : ItemId → Look

namespace Pins

/-- One thing the manager takes in. -/
inductive Event : Type where
  /-- custody was recomputed, or changes to it were missed -/
  | recomputed (reading : Reading)
  /-- whether one item is this node's -/
  | item (item : ItemId) (mine : Bool) (look : Look)
  /-- a member came or went, or announced what it holds -/
  | availabilityChanged
  /-- the changes gathered are acted on -/
  | gathered (looks : ItemId → Look)
  /-- a fetch ended, and whether its item is still this node's -/
  | fetched (task : ℕ) (kept : Except KeepError Unit) (keeps : Bool) (look : Look)
  /-- a fetch panicked, or was cancelled -/
  | panicked (task : ℕ)

/-- The start of a release: what was judged, on what grounds, and the tags from
there on. -/
structure Release where
  item : ItemId
  /-- the last word on the item's custody: whether it is this node's -/
  word : Option Bool
  sources : PinSources
  before : Tags
  passed : List Tags

/-- The manager, its fetches and the tags. Two fields are for the record only: the
last word on each item's custody, and every release. -/
structure World where
  pins : Pins
  /-- the tasks in flight, and the item each fetches -/
  fetches : OrdMap ℕ ItemId
  nextTask : ℕ
  /-- changes of availability are being gathered -/
  lookAtAvailability : Bool
  tags : Tags
  lastWord : ItemId → Option Bool
  released : List Release

namespace World

variable (me : MemberId) (sel : Selection InLine)

/-- The pin of an item. -/
def pin (world : World) (item : ItemId) : Option Pin := world.pins.pins[item]?

def setPin (world : World) (item : ItemId) (pin : Pin) : World :=
  { world with pins := world.pins.set item pin }

/-- Lets go of `item` into the cache, once its copies elsewhere make up for this
one, if this node holds it. Never while this node waits for an upgrade. -/
def releaseIfSafe (world : World) (item : ItemId) (look : Look) : World :=
  if look.upgradeRequired || (look.holds item && !look.enoughCopiesElsewhere me item) then
    world.setPin item .releasing
  else
    let course := Keeper.release item look.awaits world.tags
    let release : Release :=
      ⟨item, world.lastWord item, look.toPinSources, world.tags, course.passed⟩
    let world := { world with tags := course.tags, released := world.released ++ [release] }
    if course.ok then
      let pins := { world.pins with pins := world.pins.pins.erase item }
      { world with pins := pins.askAgainForRoom }
    else world.setPin item .releasing

/-- `item` is no longer this node's. One being fetched is decided once the fetch
ends. -/
def lose (world : World) (item : ItemId) (look : Look) : World :=
  match world.pin item with
  | none | some (.fetching _ _ _) => world
  | some _ => world.releaseIfSafe me item look

/-- Wants an item of a whole reading, unless it is looked after already. -/
def keepAgain (holds : ItemId → Bool) (world : World) (item : ItemId) : World :=
  let needsKeeping := match world.pin item with
    | none | some .releasing => true
    | some .kept => !holds item
    | some _ => false
  if needsKeeping then { world with pins := world.pins.want item } else world

/-- The items looked after that are not in `mine`. -/
def lost (world : World) (mine : List ItemId) : List ItemId :=
  world.pins.pins.keys.filter fun item => item ∉ mine

/-- Every item this node keeps, against what it looks after. Nothing before
custody's first pass, which would release everything. -/
def readCustodyAgain (world : World) (reading : Reading) : World :=
  match reading.mine with
  | none => world
  | some mine =>
    let world := mine.foldl (keepAgain reading.holds) world
    (world.lost mine).foldl (fun world item => world.lose me item (reading.looks item)) world

/-- A fetch task is started for `item`. -/
def spawn (world : World) (item : ItemId) : World :=
  { world with
    pins := world.pins.set item (.fetching world.nextTask false false)
    fetches := world.fetches.insert world.nextTask item
    nextTask := world.nextTask + 1 }

def startFetches (sources : PinSources) (world : World) : World :=
  let free := (world.pins.maxFetches : ℕ) - world.fetches.size
  if free = 0 then world
  else (world.pins.fewestCopiesFirst sel free (sources.liveCopies me)).foldl spawn world

/-- Whether an item is fetched again after its fetch ended with `kept`. -/
def fetchAgain (kept : Except KeepError Unit) (wantedAgain availabilityChanged : Bool) : Bool :=
  match kept with
  | .ok () | .error (.noRoom _) => wantedAgain
  | .error _ => wantedAgain || availabilityChanged

/-- The pin of an item that is not. -/
def restingPin (kept : Except KeepError Unit) : Pin :=
  match kept with
  | .ok () => .kept
  | .error (.noRoom _) => .waitingForRoom
  | .error _ => .failed

theorem restingPin_cases (kept : Except KeepError Unit) :
    restingPin kept = .kept ∨ restingPin kept = .waitingForRoom ∨ restingPin kept = .failed := by
  rw [restingPin.eq_def]
  split
  · exact Or.inl rfl
  · exact Or.inr (Or.inl rfl)
  · exact Or.inr (Or.inr rfl)

/-- The fetch of `item` ended with `kept`. -/
def fetched (world : World) (item : ItemId) (kept : Except KeepError Unit) (keeps : Bool)
    (look : Look) : World :=
  match world.pin item with
  | some (.fetching _ wantedAgain availabilityChanged) =>
    if !keeps then
      -- lost while it was being fetched
      world.releaseIfSafe me item look
    else if fetchAgain kept wantedAgain availabilityChanged then
      { world with pins := world.pins.queue item }
    else world.setPin item (restingPin kept)
  | _ => world

/-- The fetch in `task` panicked or was cancelled. -/
def fetchPanicked (world : World) (task : ℕ) : World :=
  match world.pins.pins.toList.find? fun entry => entry.2.task = some task with
  | some (item, _) => world.setPin item .failed
  | none => world

/-- A member came or went, or announced what it holds: a fetch that failed may now
succeed, and an item may now have its copies elsewhere. -/
def availabilityChanged (world : World) (looks : ItemId → Look) : World :=
  let releasing := world.pins.pins.keys.filter fun item => world.pin item = some .releasing
  let world := { world with pins := world.pins.markAvailability }
  releasing.foldl (fun world item => world.releaseIfSafe me item (looks item)) world

/-- Handles one event. -/
def handle (world : World) : Event → World
  | .recomputed reading => world.readCustodyAgain me reading
  | .item item true _ => { world with pins := world.pins.want item }
  | .item item false look => world.lose me item look
  | .availabilityChanged => { world with lookAtAvailability := true }
  | .gathered looks =>
    if world.lookAtAvailability then
      { world with lookAtAvailability := false }.availabilityChanged me looks
    else world
  | .fetched task kept keeps look =>
    match world.fetches[task]? with
    | none => world
    | some item =>
      { world with fetches := world.fetches.erase task }.fetched me item kept keeps look
  | .panicked task =>
    match world.fetches[task]? with
    | none => world
    | some _ => { world with fetches := world.fetches.erase task }.fetchPanicked task

/-- The word an event brings on an item's custody: a change, a whole reading, or the
check at the end of its fetch. -/
def word (world : World) (event : Event) (item : ItemId) : Option Bool :=
  match event with
  | .recomputed reading => reading.mine.map fun mine => decide (item ∈ mine)
  | .item changed mine _ => if item = changed then some mine else none
  | .fetched task _ keeps _ => if world.fetches[task]? = some item then some keeps else none
  | _ => none

/-- The word is taken note of. -/
def told (world : World) (event : Event) : World :=
  { world with lastWord := fun item => (world.word event item).or (world.lastWord item) }

/-- Takes in one event. -/
def hear (world : World) (event : Event) : World := (world.told event).handle me event

/-- What happens: another task writes the tags, or the loop goes round once. -/
inductive Step : Type where
  | others (tagging : Tagging)
  | loop (sources : PinSources) (event : Event)

def step (world : World) : Step → World
  | .others tagging => { world with tags := world.tags.after tagging }
  | .loop sources event => (world.startFetches me sel sources).hear me event

/-- The manager before it has read anything: every item with custody tags counts as
kept. -/
def opened (tags : Tags) (maxFetches : ℕ+) : World where
  pins := ⟨.ofList ((tags.kept .custody).map fun kept => (kept.1, Pin.kept)), 0, maxFetches⟩
  fetches := ∅
  nextTask := 0
  lookAtAvailability := false
  tags := tags
  lastWord := fun _ => none
  released := []

/-- The manager at the start of its loop, custody read once. -/
def started (tags : Tags) (maxFetches : ℕ+) (reading : Reading) : World :=
  (opened tags maxFetches).hear me (.recomputed reading)

end World

end Pins

/-! ## What is next in line -/

section NextToFetch

variable {sel : Selection InLine} {pins : OrdMap ItemId Pin} {count : ℕ} {liveCopies : ItemId → ℕ}

theorem inLine_eq_some {item : ItemId} {pin : Pin} {place : InLine} :
    inLine liveCopies item pin = some place ↔
      ∃ turn, pin = .queued turn ∧ place = ⟨liveCopies item, turn, item⟩ := by
  cases pin with
  | queued turn => simp [inLine, eq_comm]
  | fetching _ _ _ => simp [inLine]
  | failed => simp [inLine]
  | waitingForRoom => simp [inLine]
  | kept => simp [inLine]
  | releasing => simp [inLine]

/-- Everybody queued, in a line: nobody stands in it twice. -/
theorem nodup_line (pins : OrdMap ItemId Pin) (liveCopies : ItemId → ℕ) :
    ((pins.toList.filterMap fun entry => inLine liveCopies entry.1 entry.2).map
      InLine.item).Nodup := by
  refine List.pairwise_map.mpr (List.pairwise_filterMap.mpr
    (Std.ExtTreeMap.distinct_keys_toList.imp ?_))
  rintro ⟨item, pin⟩ ⟨item', pin'⟩ hne place hplace place' hplace' heq
  obtain ⟨turn, -, rfl⟩ := inLine_eq_some.mp hplace
  obtain ⟨turn', -, rfl⟩ := inLine_eq_some.mp hplace'
  obtain rfl : item = item' := heq
  exact hne Std.ReflCmp.compare_self

/-- What is picked is part of the line. -/
theorem nextToFetch_subperm (sel : Selection InLine) (pins : OrdMap ItemId Pin) (count : ℕ)
    (liveCopies : ItemId → ℕ) :
    (nextToFetch sel pins count liveCopies).Subperm
      ((pins.toList.filterMap fun entry => inLine liveCopies entry.1 entry.2).map InLine.item) := by
  rw [nextToFetch]
  split
  · exact ((List.take_sublist _ _).map _).subperm.trans ((sel.perm _ _).map _).subperm
  · exact List.Subperm.refl _

theorem nodup_nextToFetch : (nextToFetch sel pins count liveCopies).Nodup := by
  obtain ⟨l, hperm, hsub⟩ := nextToFetch_subperm sel pins count liveCopies
  exact hperm.nodup_iff.mp ((nodup_line pins liveCopies).sublist hsub)

theorem length_nextToFetch_le : (nextToFetch sel pins count liveCopies).length ≤ count := by
  rw [nextToFetch, List.length_map]
  split
  · exact List.length_take_le _ _
  · omega

/-- Only what is queued is picked. -/
theorem queued_of_mem_nextToFetch {item : ItemId}
    (h : item ∈ nextToFetch sel pins count liveCopies) : ∃ turn, pins[item]? = some (.queued turn) := by
  obtain ⟨place, hplace, rfl⟩ := List.mem_map.mp ((nextToFetch_subperm sel pins count liveCopies).subset h)
  obtain ⟨⟨item, pin⟩, hentry, hline⟩ := List.mem_filterMap.mp hplace
  obtain ⟨turn, rfl, rfl⟩ := inLine_eq_some.mp hline
  exact ⟨turn, Std.ExtTreeMap.mem_toList_iff_getElem?_eq_some.mp hentry⟩

/-- How many items are waiting their turn. -/
def queuedCount (pins : OrdMap ItemId Pin) : ℕ :=
  pins.toList.countP fun entry => entry.2.isQueued

/-- As many stand in line as are queued. -/
theorem length_line (pins : OrdMap ItemId Pin) (liveCopies : ItemId → ℕ) :
    (pins.toList.filterMap fun entry => inLine liveCopies entry.1 entry.2).length =
      queuedCount pins := by
  rw [List.length_filterMap_eq_countP, queuedCount]
  refine List.countP_congr fun entry _ => ?_
  cases entry.2 <;> simp [inLine, Pin.isQueued]

theorem length_nextToFetch :
    (nextToFetch sel pins count liveCopies).length = min count (queuedCount pins) := by
  rw [nextToFetch, List.length_map, ← length_line pins liveCopies]
  split
  · rw [List.length_take, (sel.perm _ _).length_eq]
  · omega

theorem mem_line_iff {place : InLine} :
    (place ∈ pins.toList.filterMap fun entry => inLine liveCopies entry.1 entry.2) ↔
      pins[place.item]? = some (.queued place.turn) ∧ place.copies = liveCopies place.item := by
  rw [List.mem_filterMap]
  constructor
  · rintro ⟨⟨item, pin⟩, hentry, hplace⟩
    obtain ⟨turn, rfl, rfl⟩ := inLine_eq_some.mp hplace
    exact ⟨Std.ExtTreeMap.mem_toList_iff_getElem?_eq_some.mp hentry, rfl⟩
  · rintro ⟨hqueued, hcopies⟩
    refine ⟨_, Std.ExtTreeMap.mem_toList_iff_getElem?_eq_some.mpr hqueued,
      inLine_eq_some.mpr ⟨_, rfl, ?_⟩⟩
    rw [← hcopies]

/-- Whoever waits and is not picked stands behind everyone picked. -/
theorem behind_picked {item sooner : ItemId} {turn turn' : ℕ}
    (hitem : pins[item]? = some (.queued turn))
    (hleft : item ∉ nextToFetch sel pins count liveCopies)
    (hpicked : sooner ∈ nextToFetch sel pins count liveCopies)
    (hsooner : pins[sooner]? = some (.queued turn')) :
    InLine.mk (liveCopies item) turn item ≤ ⟨liveCopies sooner, turn', sooner⟩ := by
  have hline : InLine.mk (liveCopies item) turn item ∈
      pins.toList.filterMap fun entry => inLine liveCopies entry.1 entry.2 :=
    mem_line_iff.mpr ⟨hitem, rfl⟩
  have hgiven : ∀ place, (place ∈ pins.toList.filterMap fun entry =>
      inLine liveCopies entry.1 entry.2) → place.item = sooner →
        place = ⟨liveCopies sooner, turn', sooner⟩ := by
    rintro place hplace rfl
    obtain ⟨hqueued, hcopies⟩ := mem_line_iff.mp hplace
    have hturn : turn' = place.turn := Pin.queued.inj (Option.some.inj (hsooner.symm.trans hqueued))
    rw [← hcopies, hturn]
  rw [nextToFetch] at hleft hpicked
  generalize (pins.toList.filterMap fun entry => inLine liveCopies entry.1 entry.2) = queued at *
  split at hleft
  case isFalse => exact absurd (List.mem_map.mpr ⟨_, hline, rfl⟩) hleft
  case isTrue hmore =>
    rw [if_pos hmore] at hpicked
    obtain ⟨place, hfront, hplace⟩ := List.mem_map.mp hpicked
    have hback : InLine.mk (liveCopies item) turn item ∈ (sel.select count queued).drop count := by
      have hsplit := (sel.perm count queued).mem_iff.mpr hline
      rw [← List.take_append_drop count (sel.select count queued), List.mem_append] at hsplit
      exact hsplit.resolve_left fun hfront => hleft (List.mem_map.mpr ⟨_, hfront, rfl⟩)
    rw [← hgiven place ((sel.perm _ _).mem_iff.mp (List.mem_of_mem_take hfront)) hplace]
    exact sel.split count queued hmore place hfront _ hback

/-- **The fewest copies go first.** Whatever the pins, if no two queued items share a
turn: as many are picked as there are or are asked for, all of them queued and no item
twice, and every queued item left out has more live copies than each one picked, or as
many and a later turn. The selection is free to leave either side in any order. -/
theorem fewest_copies_go_first (sel : Selection InLine) (pins : OrdMap ItemId Pin) (count : ℕ)
    (liveCopies : ItemId → ℕ)
    (hturns : ∀ (item item' : ItemId) (turn : ℕ), pins[item]? = some (.queued turn) →
      pins[item']? = some (.queued turn) → item = item') :
    (nextToFetch sel pins count liveCopies).length = min count (queuedCount pins) ∧
      (nextToFetch sel pins count liveCopies).Nodup ∧
      (∀ item ∈ nextToFetch sel pins count liveCopies,
        ∃ turn, pins[item]? = some (.queued turn)) ∧
      ∀ (left : ItemId) (turn : ℕ), pins[left]? = some (.queued turn) →
        left ∉ nextToFetch sel pins count liveCopies →
          ∀ (item : ItemId) (turn' : ℕ), item ∈ nextToFetch sel pins count liveCopies →
            pins[item]? = some (.queued turn') →
              toLex (liveCopies item, turn') < toLex (liveCopies left, turn) := by
  refine ⟨length_nextToFetch, nodup_nextToFetch, fun _ => queued_of_mem_nextToFetch,
    fun left turn hleft hnot item turn' hpicked hitem => ?_⟩
  have hbehind : toLex (liveCopies item, toLex (turn', item.hash.toNat)) ≤
      toLex (liveCopies left, toLex (turn, left.hash.toNat)) :=
    behind_picked hleft hnot hpicked hitem
  rw [Prod.Lex.toLex_le_toLex] at hbehind
  rw [Prod.Lex.toLex_lt_toLex]
  rcases hbehind with hfewer | ⟨hsame, hturn⟩
  · exact Or.inl hfewer
  · refine Or.inr ⟨hsame, ?_⟩
    rcases Prod.Lex.toLex_le_toLex.mp hturn with hearlier | ⟨hlevel, -⟩
    · exact hearlier
    -- Level in both, the two would share a turn and be one item.
    · obtain rfl : turn' = turn := hlevel
      have hsame : item = left := hturns _ _ _ hitem hleft
      exact absurd (hsame ▸ hpicked) hnot

/-- Two slots for three in line: the one with a single copy and the earlier of the two with
three, though it joined last. -/
theorem fewest_copies_go_first_of_three :
    let pins : OrdMap ItemId Pin :=
      .ofList [(⟨1⟩, .queued 0), (⟨2⟩, .queued 1), (⟨3⟩, .kept), (⟨4⟩, .queued 2)] compare
    let liveCopies : ItemId → ℕ := fun item => if item = ⟨4⟩ then 1 else 3
    nextToFetch Selection.sorting pins 2 liveCopies = [⟨4⟩, ⟨1⟩] ∧
      toLex (liveCopies ⟨1⟩, 0) < toLex (liveCopies ⟨2⟩, 1) := by
  intro pins liveCopies
  have hturns : ∀ (item item' : ItemId) (turn : ℕ), pins[item]? = some (.queued turn) →
      pins[item']? = some (.queued turn) → item = item' := by
    intro item item' turn hitem hitem'
    have hpins := OrdMap.mem_of_getElem?_ofList hitem
    have hpins' := OrdMap.mem_of_getElem?_ofList hitem'
    simp only [List.mem_cons, Prod.mk.injEq, Pin.queued.injEq, List.not_mem_nil] at hpins hpins'
    grind
  obtain ⟨-, -, -, hbehind⟩ := fewest_copies_go_first Selection.sorting pins 2 liveCopies hturns
  have hpicked : nextToFetch Selection.sorting pins 2 liveCopies = [⟨4⟩, ⟨1⟩] := by
    decide +kernel
  exact ⟨hpicked, hbehind ⟨2⟩ 1 (by decide +kernel) (by rw [hpicked]; decide) ⟨1⟩ 0
    (by rw [hpicked]; decide) (by decide +kernel)⟩

/-- Nobody picks from an empty queue, so looking whether it is empty first changes nothing. -/
theorem fewestCopiesFirst_eq (sel : Selection InLine) (pins : Pins) (count : ℕ)
    (liveCopies : ItemId → ℕ) :
    pins.fewestCopiesFirst sel count liveCopies =
      nextToFetch sel pins.pins count liveCopies := by
  rw [Pins.fewestCopiesFirst]
  split
  case isFalse => rfl
  case isTrue hnone =>
    rw [Bool.not_eq_true', List.any_eq_false] at hnone
    have hcount : queuedCount pins.pins = 0 := by
      refine List.countP_eq_zero.mpr fun entry hentry hqueued => hnone entry hentry ?_
      cases hpin : entry.2 <;> simp_all [Pin.isQueued]
    refine (List.length_eq_zero_iff.mp ?_).symm
    rw [length_nextToFetch, hcount, Nat.min_zero]

end NextToFetch

/-! ## What each operation does to a pin -/

namespace Pins

variable {pins : Pins} {item other : ItemId}

theorem revisit_fold (f : Pin → ℕ → Pin × ℕ) (item : ItemId) (entries : List (ItemId × Pin)) :
    ∀ acc : Pins, (entries.map Prod.fst).Nodup →
      let done := entries.foldl (fun pins entry =>
        let visited := f entry.2 pins.nextTurn
        { pins with pins := pins.pins.insert entry.1 visited.1, nextTurn := visited.2 }) acc
      done.maxFetches = acc.maxFetches ∧
      (∀ pin, (item, pin) ∈ entries → ∃ turn, done.pins[item]? = some (f pin turn).1) ∧
      (item ∉ entries.map Prod.fst → done.pins[item]? = acc.pins[item]?) := by
  induction entries with
  | nil => intro acc _; simp
  | cons entry entries ih =>
    intro acc hnodup
    obtain ⟨hnew, hrest⟩ := List.nodup_cons.mp hnodup
    obtain ⟨hmax, hvisited, hothers⟩ := ih { acc with
      pins := acc.pins.insert entry.1 (f entry.2 acc.nextTurn).1
      nextTurn := (f entry.2 acc.nextTurn).2 } hrest
    refine ⟨hmax, fun pin hmem => ?_, fun hnot => ?_⟩
    · rcases List.mem_cons.mp hmem with rfl | hlater
      · exact ⟨acc.nextTurn, (hothers hnew).trans (by simp)⟩
      · exact hvisited pin hlater
    · rw [List.map_cons, List.mem_cons, not_or] at hnot
      refine (hothers hnot.2).trans ?_
      rw [Std.ExtTreeMap.getElem?_insert, if_neg (by simpa using Ne.symm hnot.1)]

/-- A pass visits every pin once, and makes no other. -/
theorem pin_revisit (f : Pin → ℕ → Pin × ℕ) (pins : Pins) (item : ItemId) :
    (pins.revisit f).pins[item]? = none ∧ pins.pins[item]? = none ∨
      ∃ pin turn, pins.pins[item]? = some pin ∧
        (pins.revisit f).pins[item]? = some (f pin turn).1 := by
  obtain ⟨-, hvisited, hothers⟩ := revisit_fold f item pins.pins.toList pins
    (by rw [Std.ExtTreeMap.map_fst_toList_eq_keys]; exact Std.ExtTreeMap.nodup_keys)
  rcases hpin : pins.pins[item]? with _ | pin
  · left
    refine ⟨(hothers ?_).trans hpin, rfl⟩
    rw [Std.ExtTreeMap.map_fst_toList_eq_keys, Std.ExtTreeMap.mem_keys, OrdMap.mem_iff_exists]
    simp [hpin]
  · right
    obtain ⟨turn, hturn⟩ := hvisited pin (Std.ExtTreeMap.mem_toList_iff_getElem?_eq_some.mpr hpin)
    exact ⟨pin, turn, rfl, hturn⟩

theorem maxFetches_revisit (f : Pin → ℕ → Pin × ℕ) (pins : Pins) :
    (pins.revisit f).maxFetches = pins.maxFetches :=
  (revisit_fold f ⟨0⟩ pins.pins.toList pins
    (by rw [Std.ExtTreeMap.map_fst_toList_eq_keys]; exact Std.ExtTreeMap.nodup_keys)).1

/-- Asking for room again queues what waited for it, and touches nothing else. -/
theorem pin_askAgainForRoom (pins : Pins) (item : ItemId) :
    pins.askAgainForRoom.pins[item]? = pins.pins[item]? ∨
      pins.pins[item]? = some .waitingForRoom ∧
        ∃ turn, pins.askAgainForRoom.pins[item]? = some (.queued turn) := by
  rcases pin_revisit _ pins item with ⟨hnone, hnone'⟩ | ⟨pin, turn, hpin, hnow⟩
  · exact Or.inl (hnone.trans hnone'.symm)
  · cases pin with
    | waitingForRoom => exact Or.inr ⟨hpin, turn, hnow⟩
    | queued _ => exact Or.inl (hnow.trans hpin.symm)
    | fetching _ _ _ => exact Or.inl (hnow.trans hpin.symm)
    | failed => exact Or.inl (hnow.trans hpin.symm)
    | kept => exact Or.inl (hnow.trans hpin.symm)
    | releasing => exact Or.inl (hnow.trans hpin.symm)

/-- News of availability makes nothing wait to be released, and nothing stop. -/
theorem pin_markAvailability (pins : Pins) (item : ItemId) :
    pins.markAvailability.pins[item]? = some .releasing ↔ pins.pins[item]? = some .releasing := by
  rcases pin_revisit _ pins item with ⟨hnone, hnone'⟩ | ⟨pin, turn, hpin, hnow⟩
  · rw [markAvailability, hnone, hnone']
  · rw [markAvailability, hnow, hpin]
    cases pin <;> simp

/-- The task that fetches an item, by its pin. -/
def taskOf (pins : Pins) (item : ItemId) : Option ℕ := pins.pins[item]?.bind Pin.task

theorem taskOf_revisit {f : Pin → ℕ → Pin × ℕ} (hf : ∀ pin turn, (f pin turn).1.task = pin.task) :
    (pins.revisit f).taskOf item = pins.taskOf item := by
  rw [taskOf, taskOf]
  rcases pin_revisit f pins item with ⟨hnone, hnone'⟩ | ⟨pin, turn, hpin, hnow⟩
  · rw [hnone, hnone']
  · rw [hpin, hnow]
    exact hf pin turn

theorem taskOf_markAvailability : pins.markAvailability.taskOf item = pins.taskOf item :=
  taskOf_revisit fun pin turn => by cases pin <;> rfl

theorem taskOf_set (pin : Pin) :
    (pins.set item pin).taskOf other = if other = item then pin.task else pins.taskOf other := by
  rw [taskOf, set, Std.ExtTreeMap.getElem?_insert]
  by_cases h : other = item
  · simp [h]
  · rw [if_neg (by simpa using Ne.symm h), if_neg h, taskOf]

theorem task_wanted (pin : Option Pin) (turn : ℕ) : (wanted pin turn).task = pin.bind Pin.task := by
  rcases pin with _ | pin
  · rfl
  · cases pin <;> rfl

/-- Wanting an item starts and ends no fetch. -/
theorem taskOf_want : (pins.want item).taskOf other = pins.taskOf other := by
  refine (taskOf_set _).trans ?_
  split
  · rename_i h
    rw [task_wanted, h]
    rfl
  · rfl

/-- The published count of fetches is the number of pins that name a task. -/
theorem counts_fetching (pins : Pins) :
    pins.counts.fetching = (pins.pins.toList.filterMap fun entry => entry.2.task).length := by
  have hfold : ∀ (entries : List (ItemId × Pin)) (counts : PinCounts),
      (entries.foldl (fun counts entry => counts.add entry.2) counts).fetching =
        counts.fetching + (entries.filterMap fun entry => entry.2.task).length := by
    intro entries
    induction entries with
    | nil => intro counts; rfl
    | cons entry entries ih =>
      intro counts
      rw [List.foldl_cons, ih, List.filterMap_cons]
      rcases entry with ⟨item, pin⟩
      cases pin <;> simp [PinCounts.add, Pin.task]
      omega
  rw [counts, hfold, Nat.zero_add]

namespace World

variable {me : MemberId} {sel : Selection InLine} {world next : World}

theorem pin_setPin (world : World) (item : ItemId) (pin : Pin) (other : ItemId) :
    (world.setPin item pin).pin other = if other = item then some pin else world.pin other := by
  rw [World.pin, setPin, Pins.set, Std.ExtTreeMap.getElem?_insert]
  by_cases h : other = item
  · rw [if_pos h, if_pos (by simp [h])]
  · rw [if_neg h, if_neg (by simpa using Ne.symm h), World.pin]

/-- A judgement leaves its item released or releasing. -/
theorem pin_releaseIfSafe_self (me : MemberId) (world : World) (item : ItemId) (look : Look) :
    (world.releaseIfSafe me item look).pin item = none ∨
      (world.releaseIfSafe me item look).pin item = some .releasing := by
  have hset : ∀ world : World, (world.setPin item .releasing).pin item = some .releasing := by
    intro world
    rw [pin_setPin, if_pos rfl]
  rw [releaseIfSafe]
  split
  · exact Or.inr (hset world)
  · dsimp only
    split
    · left
      rcases pin_askAgainForRoom { world.pins with pins := world.pins.pins.erase item } item
        with hsame | ⟨hwaiting, -⟩
      · exact hsame.trans (by simp)
      · simp at hwaiting
    · exact Or.inr (hset _)

/-- To other items it does no more than ask for room again. -/
theorem pin_releaseIfSafe_of_ne (me : MemberId) (world : World) (look : Look) (h : other ≠ item) :
    (world.releaseIfSafe me item look).pin other = world.pin other ∨
      world.pin other = some .waitingForRoom ∧
        ∃ turn, (world.releaseIfSafe me item look).pin other = some (.queued turn) := by
  have hset : ∀ world : World, (world.setPin item .releasing).pin other = world.pin other := by
    intro world
    rw [pin_setPin, if_neg h]
  have herase : (world.pins.pins.erase item)[other]? = world.pins.pins[other]? := by
    rw [Std.ExtTreeMap.getElem?_erase, if_neg (by simpa using Ne.symm h)]
  rw [releaseIfSafe]
  split
  · exact Or.inl (hset world)
  · dsimp only
    split
    · rcases pin_askAgainForRoom { world.pins with pins := world.pins.pins.erase item } other
        with hsame | ⟨hwaiting, hqueued⟩
      · exact Or.inl (hsame.trans herase)
      · exact Or.inr ⟨herase.symm.trans hwaiting, hqueued⟩
    · exact Or.inl (hset _)

/-- What is no part of the pins a judgement leaves alone. -/
theorem releaseIfSafe_rest (me : MemberId) (world : World) (item : ItemId) (look : Look) :
    (world.releaseIfSafe me item look).fetches = world.fetches ∧
      (world.releaseIfSafe me item look).nextTask = world.nextTask ∧
      (world.releaseIfSafe me item look).pins.maxFetches = world.pins.maxFetches := by
  rw [releaseIfSafe]
  split
  · exact ⟨rfl, rfl, rfl⟩
  · dsimp only
    split
    · exact ⟨rfl, rfl, maxFetches_revisit _ _⟩
    · exact ⟨rfl, rfl, rfl⟩

/-- Losing one item does to another no more than ask for room again. -/
theorem pin_lose_of_ne (me : MemberId) (world : World) (look : Look) (h : other ≠ item) :
    (world.lose me item look).pin other = world.pin other ∨
      world.pin other = some .waitingForRoom ∧
        ∃ turn, (world.lose me item look).pin other = some (.queued turn) := by
  rw [lose]
  split
  · exact Or.inl rfl
  · exact Or.inl rfl
  · exact pin_releaseIfSafe_of_ne me world look h

/-- A whole reading wants an item, or finds it looked after. -/
theorem keepAgain_cases (holds : ItemId → Bool) (world : World) (item : ItemId) :
    keepAgain holds world item = { world with pins := world.pins.want item } ∨
      keepAgain holds world item = world ∧
        ∃ pin, world.pin item = some pin ∧ pin ≠ .releasing := by
  rcases hpin : world.pin item with _ | pin
  · left
    simp [keepAgain, hpin]
  · cases pin with
    | releasing =>
      left
      simp [keepAgain, hpin]
    | kept =>
      by_cases hholds : holds item = true
      · exact Or.inr ⟨by simp [keepAgain, hpin, hholds], .kept, rfl, by simp⟩
      · exact Or.inl (by simp [keepAgain, hpin, hholds])
    | queued turn => exact Or.inr ⟨by simp [keepAgain, hpin], _, rfl, by simp⟩
    | fetching task again changed => exact Or.inr ⟨by simp [keepAgain, hpin], _, rfl, by simp⟩
    | failed => exact Or.inr ⟨by simp [keepAgain, hpin], _, rfl, by simp⟩
    | waitingForRoom => exact Or.inr ⟨by simp [keepAgain, hpin], _, rfl, by simp⟩

theorem wanted_ne_releasing (pin : Option Pin) (turn : ℕ) : wanted pin turn ≠ .releasing := by
  rcases pin with _ | pin
  · simp [wanted]
  · cases pin <;> simp [wanted]

theorem pin_want (world : World) (item other : ItemId) :
    { world with pins := world.pins.want item }.pin other =
      if other = item then some (wanted (world.pin item) world.pins.nextTurn) else world.pin other := by
  rw [pin, Pins.want, Std.ExtTreeMap.getElem?_insert]
  by_cases h : other = item
  · rw [if_pos h, if_pos (by simp [h])]
    rfl
  · rw [if_neg h, if_neg (by simpa using Ne.symm h)]
    rfl

theorem pin_keepAgain_of_ne (holds : ItemId → Bool) (world : World) (h : other ≠ item) :
    (keepAgain holds world item).pin other = world.pin other := by
  rcases keepAgain_cases holds world item with heq | ⟨heq, -⟩
  · rw [heq, pin_want, if_neg h]
  · rw [heq]

end World

end Pins

end Distlib
