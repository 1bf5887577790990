import Distlib.Custody.Alone
import Distlib.Custody.Dated
import Distlib.Custody.Pins

/-!
# The emergency copy

An item down to one live copy for long enough is fetched, as cache, by the first member after
its custodians that is online and does not hold it. The task looks when availability changes
and when the next item becomes due, starts a copy of each item due that is its own to make, and
hears how each copy went.

A copy runs aside, and says which item it was of only if it returns. One that panics says
nothing, so its item goes on being copied by nobody: looks carry it over whether it is alone or
not, and it is never due again (`stays_stuck`). The log says it is made again once the item is
alone again.

`copying_iff` says which runs have every item copied exactly while a copy of it runs: those in
which no copy panics. In every run at most one copy of an item runs, and what is due has its
one holder.
-/

namespace Distlib

open GuardedRun OrdMap

/-- How long availability is gathered for before it is looked at, in nanoseconds. -/
def AVAILABILITY_GATHERED_FOR : ℕ := 1000000000

namespace Emergency

/-- What a look reads. -/
structure Look where
  now : ℕ
  /-- the group's `emergency_after_secs` -/
  delay : ℕ
  online : MemberId → Bool
  /-- every item exactly one member online is known to hold a real copy of, with that member -/
  soleHolders : List (ItemId × MemberId)
  /-- what this node holds -/
  holds : ItemId → Bool
  /-- what the store answers for an item, if it does -/
  store : ItemId → Option (Option StoredItem)
  group : ItemId → CustodyGroup

/-- The one holder of each item alone. -/
def Look.holders (look : Look) : OrdMap ItemId MemberId :=
  .ofList (look.soleHolders.filter fun entry => !look.holds entry.1) compare

/-- How a copy ends. -/
inductive Ended : Type where
  | returned (copied : Except KeepError Unit)
  | panicked

/-- What the event bus brings. -/
inductive Bus : Type where
  | availabilityChanged
  | lagged
  | other
  | closed

inductive Event : Type where
  | heard (event : Bus) (now : ℕ)
  /-- availability has been gathered for long enough -/
  | gathered (look : Look)
  /-- an item may be due; the group's delay, when the wait began -/
  | ripened (delay : ℕ) (look : Look)
  /-- a copy ends -/
  | joined (task : ℕ) (ended : Ended)

/-- The task's state, with the copies that run: those begun and not yet heard of. -/
structure World where
  alone : AloneItems
  copies : OrdMap ℕ ItemId
  nextTask : ℕ
  lookAtAvailability : Option ℕ
  stopped : Bool

/-- A first look is due, for whatever was alone before. -/
def World.started (now : ℕ) : World where
  alone := ∅
  copies := ∅
  nextTask := 0
  lookAtAvailability := some (now + AVAILABILITY_GATHERED_FOR)
  stopped := false

/-- The task is over, and what it had is dropped with it. -/
def World.stop (world : World) : World :=
  { world with alone := ∅, copies := ∅, lookAtAvailability := none, stopped := true }

section Score

variable {S : Type} [LinearOrder S] (score : ItemId → MemberId → ℕ → S) (me : MemberId)

/-- Whether this node is the first after the item's custodians, of those online and not the
holder; `none` if the store does not say. -/
def isMineToCopy (look : Look) (item : ItemId) (holder : MemberId) : Option Bool :=
  (look.store item).map fun stored =>
    match stored with
    | none => false
    | some stored => (look.group item).firstAfterCustodians score stored.custodyItem
        (fun member => member ≠ holder ∧ (member = me ∨ look.online member)) = some me

namespace World

/-- One item that is due: copied, if it is this node's to copy. `none` is a panic: it has no
holder. -/
def copyDue (look : Look) (world : World) (item : ItemId) : Option World :=
  (look.holders[item]?).map fun holder =>
    match isMineToCopy score me look item holder with
    | some true =>
      { world with
        alone := world.alone.copying item
        copies := world.copies.insert world.nextTask item
        nextTask := world.nextTask + 1 }
    | some false => world
    | none => world

/-- The items alone brought up to date, and a copy started of each one due that is this node's
to make. -/
def look (world : World) (look : Look) : Option World :=
  let updated := world.alone.update look.holders.keys look.now look.delay
  updated.2.foldlM (copyDue score me look) { world with alone := updated.1 }

/-- A copy that returns. -/
def copied (world : World) (item : ItemId) (copied : Except KeepError Unit) : World :=
  { world with alone := world.alone.copied item copied.isOk }

/-- One turn of the loop. A timer that has not run out does nothing, nor does a copy that does
not run. -/
def step (world : World) (event : Event) : World :=
  if world.stopped then world
  else match event with
    | .heard .availabilityChanged now | .heard .lagged now =>
      let waits := world.lookAtAvailability.getD (now + AVAILABILITY_GATHERED_FOR)
      { world with lookAtAvailability := some waits }
    | .heard .other _ => world
    | .heard .closed _ => world.stop
    | .gathered seen =>
      if world.lookAtAvailability.any fun time => time ≤ seen.now then
        ({ world with lookAtAvailability := none }.look score me seen).getD world.stop
      else world
    | .ripened delay seen =>
      if (world.alone.nextDue delay).any fun time => time ≤ seen.now then
        (world.look score me seen).getD world.stop
      else world
    | .joined task ended =>
      match world.copies[task]? with
      | none => world
      | some item =>
        let world := { world with copies := world.copies.erase task }
        match ended with
        | .returned copied => world.copied item copied
        -- the item is not known here
        | .panicked => world

end World

/-- An item is being copied exactly while one copy of it runs. -/
def CopyingWhileCopied (world : World) : Prop :=
  ∀ item : ItemId, world.alone[item]? = some .copying ↔ ∃! task : ℕ, world.copies[task]? = some item

/-- At most one copy of an item runs. -/
def OneCopyEach (world : World) : Prop :=
  ∀ (task other : ℕ) (item : ItemId),
    world.copies[task]? = some item → world.copies[other]? = some item → task = other

/-- A look at anything, from here, returns as due only items alone at that look, and finds the
holder of each. -/
def DueAreAlone (world : World) : Prop :=
  world.stopped = false → ∀ seen : Look,
    (∀ item ∈ (world.alone.update seen.holders.keys seen.now seen.delay).2,
      ∃ holder, seen.holders[item]? = some holder) ∧
    (world.look score me seen).isSome

/-- A copy that ends here does not panic. -/
def NoPanic (world : World) : Event → Prop
  | .joined task .panicked => world.copies[task]? = none
  | _ => True

/-! ## One item that is due -/

/-- Whether or not copies have panicked: the copies that run are of items being copied, one
each. -/
structure Single (world : World) : Prop where
  fresh : ∀ (task : ℕ) (item : ItemId), world.copies[task]? = some item → task < world.nextTask
  one : OneCopyEach world
  copying : ∀ (task : ℕ) (item : ItemId), world.copies[task]? = some item →
    world.alone[item]? = some .copying
  stopped : world.stopped = true → world.copies = ∅

/-- Every item being copied has a copy that runs. -/
def Attended (world : World) : Prop :=
  ∀ item : ItemId, world.alone[item]? = some .copying → ∃ task : ℕ, world.copies[task]? = some item

variable {score me} {world : World} {item : ItemId}

theorem copyingWhileCopied_iff (h : Single world) : CopyingWhileCopied world ↔ Attended world := by
  constructor
  · intro hwhile item hcopying
    obtain ⟨task, htask, -⟩ := (hwhile item).mp hcopying
    exact ⟨task, htask⟩
  · intro hattended item
    constructor
    · intro hcopying
      obtain ⟨task, htask⟩ := hattended item hcopying
      exact ⟨task, htask, fun other hother => h.one other task item hother htask⟩
    · rintro ⟨task, htask, -⟩
      exact h.copying task item htask

/-- A copy begun of an item that is not being copied. -/
theorem Single.begun (h : Single world) (hruns : world.stopped = false)
    (hitem : world.alone[item]? ≠ some .copying) :
    let next : World := { world with
      alone := world.alone.copying item
      copies := world.copies.insert world.nextTask item
      nextTask := world.nextTask + 1 }
    Single next ∧ (Attended world → Attended next) := by
  have hcopies : ∀ task : ℕ, (world.copies.insert world.nextTask item)[task]? =
      if world.nextTask = task then some item else world.copies[task]? := by
    intro task
    rw [Std.ExtTreeMap.getElem?_insert]
    simp only [Std.LawfulEqCmp.compare_eq_iff_eq]
  have halone : ∀ other : ItemId, (world.alone.copying item)[other]? =
      if item = other then some .copying else world.alone[other]? := by
    intro other
    rw [AloneItems.copying, Std.ExtTreeMap.getElem?_insert]
    simp only [Std.LawfulEqCmp.compare_eq_iff_eq]
  -- none of the copies that run is of this item
  have hnone : ∀ task : ℕ, world.copies[task]? ≠ some item := fun task htask =>
    hitem (h.copying task item htask)
  refine ⟨⟨fun task copied htask => ?_, fun task other copied htask hother => ?_,
    fun task copied htask => ?_, fun hstopped => ?_⟩, fun hattended copied hcopying => ?_⟩
  · dsimp only at htask ⊢
    rw [hcopies] at htask
    split at htask
    · omega
    · have := h.fresh task copied htask
      omega
  · dsimp only at htask hother
    rw [hcopies] at htask hother
    split at htask <;> split at hother
    · omega
    · obtain rfl := Option.some.inj htask
      exact absurd hother (hnone other)
    · obtain rfl := Option.some.inj hother
      exact absurd htask (hnone task)
    · exact h.one task other copied htask hother
  · dsimp only at htask ⊢
    rw [hcopies] at htask
    rw [halone]
    split at htask
    · rw [if_pos (Option.some.inj htask)]
    · split
      · rfl
      · exact h.copying task copied htask
  · rw [hruns] at hstopped
    cases hstopped
  · dsimp only at hcopying ⊢
    rw [halone] at hcopying
    split at hcopying
    · rename_i heq
      exact ⟨world.nextTask, by rw [hcopies, if_pos rfl, heq]⟩
    · obtain ⟨task, htask⟩ := hattended copied hcopying
      refine ⟨task, ?_⟩
      rw [hcopies, if_neg (h.fresh task copied htask).ne']
      exact htask

/-- **One item that is due** has a holder, and becomes one that is copied or stays as it is. -/
theorem Single.copyDue (h : Single world) (score : ItemId → MemberId → ℕ → S) (me : MemberId)
    {look : Look} (hruns : world.stopped = false) (hdue : world.alone[item]? = some .due)
    (hholder : ∃ holder, look.holders[item]? = some holder) :
    ∃ next, world.copyDue score me look item = some next ∧ Single next ∧
      next.stopped = false ∧ (Attended world → Attended next) ∧
      ∀ other ≠ item, next.alone[other]? = world.alone[other]? ∧
        ∀ task : ℕ, next.copies[task]? = some other → world.copies[task]? = some other := by
  obtain ⟨holder, hholder⟩ := hholder
  have hitem : world.alone[item]? ≠ some .copying := by
    rw [hdue]
    simp
  rw [World.copyDue, hholder, Option.map_some]
  refine ⟨_, rfl, ?_⟩
  split
  · obtain ⟨hsingle, hattended⟩ := h.begun hruns hitem
    refine ⟨hsingle, hruns, hattended, fun other hother => ⟨?_, fun task htask => ?_⟩⟩
    · exact (Std.ExtTreeMap.getElem?_insert ..).trans (if_neg (by simpa using Ne.symm hother))
    · dsimp only at htask
      rw [Std.ExtTreeMap.getElem?_insert] at htask
      split at htask
      · exact absurd (Option.some.inj htask).symm hother
      · exact htask
  · exact ⟨h, hruns, id, fun _ _ => ⟨rfl, fun _ => id⟩⟩
  · exact ⟨h, hruns, id, fun _ _ => ⟨rfl, fun _ => id⟩⟩

/-- All items that are due, one after another. -/
theorem Single.foldlM_copyDue (score : ItemId → MemberId → ℕ → S) (me : MemberId) (look : Look)
    (due : List ItemId) :
    ∀ {world : World}, Single world → world.stopped = false → due.Nodup →
      (∀ item ∈ due, world.alone[item]? = some .due) →
      (∀ item ∈ due, ∃ holder, look.holders[item]? = some holder) →
      ∃ next, due.foldlM (World.copyDue score me look) world = some next ∧ Single next ∧
        (Attended world → Attended next) ∧
        ∀ other ∉ due, next.alone[other]? = world.alone[other]? ∧
          ∀ task : ℕ, next.copies[task]? = some other → world.copies[task]? = some other := by
  induction due with
  | nil =>
    intro world h _ _ _ _
    exact ⟨world, rfl, h, id, fun _ _ => ⟨rfl, fun _ => id⟩⟩
  | cons item rest ih =>
    intro world h hruns hnodup hdue hholders
    obtain ⟨hitem, hrest⟩ := List.nodup_cons.mp hnodup
    obtain ⟨next, hnext, hsingle, hstill, hattended, hothers⟩ := h.copyDue score me hruns
      (hdue item List.mem_cons_self) (hholders item List.mem_cons_self)
    obtain ⟨last, hlast, hsingle', hattended', hothers'⟩ := ih hsingle hstill hrest
      (fun other hmem => by
        rw [(hothers other fun heq => hitem (heq ▸ hmem)).1]
        exact hdue other (List.mem_cons_of_mem _ hmem))
      fun other hmem => hholders other (List.mem_cons_of_mem _ hmem)
    refine ⟨last, ?_, hsingle', hattended' ∘ hattended, fun other hother => ?_⟩
    · rw [List.foldlM_cons, hnext]
      exact hlast
    · obtain ⟨hne, hnot⟩ := not_or.mp (List.mem_cons.not.mp hother)
      obtain ⟨halone, hcopies⟩ := hothers other hne
      obtain ⟨halone', hcopies'⟩ := hothers' other hnot
      exact ⟨halone'.trans halone, fun task htask => hcopies task (hcopies' task htask)⟩

theorem nodup_holders (look : Look) : look.holders.keys.Nodup := Std.ExtTreeMap.nodup_keys

/-- What a look returns as due is alone at it: it has its one holder. -/
theorem holder_of_due {items : AloneItems} {look : Look} {now delay : ℕ}
    (hdue : item ∈ (items.update look.holders.keys now delay).2) :
    ∃ holder, look.holders[item]? = some holder :=
  mem_iff_exists.mp (Std.ExtTreeMap.mem_keys.mp (alone_of_due (nodup_holders look) hdue))

/-- **A look** finds the holder of all that is due, and begins one copy of an item at most. -/
theorem Single.look (h : Single world) (score : ItemId → MemberId → ℕ → S) (me : MemberId)
    (hruns : world.stopped = false) (seen : Look) :
    ∃ next, world.look score me seen = some next ∧ Single next ∧
      (Attended world → Attended next) ∧
      ∀ item : ItemId, world.alone[item]? = some .copying → next.alone[item]? = some .copying ∧
        ∀ task : ℕ, next.copies[task]? = some item → world.copies[task]? = some item := by
  have hcopying : ∀ item : ItemId,
      (world.alone.update seen.holders.keys seen.now seen.delay).1[item]? = some .copying ↔
        world.alone[item]? = some .copying := fun item => copying_update (nodup_holders seen)
  have hupdated : Single { world with
      alone := (world.alone.update seen.holders.keys seen.now seen.delay).1 } :=
    ⟨h.fresh, h.one, fun task item htask => (hcopying item).mpr (h.copying task item htask),
      h.stopped⟩
  obtain ⟨next, hnext, hsingle, hattended, hothers⟩ := hupdated.foldlM_copyDue score me seen _
    hruns (nodup_due ..) (fun item hdue => mem_due.mp hdue) fun item hdue => holder_of_due hdue
  refine ⟨next, hnext, hsingle, fun hbefore => hattended fun item hitem =>
    hbefore item ((hcopying item).mp hitem), fun item hitem => ?_⟩
  have hcopied := (hcopying item).mpr hitem
  obtain ⟨halone, hcopies⟩ := hothers item fun hdue => by
    rw [mem_due.mp hdue] at hcopied
    cases hcopied
  exact ⟨halone.trans hcopied, hcopies⟩

/-! ## Every turn of the loop -/

/-- A copy that has ended is no longer one that runs. -/
theorem copies_joined {task : ℕ} {copied : ItemId} (h : Single world)
    (htask : world.copies[task]? = some item) {other : ℕ} :
    (world.copies.erase task)[other]? = some copied ↔
      other ≠ task ∧ copied ≠ item ∧ world.copies[other]? = some copied := by
  rw [Std.ExtTreeMap.getElem?_erase]
  simp only [Std.LawfulEqCmp.compare_eq_iff_eq]
  by_cases heq : task = other
  · simp [heq]
  · rw [if_neg heq]
    refine ⟨fun hother => ⟨Ne.symm heq, ?_, hother⟩, fun hother => hother.2.2⟩
    rintro rfl
    exact heq (h.one task other copied htask hother)

/-- A copy that returns leaves its item not being copied. -/
theorem Single.copied (h : Single world) {task : ℕ} (htask : world.copies[task]? = some item)
    (copied : Except KeepError Unit) :
    let next := { world with copies := world.copies.erase task }.copied item copied
    Single next ∧ (Attended world → Attended next) := by
  have halone : ∀ other : ItemId, (world.alone.copied item copied.isOk)[other]? = some .copying ↔
      other ≠ item ∧ world.alone[other]? = some .copying := by
    intro other
    rw [AloneItems.copied]
    by_cases heq : item = other
    · obtain rfl := heq
      split <;> simp
    · split <;>
        simp [Std.ExtTreeMap.getElem?_erase, Std.ExtTreeMap.getElem?_insert, heq, Ne.symm heq]
  refine ⟨⟨fun other found hother => ?_, fun other another found hother hanother => ?_,
    fun other found hother => ?_, fun hstopped => ?_⟩, fun hattended found hfound => ?_⟩
  · exact h.fresh other found ((copies_joined h htask).mp hother).2.2
  · exact h.one other another found ((copies_joined h htask).mp hother).2.2
      ((copies_joined h htask).mp hanother).2.2
  · obtain ⟨-, hne, hother⟩ := (copies_joined h htask).mp hother
    exact (halone found).mpr ⟨hne, h.copying other found hother⟩
  · rw [h.stopped hstopped] at htask
    simp at htask
  · obtain ⟨hne, hcopying⟩ := (halone found).mp hfound
    obtain ⟨other, hother⟩ := hattended found hcopying
    refine ⟨other, (copies_joined h htask).mpr ⟨?_, hne, hother⟩⟩
    rintro rfl
    rw [htask] at hother
    exact hne (Option.some.inj hother).symm

/-- A copy that panics leaves its item being copied by nobody. -/
theorem Single.panicked (h : Single world) {task : ℕ} (htask : world.copies[task]? = some item) :
    let next := { world with copies := world.copies.erase task }
    Single next ∧ ¬Attended next := by
  refine ⟨⟨fun other found hother => ?_, fun other another found hother hanother => ?_,
    fun other found hother => ?_, fun hstopped => ?_⟩, fun hattended => ?_⟩
  · exact h.fresh other found ((copies_joined h htask).mp hother).2.2
  · exact h.one other another found ((copies_joined h htask).mp hother).2.2
      ((copies_joined h htask).mp hanother).2.2
  · exact h.copying other found ((copies_joined h htask).mp hother).2.2
  · rw [h.stopped hstopped] at htask
    simp at htask
  · obtain ⟨other, hother⟩ := hattended item (h.copying task item htask)
    exact ((copies_joined h htask).mp hother).2.1 rfl

theorem Single.stop (world : World) : Single world.stop ∧ Attended world.stop := by
  have hcopies : ∀ (task : ℕ) (item : ItemId), world.stop.copies[task]? ≠ some item := by
    intro task item
    simp [World.stop]
  exact ⟨⟨fun task item htask => absurd htask (hcopies task item),
    fun task _ item htask => absurd htask (hcopies task item),
    fun task item htask => absurd htask (hcopies task item), fun _ => rfl⟩,
    fun item hitem => by simp [World.stop] at hitem⟩

/-- **One turn of the loop**: at most one copy of an item runs, and every item being copied has
one unless a copy panics. -/
theorem Single.step (h : Single world) (score : ItemId → MemberId → ℕ → S) (me : MemberId)
    (event : Event) :
    Single (world.step score me event) ∧
      (Attended world → (Attended (world.step score me event) ↔ NoPanic world event)) := by
  rw [World.step.eq_def]
  by_cases hstopped : world.stopped = true
  · rw [if_pos hstopped]
    refine ⟨h, fun hattended => iff_of_true hattended ?_⟩
    cases event with
    | joined task ended =>
      cases ended with
      | returned copied => trivial
      | panicked =>
        rw [NoPanic, h.stopped hstopped]
        simp
    | _ => trivial
  · rw [if_neg hstopped]
    have hruns := Bool.eq_false_of_not_eq_true hstopped
    cases event with
    | heard event now =>
      cases event with
      | availabilityChanged =>
        exact ⟨⟨h.fresh, h.one, h.copying, h.stopped⟩, fun hattended => iff_of_true hattended trivial⟩
      | lagged =>
        exact ⟨⟨h.fresh, h.one, h.copying, h.stopped⟩, fun hattended => iff_of_true hattended trivial⟩
      | other => exact ⟨h, fun hattended => iff_of_true hattended trivial⟩
      | closed => exact ⟨(Single.stop world).1, fun _ => iff_of_true (Single.stop world).2 trivial⟩
    | gathered seen =>
      dsimp only
      split
      · have hbefore : Single { world with lookAtAvailability := none } :=
          ⟨h.fresh, h.one, h.copying, h.stopped⟩
        obtain ⟨next, hnext, hsingle, hattended, -⟩ := hbefore.look score me hruns seen
        rw [hnext]
        exact ⟨hsingle, fun hnow => iff_of_true (hattended hnow) trivial⟩
      · exact ⟨h, fun hattended => iff_of_true hattended trivial⟩
    | ripened delay seen =>
      dsimp only
      split
      · obtain ⟨next, hnext, hsingle, hattended, -⟩ := h.look score me hruns seen
        rw [hnext]
        exact ⟨hsingle, fun hnow => iff_of_true (hattended hnow) trivial⟩
      · exact ⟨h, fun hattended => iff_of_true hattended trivial⟩
    | joined task ended =>
      dsimp only
      rcases htask : world.copies[task]? with _ | item
      · refine ⟨h, fun hattended => iff_of_true hattended ?_⟩
        cases ended with
        | returned copied => trivial
        | panicked => exact htask
      · cases ended with
        | returned copied =>
          obtain ⟨hsingle, hattended⟩ := h.copied htask copied
          exact ⟨hsingle, fun hnow => iff_of_true (hattended hnow) trivial⟩
        | panicked =>
          obtain ⟨hsingle, hnot⟩ := h.panicked htask
          refine ⟨hsingle, fun _ => iff_of_false hnot fun hnone => ?_⟩
          rw [NoPanic, htask] at hnone
          cases hnone

theorem single_started (now : ℕ) : Single (.started now) ∧ Attended (.started now) := by
  have hcopies : ∀ (task : ℕ) (item : ItemId), (World.started now).copies[task]? ≠ some item := by
    intro task item
    simp [World.started]
  exact ⟨⟨fun task item htask => absurd htask (hcopies task item),
    fun task _ item htask => absurd htask (hcopies task item),
    fun task item htask => absurd htask (hcopies task item), fun _ => rfl⟩,
    fun item hitem => by simp [World.started] at hitem⟩

/-- **Items are copied exactly while a copy of them runs**, in the runs in which no copy panics,
and only in these; in every run at most one copy of an item runs, and what a look returns as
due is alone at it, with a holder. -/
theorem copying_iff (score : ItemId → MemberId → ℕ → S) (me : MemberId) (now : ℕ)
    (events : List Event) :
    (Along (World.step score me) (fun world event => CopyingWhileCopied (world.step score me event))
          (.started now) events ↔
        Along (World.step score me) NoPanic (.started now) events) ∧
      Along (World.step score me)
        (fun world event => OneCopyEach (world.step score me event) ∧ DueAreAlone score me world)
        (.started now) events := by
  obtain ⟨hsingle, hattended⟩ := single_started now
  constructor
  · refine along_iff (I := Single) (P := Attended) (fun _ event h => (h.step score me event).1)
      (fun world event h hbefore => ?_) (fun world event _ hwhile item hitem => ?_) events hsingle
      hattended
    · rw [copyingWhileCopied_iff (h.step score me event).1]
      exact (h.step score me event).2 hbefore
    · obtain ⟨task, htask, -⟩ := (hwhile item).mp hitem
      exact ⟨task, htask⟩
  · refine along_of_invariant (I := Single) (fun world event h => ⟨(h.step score me event).1, ?_⟩)
      events hsingle
    refine ⟨(h.step score me event).1.one, fun hruns seen =>
      ⟨fun item hdue => holder_of_due hdue, ?_⟩⟩
    obtain ⟨next, hnext, -⟩ := h.look score me hruns seen
    rw [hnext]
    rfl

/-! ## What a copy that panics leaves -/

/-- An item copied by nobody. -/
def Stuck (item : ItemId) (world : World) : Prop :=
  world.alone[item]? = some .copying ∧ ∀ task : ℕ, world.copies[task]? ≠ some item

theorem Stuck.look (hstuck : Stuck item world) (h : Single world) (hruns : world.stopped = false)
    (score : ItemId → MemberId → ℕ → S) (me : MemberId) (seen : Look) :
    Stuck item ((world.look score me seen).getD world.stop) := by
  obtain ⟨next, hnext, -, -, hkeeps⟩ := h.look score me hruns seen
  obtain ⟨halone, hcopies⟩ := hkeeps item hstuck.1
  rw [hnext]
  exact ⟨halone, fun task htask => hstuck.2 task (hcopies task htask)⟩

theorem Stuck.step (hstuck : Stuck item world) (h : Single world)
    (score : ItemId → MemberId → ℕ → S) (me : MemberId) (event : Event) :
    Stuck item (world.step score me event) ∨ (world.step score me event).stopped = true := by
  rw [World.step.eq_def]
  by_cases hstopped : world.stopped = true
  · rw [if_pos hstopped]
    exact Or.inr hstopped
  · rw [if_neg hstopped]
    have hruns := Bool.eq_false_of_not_eq_true hstopped
    cases event with
    | heard event now =>
      cases event with
      | closed => exact Or.inr rfl
      | _ => exact Or.inl hstuck
    | gathered seen =>
      dsimp only
      split
      · have hbefore : Single { world with lookAtAvailability := none } :=
          ⟨h.fresh, h.one, h.copying, h.stopped⟩
        have hstill : Stuck item { world with lookAtAvailability := none } := hstuck
        exact Or.inl (hstill.look hbefore hruns score me seen)
      · exact Or.inl hstuck
    | ripened delay seen =>
      dsimp only
      split
      · exact Or.inl (hstuck.look h hruns score me seen)
      · exact Or.inl hstuck
    | joined task ended =>
      dsimp only
      rcases htask : world.copies[task]? with _ | copied
      · exact Or.inl hstuck
      · have hne : copied ≠ item := by
          rintro rfl
          exact hstuck.2 task htask
        have hcopies : ∀ other : ℕ, (world.copies.erase task)[other]? ≠ some item :=
          fun other hother => hstuck.2 other ((copies_joined h htask).mp hother).2.2
        left
        cases ended with
        | returned result =>
          refine ⟨?_, hcopies⟩
          change (world.alone.copied copied result.isOk)[item]? = _
          rw [AloneItems.copied]
          split
          · simpa [Std.ExtTreeMap.getElem?_erase, hne] using hstuck.1
          · simpa [Std.ExtTreeMap.getElem?_insert, hne] using hstuck.1
        | panicked => exact ⟨hstuck.1, hcopies⟩

/-- **An item copied by nobody** stays so until the task ends, whatever looks find. -/
theorem stays_stuck (h : Single world) (hstuck : Stuck item world)
    (score : ItemId → MemberId → ℕ → S) (me : MemberId) (events : List Event) :
    Stuck item (exec (World.step score me) world events) ∨
      (exec (World.step score me) world events).stopped = true := by
  have hboth : Single (exec (World.step score me) world events) ∧
      (Stuck item (exec (World.step score me) world events) ∨
        (exec (World.step score me) world events).stopped = true) := exec_invariant
    (I := fun world => Single world ∧ (Stuck item world ∨ world.stopped = true))
    (fun world event hboth => ?_) events ⟨h, Or.inl hstuck⟩
  · exact hboth.2
  · obtain ⟨hsingle, hstuck | hstopped⟩ := hboth
    · exact ⟨(hsingle.step score me event).1, hstuck.step hsingle score me event⟩
    · refine ⟨(hsingle.step score me event).1, Or.inr ?_⟩
      rw [World.step.eq_def, if_pos hstopped]
      exact hstopped

end Score

namespace Panicked

/-- This node, and the one other member, who holds the only copy of the one item. -/
def here : MemberId := ⟨1⟩

def holder : MemberId := ⟨2⟩

def stored : StoredItem := ⟨Item.new ⟨1⟩, ∅, ∅, ∅, 0⟩

/-- The holder is the item's custodian; next in score order comes this node. -/
def score (_ : ItemId) (member : MemberId) (_ : ℕ) : ℕ := if member = holder then 2 else 1

/-- A look at `now` in a group of two that keeps one copy, with the item alone or not. -/
def look (now : ℕ) (soleHolders : List (ItemId × MemberId)) : Look where
  now := now
  delay := 10
  online _ := true
  soleHolders := soleHolders
  holds _ := false
  store _ := some (some stored)
  group _ := .new 1 ⟨1000, 1, 0⟩ [(here, 500), (holder, 500)]

/-- The item is alone for the delay, and its copy panics; then it has a second copy; then it is
alone again for as long as one likes. -/
def events : List Event :=
  [.gathered (look AVAILABILITY_GATHERED_FOR [(⟨1⟩, holder)]),
    .ripened 10 (look (AVAILABILITY_GATHERED_FOR + 10) [(⟨1⟩, holder)]), .joined 0 .panicked,
    .heard .availabilityChanged 0, .gathered (look (2 * AVAILABILITY_GATHERED_FOR) []),
    .heard .availabilityChanged 0,
    .gathered (look (9 * AVAILABILITY_GATHERED_FOR) [(⟨1⟩, holder)])]

/-- The item is still being copied, and no copy runs. -/
theorem panicked_stays :
    ¬Along (World.step score here)
        (fun world event => CopyingWhileCopied (world.step score here event)) (.started 0) events ∧
      (exec (World.step score here) (.started 0) events).alone[(⟨1⟩ : ItemId)]? = some .copying ∧
      (exec (World.step score here) (.started 0) events).copies.isEmpty = true := by
  refine ⟨fun hwhile => ?_, by decide +kernel, by decide +kernel⟩
  have hthen : CopyingWhileCopied (exec (World.step score here) (.started 0) (events.take 3)) :=
    hwhile.2.2.1
  obtain ⟨task, htask, -⟩ := (hthen ⟨1⟩).mp (by decide +kernel)
  have hnone : (exec (World.step score here) (.started 0) (events.take 3)).copies = ∅ :=
    Std.ExtTreeMap.isEmpty_iff.mp (by decide +kernel)
  rw [hnone] at htask
  simp at htask

end Panicked

end Emergency

end Distlib
