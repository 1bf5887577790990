import Distlib.Core.Catalogue
import Distlib.Custody.Storage

/-!
# What a node says it holds

A node announces the items it holds: those every content file of which is here and
kept by a tag of the item. `recheck` works that out again for one item. It lists the
item's tags reason by reason, asks for each content file and then writes its verdict;
other work goes on at each of these awaits. An eviction drops an item's cache tags one
by one and then forgets the item.

A recheck that listed the cache tags before an eviction dropped them may write its
verdict after the eviction forgot the item. The item is then announced, and nothing
keeps it (`held_and_not_kept`). What has to be so for that not to happen is
`Undisturbed`, and under it `held_is_kept` is the main result: whenever no call is
under way, every item held has each of its content files kept.

`Covered` carries the proof: a file of an item is covered while a tag keeps it or an
eviction that is going to forget the item is under way.
-/

namespace Distlib

open GuardedRun

namespace Recheck

/-- What a recheck reads of an item. -/
structure ItemFiles where
  id : ItemId
  files : List (ContentHash × FileRole)
  deriving DecidableEq

/-- The content files of an item. -/
def ItemFiles.content (item : ItemFiles) : List ContentHash :=
  (item.files.filter fun file => file.2 = .content).map Prod.fst

/-- A call that is under way, by what it awaits next. -/
inductive Call : Type where
  | idle
  /-- a recheck lists the item's tags: the reasons still to list, and what is kept so far -/
  | listing (item : ItemFiles) (reasons : List KeepReason) (kept : List ContentHash)
  /-- all files are kept: a recheck asks whether these are here -/
  | asking (item : ItemFiles) (left : List ContentHash)
  /-- an eviction: the blobs whose cache tags are still to be dropped, once they are
  listed, and whether one was dropped -/
  | evicting (item : ItemId) (left : Option (List ContentHash)) (dropped : Bool)
  deriving DecidableEq

/-- The store, the items held, and what each task is doing. -/
structure World (ι : Type*) where
  tags : Tags
  status : ContentHash → BlobStatus
  held : Finset ItemId
  /-- the content files of an item as it was last rechecked -/
  checked : ItemId → List ContentHash
  calls : ι → Call

/-- One thing that happens. -/
inductive Event (ι : Type*) : Type _ where
  | rechecks (i : ι) (item : ItemFiles)
  | evicts (i : ι) (item : ItemId)
  /-- a call goes on until it awaits again, or to its end -/
  | goesOn (i : ι)
  /-- what a call awaits fails, and the call ends there -/
  | fails (i : ι)
  /-- somebody keeps a blob -/
  | keeps (tag : Tag)
  /-- bytes of a blob arrive, or a collection deletes it -/
  | bytes (blob : ContentHash) (status : BlobStatus)

def Event.isFailure {ι : Type*} : Event ι → Bool
  | .fails _ => true
  | _ => false

namespace World

variable {ι : Type*} [DecidableEq ι]

def called (world : World ι) (i : ι) (call : Call) : World ι :=
  { world with calls := Function.update world.calls i call }

/-- A recheck writes its verdict. -/
def verdict (world : World ι) (i : ι) (item : ItemFiles) (held : Bool) : World ι :=
  { world with
    held := if held then insert item.id world.held else world.held.erase item.id
    checked := Function.update world.checked item.id item.content }.called i .idle

/-- A call goes on. -/
def goOn (world : World ι) (i : ι) : World ι :=
  match world.calls i with
  | .idle => world
  | .listing item (reason :: reasons) kept =>
    world.called i (.listing item reasons (kept ++ world.tags.keptFor reason item.id))
  | .listing item [] kept =>
    if item.content ≠ [] ∧ ∀ blob ∈ item.content, blob ∈ kept then
      world.called i (.asking item item.content)
    else world.verdict i item false
  | .asking item (blob :: left) =>
    if (world.status blob).isComplete then world.called i (.asking item left)
    else world.verdict i item false
  | .asking item [] => world.verdict i item true
  | .evicting item none dropped =>
    world.called i (.evicting item (some (world.tags.keptFor .cache item)) dropped)
  | .evicting item (some (blob :: left)) _ =>
    { world with tags := world.tags.release ⟨.cache, item, blob⟩ }.called i
      (.evicting item (some left) true)
  | .evicting item (some []) _ =>
    -- `forget`
    { world with held := world.held.erase item }.called i .idle

def step (world : World ι) : Event ι → World ι
  | .rechecks i item =>
    if world.calls i = .idle then world.called i (.listing item KeepReason.all []) else world
  | .evicts i item =>
    if world.calls i = .idle then world.called i (.evicting item none false) else world
  | .goesOn i => world.goOn i
  | .fails i => world.called i .idle
  | .keeps tag => { world with tags := world.tags.keep tag }
  | .bytes blob status => { world with status := Function.update world.status blob status }

/-- Every item held has each of its content files kept, as it was last rechecked. -/
def HeldKept (world : World ι) : Prop :=
  ∀ item ∈ world.held, ∀ blob ∈ world.checked item, ∃ reason, ⟨reason, item, blob⟩ ∈ world.tags

end World

/-- The item an eviction that dropped a tag forgets next. -/
def Call.forgets : Call → Option ItemId
  | .evicting item (some []) true => some item
  | _ => none

/-- Whether a recheck of `item` has its cache tags listed and no verdict yet. -/
def Call.listed (item : ItemId) : Call → Bool
  | .listing checked reasons _ => checked.id = item && .cache ∉ reasons
  | .asking checked _ => checked.id = item
  | .idle | .evicting .. => false

/-- Whether an eviction has dropped a tag. -/
def Call.dropped : Call → Bool
  | .evicting _ _ dropped => dropped
  | _ => false

/-- The condition of a step: an eviction that dropped a tag does not fail, and does not
forget its item while a recheck that listed the item's cache tags is under way. -/
def Undisturbed {ι : Type*} (world : World ι) : Event ι → Prop
  | .goesOn i => ∀ item ∈ (world.calls i).forgets, ∀ j, (world.calls j).listed item = false
  | .fails i => (world.calls i).dropped = false
  | _ => True

/-! ## What covers a file -/

/-- A tag keeps the file for the item, or an eviction is under way that has dropped tags
of the item and is going to forget it. -/
def Covered {ι : Type*} (world : World ι) (item : ItemId) (blob : ContentHash) : Prop :=
  (∃ reason, ⟨reason, item, blob⟩ ∈ world.tags) ∨
    ∃ i left, world.calls i = .evicting item left true

/-- What a call under way relies on. -/
def Call.Sound {ι : Type*} (world : World ι) : Call → Prop
  | .listing item reasons kept => reasons.Nodup ∧ ∀ blob ∈ kept, Covered world item.id blob ∧
    -- until the cache is listed, what was found cannot be evicted
    (.cache ∈ reasons → ∃ reason, reason ≠ .cache ∧ ⟨reason, item.id, blob⟩ ∈ world.tags)
  | .asking item _ => ∀ blob ∈ item.content, Covered world item.id blob
  | .idle | .evicting .. => True

/-- What holds at every moment. -/
structure Inv {ι : Type*} (world : World ι) : Prop where
  held : ∀ item ∈ world.held, ∀ blob ∈ world.checked item, Covered world item blob
  calls : ∀ i, (world.calls i).Sound world

section Moves

variable {ι : Type*} {world next : World ι} {i : ι} {call : Call} {item : ItemId}
  {blob : ContentHash}

/-- What is covered stays so where no tag but a cache tag goes, and none without an
eviction that says so. -/
theorem Call.Sound.mono (h : call.Sound world)
    (hcovered : ∀ item blob, Covered world item blob → call.listed item = true →
      Covered next item blob)
    (htags : ∀ tag ∈ world.tags, tag.reason ≠ .cache → tag ∈ next.tags) : call.Sound next := by
  cases call with
  | listing checked reasons kept =>
    obtain ⟨hnodup, hkept⟩ := h
    refine ⟨hnodup, fun blob hblob => ?_⟩
    obtain ⟨hcover, hmandatory⟩ := hkept blob hblob
    by_cases hcache : KeepReason.cache ∈ reasons
    · obtain ⟨reason, hne, htag⟩ := hmandatory hcache
      have hstays := htags _ htag hne
      exact ⟨Or.inl ⟨reason, hstays⟩, fun _ => ⟨reason, hne, hstays⟩⟩
    · exact ⟨hcovered _ _ hcover (by simp [Call.listed, hcache]), fun h => absurd h hcache⟩
  | asking checked left =>
    exact fun blob hblob => hcovered _ _ (h blob hblob) (by simp [Call.listed])
  | idle => trivial
  | evicting item left dropped => trivial

/-- What is covered stays so when task `i` moves on: its tags stay, or are dropped by an
eviction that says so, and an eviction under way goes on. -/
theorem Covered.move [DecidableEq ι] (h : Covered world item blob)
    (hcalls : next.calls = Function.update world.calls i call)
    (htags : ∀ reason, ⟨reason, item, blob⟩ ∈ world.tags →
      ⟨reason, item, blob⟩ ∈ next.tags ∨ ∃ left, call = .evicting item left true)
    (hgoes : ∀ left, world.calls i = .evicting item left true →
      ∃ left, call = .evicting item left true) : Covered next item blob := by
  have hevicts : (∃ left, call = .evicting item left true) → Covered next item blob := by
    rintro ⟨left, rfl⟩
    exact Or.inr ⟨i, left, by rw [hcalls, Function.update_self]⟩
  rcases h with ⟨reason, htag⟩ | ⟨j, left, hj⟩
  · rcases htags reason htag with hstays | hdropped
    · exact Or.inl ⟨reason, hstays⟩
    · exact hevicts hdropped
  · by_cases heq : j = i
    · exact hevicts (hgoes left (heq ▸ hj))
    · exact Or.inr ⟨j, left, by rw [hcalls, Function.update_of_ne heq, hj]⟩

/-- Task `i` moves on to `call`. -/
theorem Inv.move [DecidableEq ι] (h : Inv world)
    (hcalls : next.calls = Function.update world.calls i call) (hsound : call.Sound next)
    (htags : ∀ tag ∈ world.tags, tag.reason ≠ .cache → tag ∈ next.tags)
    (hcovered : ∀ item blob, Covered world item blob →
      (item ∈ next.held ∨ ∃ j, j ≠ i ∧ (world.calls j).listed item = true) →
      Covered next item blob)
    (hheld : ∀ item ∈ next.held, ∀ blob ∈ next.checked item, Covered world item blob) :
    Inv next where
  held item hitem blob hblob := hcovered item blob (hheld item hitem blob hblob) (Or.inl hitem)
  calls j := by
    by_cases heq : j = i
    · obtain rfl := heq
      rw [hcalls, Function.update_self]
      exact hsound
    · rw [hcalls, Function.update_of_ne heq]
      exact (h.calls j).mono (fun item blob hcover hlisted =>
        hcovered item blob hcover (Or.inr ⟨j, heq, hlisted⟩)) htags

/-- A task that is not an eviction under way takes up a call, or drops it. -/
theorem Inv.called [DecidableEq ι] (h : Inv world) (hquiet : (world.calls i).dropped = false)
    (hsound : call.Sound (world.called i call)) : Inv (world.called i call) := by
  refine h.move rfl hsound (fun tag htag _ => htag) (fun item blob hcover _ => ?_) h.held
  refine hcover.move rfl (fun reason htag => Or.inl htag) fun left hleft => ?_
  rw [hleft] at hquiet
  cases hquiet

/-- A recheck writes its verdict. -/
theorem Inv.verdict [DecidableEq ι] (h : Inv world) {item : ItemFiles} {held : Bool}
    (hquiet : (world.calls i).dropped = false)
    (hfiles : held = true → ∀ blob ∈ item.content, Covered world item.id blob) :
    Inv (world.verdict i item held) := by
  refine h.move rfl trivial (fun tag htag _ => htag) (fun other blob hcover _ => ?_) ?_
  · refine hcover.move rfl (fun reason htag => Or.inl htag) fun left hleft => ?_
    rw [hleft] at hquiet
    cases hquiet
  · intro other hother blob hblob
    simp only [World.verdict, World.called] at hother hblob
    by_cases heq : other = item.id
    · obtain rfl := heq
      rw [Function.update_self] at hblob
      cases held with
      | false => simp at hother
      | true => exact hfiles rfl blob hblob
    · rw [Function.update_of_ne heq] at hblob
      refine h.held other ?_ blob hblob
      cases held <;> simpa [heq] using hother

end Moves

section Step

variable {ι : Type*} [DecidableEq ι] {world : World ι}

/-- A call goes on. -/
theorem Inv.goOn (h : Inv world) (i : ι) (hok : Undisturbed world (.goesOn i)) :
    Inv (world.goOn i) := by
  have hsound := h.calls i
  rw [World.goOn]
  split
  case h_1 => exact h
  case h_2 item reason reasons kept hcall =>
    rw [hcall] at hsound
    obtain ⟨hnodup, hkept⟩ := hsound
    obtain ⟨hnew, hnodup⟩ := List.nodup_cons.mp hnodup
    refine h.called (by rw [hcall]; rfl) ⟨hnodup, fun blob hblob => ?_⟩
    rcases List.mem_append.mp hblob with hbefore | hlisted
    · obtain ⟨hcover, hmandatory⟩ := hkept blob hbefore
      refine ⟨hcover.move rfl (fun _ htag => Or.inl htag) fun left hleft => ?_,
        fun hcache => hmandatory (List.mem_cons_of_mem _ hcache)⟩
      rw [hcall] at hleft
      cases hleft
    · have htag := Tags.mem_keptFor.mp hlisted
      exact ⟨Or.inl ⟨reason, htag⟩, fun hcache => ⟨reason, fun heq => hnew (heq ▸ hcache), htag⟩⟩
  case h_3 item kept hcall =>
    rw [hcall] at hsound
    have hquiet : (world.calls i).dropped = false := by rw [hcall]; rfl
    split
    · rename_i hall
      refine h.called hquiet fun blob hblob => ?_
      refine (hsound.2 blob (hall.2 blob hblob)).1.move rfl (fun _ htag => Or.inl htag)
        fun left hleft => ?_
      rw [hcall] at hleft
      cases hleft
    · exact h.verdict hquiet fun hfalse => by cases hfalse
  case h_4 item blob left hcall =>
    rw [hcall] at hsound
    have hquiet : (world.calls i).dropped = false := by rw [hcall]; rfl
    split
    · refine h.called hquiet fun other hother => ?_
      refine (hsound other hother).move rfl (fun _ htag => Or.inl htag) fun left' hleft => ?_
      rw [hcall] at hleft
      cases hleft
    · exact h.verdict hquiet fun hfalse => by cases hfalse
  case h_5 item hcall =>
    rw [hcall] at hsound
    exact h.verdict (by rw [hcall]; rfl) fun _ => hsound
  case h_6 item dropped hcall =>
    refine h.move rfl trivial (fun tag htag _ => htag) (fun other blob hcover _ => ?_) h.held
    refine hcover.move rfl (fun _ htag => Or.inl htag) fun left hleft => ?_
    obtain ⟨rfl, -, rfl⟩ : item = other ∧ none = left ∧ dropped = true := by
      simpa [hcall] using hleft
    exact ⟨_, rfl⟩
  case h_7 item blob left dropped hcall =>
    refine h.move rfl trivial (fun tag htag hmandatory => ?_) (fun other named hcover _ => ?_) h.held
    · refine Tags.mem_release.mpr ⟨?_, htag⟩
      rintro rfl
      exact hmandatory rfl
    · refine hcover.move rfl (fun reason htag => ?_) fun left' hleft => ?_
      · by_cases heq : (⟨reason, other, named⟩ : Tag) = ⟨.cache, item, blob⟩
        · obtain ⟨-, rfl, -⟩ := Tag.mk.inj heq
          exact Or.inr ⟨_, rfl⟩
        · exact Or.inl (Tags.mem_release.mpr ⟨heq, htag⟩)
      · obtain ⟨rfl, -, -⟩ : item = other ∧ some (blob :: left) = left' ∧ dropped = true := by
          simpa [hcall] using hleft
        exact ⟨_, rfl⟩
  case h_8 item dropped hcall =>
    refine h.move rfl trivial (fun tag htag _ => htag) (fun other blob hcover hneeded => ?_)
      fun other hother => h.held other (Finset.mem_of_mem_erase hother)
    refine hcover.move rfl (fun _ htag => Or.inl htag) fun left hleft => ?_
    obtain ⟨rfl, -, rfl⟩ : item = other ∧ some [] = left ∧ dropped = true := by
      simpa [hcall] using hleft
    -- the item forgotten is not held, and nobody has listed its cache tags
    exfalso
    rcases hneeded with hheld | ⟨j, -, hlisted⟩
    · simp [World.called] at hheld
    · have hnone := hok item (by rw [hcall]; rfl) j
      rw [hlisted] at hnone
      cases hnone

theorem Inv.step (h : Inv world) (event : Event ι) (hok : Undisturbed world event) :
    Inv (world.step event) := by
  cases event with
  | rechecks i item =>
    rw [World.step]
    split
    · rename_i hidle
      exact h.called (by rw [hidle]; rfl) ⟨by decide, by simp⟩
    · exact h
  | evicts i item =>
    rw [World.step]
    split
    · rename_i hidle
      exact h.called (by rw [hidle]; rfl) trivial
    · exact h
  | goesOn i => exact h.goOn i hok
  | fails i => exact h.called hok trivial
  | keeps tag =>
    have hcovered : ∀ item blob, Covered world item blob →
        Covered (world.step (.keeps tag)) item blob := fun item blob hcover =>
      hcover.imp (fun ⟨reason, hmem⟩ => ⟨reason, Tags.mem_keep.mpr (Or.inr hmem)⟩) id
    exact ⟨fun item hitem blob hblob => hcovered _ _ (h.held item hitem blob hblob),
      fun i => (h.calls i).mono (fun item blob hcover _ => hcovered item blob hcover)
        fun tag htag _ => Tags.mem_keep.mpr (Or.inr htag)⟩
  | bytes blob status =>
    exact ⟨h.held, fun i => (h.calls i).mono (fun _ _ hcover _ => hcover) fun _ htag _ => htag⟩

/-- **What is held is kept.** Any rechecks, evictions and tag writes, any interleaving:
if no eviction forgets an item under a recheck that has listed its cache tags, then
whenever no call is under way every item held has each of its content files kept. -/
theorem held_is_kept (world : World ι) (events : List (Event ι))
    (hidle : ∀ i, world.calls i = .idle) (hheld : world.HeldKept)
    (hok : Along World.step Undisturbed world events)
    (hdone : ∀ i, (exec World.step world events).calls i = .idle) :
    (exec World.step world events).HeldKept := by
  have hinit : Inv world :=
    ⟨fun item hitem blob hblob => Or.inl (hheld item hitem blob hblob), fun i => by
      rw [hidle i]
      trivial⟩
  have hend : Inv (exec World.step world events) :=
    hok.invariant (fun _ event h hok => h.step event hok) hinit
  intro item hitem blob hblob
  rcases hend.held item hitem blob hblob with hkept | ⟨i, left, hevicts⟩
  · exact hkept
  · rw [hdone i] at hevicts
    cases hevicts

end Step

/-! ## An item of one cached file -/

section CachedBook

/-- An item of one file of content and a cover. -/
def book : ItemFiles := ⟨⟨1⟩, [(⟨11⟩, .content), (⟨12⟩, .cover)]⟩

/-- The book is cached and not yet announced. -/
def cachedBook : World Bool where
  tags := ⟨[⟨.cache, ⟨1⟩, ⟨11⟩⟩], List.nodup_singleton _⟩
  status := fun _ => .complete 5
  held := ∅
  checked := fun _ => []
  calls := fun _ => .idle

/-- A task goes on this many times. -/
def goesOnFor (i : Bool) (count : ℕ) : List (Event Bool) := List.replicate count (.goesOn i)

/-- The book is rechecked, and evicted when that is done. -/
def evictedAfter : List (Event Bool) :=
  .rechecks true book :: goesOnFor true 6 ++ .evicts false ⟨1⟩ :: goesOnFor false 3

/-- The recheck has listed the tags when the book is evicted. -/
def evictedMeanwhile : List (Event Bool) :=
  List.flatten [[.rechecks true book], goesOnFor true 3, [.evicts false ⟨1⟩], goesOnFor false 3,
    goesOnFor true 3]

instance (world : World Bool) : ∀ event : Event Bool, Decidable (Undisturbed world event)
  | .goesOn i => inferInstanceAs (Decidable (∀ item ∈ (world.calls i).forgets, ∀ j,
      (world.calls j).listed item = false))
  | .fails i => inferInstanceAs (Decidable ((world.calls i).dropped = false))
  | .rechecks .. | .evicts .. | .keeps _ | .bytes .. => inferInstanceAs (Decidable True)

/-- Nothing is announced of a book evicted after its recheck. -/
theorem held_is_kept_evicted_after : (exec World.step cachedBook evictedAfter).HeldKept :=
  held_is_kept cachedBook evictedAfter (fun _ => rfl) (fun item hitem => by simp [cachedBook] at hitem)
    (by decide +kernel) (by decide +kernel)

/-- **A book may be announced that nothing keeps.** Its recheck listed the cache tag, the
eviction dropped the tag and forgot the book, and then the recheck wrote that it is
held. Nothing failed, no call is under way, and no tag is left. -/
theorem held_and_not_kept :
    ¬ ∀ (world : World Bool) (events : List (Event Bool)), (∀ i, world.calls i = .idle) →
      world.HeldKept → (∀ event ∈ events, event.isFailure = false) →
      (∀ i, (exec World.step world events).calls i = .idle) →
      (exec World.step world events).HeldKept := by
  intro hclaim
  have hkept := hclaim cachedBook evictedMeanwhile (fun _ => rfl)
    (fun item hitem => by simp [cachedBook] at hitem) (by decide +kernel) (by decide +kernel)
  have hheld : (⟨1⟩ : ItemId) ∈ (exec World.step cachedBook evictedMeanwhile).held := by
    decide +kernel
  have hfile : (⟨11⟩ : ContentHash) ∈ (exec World.step cachedBook evictedMeanwhile).checked ⟨1⟩ := by
    decide +kernel
  have hnone : (exec World.step cachedBook evictedMeanwhile).tags.list = [] := by decide +kernel
  obtain ⟨reason, htag⟩ := hkept _ hheld _ hfile
  have hmem : (⟨reason, ⟨1⟩, ⟨11⟩⟩ : Tag) ∈ (exec World.step cachedBook evictedMeanwhile).tags.list :=
    htag
  rw [hnone] at hmem
  cases hmem

end CachedBook

end Recheck
end Distlib
