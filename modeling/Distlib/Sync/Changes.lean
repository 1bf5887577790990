import Distlib.Sync.Document

/-!
# What the document is changing

The pump reads the document's events and records what each is about: an item, an
item's bookmarks or a wish, or that some content landed, which names nobody. What it
records goes into one pending batch, coalesced, and the one reader takes all of it at
once. A note of something the batch has already is no news and wakes nobody.

Here is the batch and what a note does to it; the reader, and who waits for whom, is
in `Distlib.Store.InStep`.
-/

namespace Distlib

/-- What the read model reads again as a whole. -/
inductive WorkUnit : Type where
  | item (id : ItemId)
  /-- an item's bookmarks, which are no part of it -/
  | bookmarks (item : ItemId)
  | wish (id : WishId)
  deriving DecidableEq

/-- Everything that changed since the last look. -/
@[ext]
structure Batch where
  items : OrdSet ItemId
  itemsWithChangedBookmarks : OrdSet ItemId
  changedWishes : OrdSet WishId
  /-- some content landed -/
  contentArrived : Bool

/-- What a task has to say of the document. -/
inductive Noted : Type where
  /-- an entry was written or deleted at a key -/
  | entry (key : Bytes)
  /-- some content landed -/
  | content
  deriving DecidableEq

namespace Batch

def empty : Batch := ⟨∅, ∅, ∅, false⟩

/-- Whether there is nothing to do. -/
def isEmpty (batch : Batch) : Bool :=
  batch.items.isEmpty && batch.itemsWithChangedBookmarks.isEmpty && batch.changedWishes.isEmpty &&
    !batch.contentArrived

/-- A batch has a unit in it. -/
def Has (batch : Batch) : WorkUnit → Prop
  | .item id => id ∈ batch.items
  | .bookmarks item => item ∈ batch.itemsWithChangedBookmarks
  | .wish id => id ∈ batch.changedWishes

instance (batch : Batch) : (unit : WorkUnit) → Decidable (batch.Has unit)
  | .item id => inferInstanceAs (Decidable (id ∈ batch.items))
  | .bookmarks item => inferInstanceAs (Decidable (item ∈ batch.itemsWithChangedBookmarks))
  | .wish id => inferInstanceAs (Decidable (id ∈ batch.changedWishes))

/-- Puts a unit in, and says whether that is news. -/
def mark (batch : Batch) : WorkUnit → Batch × Bool
  | .item id => ({ batch with items := batch.items.insert id }, id ∉ batch.items)
  | .bookmarks item =>
    ({ batch with itemsWithChangedBookmarks := batch.itemsWithChangedBookmarks.insert item },
      item ∉ batch.itemsWithChangedBookmarks)
  | .wish id =>
    ({ batch with changedWishes := batch.changedWishes.insert id }, id ∉ batch.changedWishes)

/-- Marks that content landed, and says whether that is news. -/
def markContentLanded (batch : Batch) : Batch × Bool :=
  ({ batch with contentArrived := true }, !batch.contentArrived)

end Batch

section Note

variable (spell : Spellings)

/-- What the entry at a key asks the read model to read again. -/
def unitOf (key : Bytes) : Option WorkUnit :=
  match Key.parse spell key with
  | some parsed => some (.item parsed.item)
  | none =>
    match CommunityKey.parse spell key with
    | some (.rating item _) => some (.item item)
    | some (.review item _) => some (.item item)
    | some (.bookmark item _ _) => some (.bookmarks item)
    | some (.wish wish _) => some (.wish wish)
    | some (.wishComment wish _) => some (.wish wish)
    | some (.probeFailure _ _) => none
    | none => none

/-- Records what a task has to say, and says whether that is news. -/
def note (batch : Batch) : Noted → Batch × Bool
  | .entry key =>
    match unitOf spell key with
    | some unit => batch.mark unit
    | none => (batch, false)
  | .content => batch.markContentLanded

/-- What a note is about. -/
def Noted.unit : Noted → Option WorkUnit
  | .entry key => unitOf spell key
  | .content => none

variable {spell}

namespace Batch

variable (batch : Batch)

theorem has_mark (unit other : WorkUnit) :
    (batch.mark unit).1.Has other ↔ other = unit ∨ batch.Has other := by
  cases unit <;> cases other <;>
    simp only [mark, Has, Std.ExtTreeSet.mem_insert, Std.LawfulEqCmp.compare_eq_iff_eq,
      WorkUnit.item.injEq, WorkUnit.bookmarks.injEq, WorkUnit.wish.injEq, reduceCtorEq, false_or]
  all_goals rw [eq_comm]

theorem contentArrived_mark (unit : WorkUnit) :
    (batch.mark unit).1.contentArrived = batch.contentArrived := by
  cases unit <;> rfl

/-- What is in the batch already is no news. -/
theorem mark_news (unit : WorkUnit) : (batch.mark unit).2 = true ↔ ¬batch.Has unit := by
  cases unit <;> simp [mark, Has]

theorem not_has_empty (unit : WorkUnit) : ¬Batch.empty.Has unit := by
  cases unit <;> simp [Batch.empty, Has]

/-- A batch is empty when nothing is in it. -/
theorem isEmpty_iff : batch.isEmpty = true ↔
    (∀ unit, ¬batch.Has unit) ∧ batch.contentArrived = false := by
  simp only [isEmpty, Bool.and_eq_true, Bool.not_eq_true', Std.ExtTreeSet.isEmpty_iff,
    Std.ExtTreeSet.eq_empty_iff_forall_not_mem]
  constructor
  · rintro ⟨⟨⟨hitems, hbookmarks⟩, hwishes⟩, hcontent⟩
    refine ⟨fun unit => ?_, hcontent⟩
    cases unit with
    | item id => exact hitems id
    | bookmarks item => exact hbookmarks item
    | wish id => exact hwishes id
  · rintro ⟨hnone, hcontent⟩
    exact ⟨⟨⟨fun id => hnone (.item id), fun item => hnone (.bookmarks item)⟩,
      fun id => hnone (.wish id)⟩, hcontent⟩

/-- **What a batch has after a note**: what it had, and what the note is about. -/
theorem has_note (noted : Noted) (unit : WorkUnit) :
    (note spell batch noted).1.Has unit ↔ noted.unit spell = some unit ∨ batch.Has unit := by
  rcases noted with key | _
  · rcases hunit : unitOf spell key with _ | marked
    · simp only [note, Noted.unit, hunit, reduceCtorEq, false_or]
    · simp only [note, Noted.unit, hunit, batch.has_mark, Option.some.injEq, eq_comm]
  · have hnobody : Noted.content.unit spell = none := rfl
    rw [hnobody]
    cases unit <;> simp [note, markContentLanded, Has]

theorem contentArrived_note (noted : Noted) :
    (note spell batch noted).1.contentArrived = true ↔
      noted = .content ∨ batch.contentArrived = true := by
  rcases noted with key | _
  · rcases hunit : unitOf spell key with _ | marked
    · simp only [note, hunit, reduceCtorEq, false_or]
    · simp only [note, hunit, batch.contentArrived_mark, reduceCtorEq, false_or]
  · simp only [note, markContentLanded, true_or]

/-- What makes an empty batch another is news. -/
theorem note_news_of_empty {batch : Batch} {noted : Noted} (hempty : batch.isEmpty = true)
    (h : (note spell batch noted).1.isEmpty = false) : (note spell batch noted).2 = true := by
  obtain ⟨hnone, hcontent⟩ := batch.isEmpty_iff.mp hempty
  rcases noted with key | _
  · rcases hunit : unitOf spell key with _ | unit
    · simp only [note, hunit, hempty, Bool.true_eq_false] at h
    · simp only [note, hunit]
      exact (batch.mark_news unit).mpr (hnone unit)
  · simp only [note, markContentLanded, hcontent, Bool.not_false]

end Batch

end Note

end Distlib
