import Distlib.Core.Entries
import Distlib.Store.Projection

/-!
# What a replay leaves behind

A replay reads everything its three listings name and writes those rows over what the
tables held. What it computes for a listed id is a function of the document and the
members; an id that is not listed keeps the rows it had. So the rows of an item whose
own entries are all gone, of an item whose last bookmark was deleted and of a wish
whose last entry was, stay in the tables of a node that was not running when it
happened, and a node that starts with empty tables has none. An id is left out as well
when the newest entry at its only key is somebody else's deletion, with the member's
own entry still there to be read.

The comment on the cold start says what the replay is for: "these tables are a function
of the document rather than of everything this node has ever seen". That is so exactly
if the tables were right, before the replay, about every id that is left out
(`Stood`, `replay_iff_stood`).
-/

namespace Distlib

/-! ## Folds that overwrite -/

section Folds

variable {W K R : Type*} {step : W → K → W}

/-- What a step does not touch, a fold does not touch. -/
theorem foldl_keeps {f : W → R} (hstep : ∀ w k, f (step w k) = f w) (ks : List K) :
    ∀ (w : W), f (ks.foldl step w) = f w := by
  induction ks with
  | nil => intro w; rfl
  | cons k ks ih => intro w; exact (ih (step w k)).trans (hstep w k)

/-- A step rewrites the rows of one key, by a function of the key that undoes what it
did before: a fold rewrites the rows of every key it meets, once. -/
theorem foldl_rewrites [DecidableEq K] (rows : W → K → R) (write : K → R → R) (Kept : W → Prop)
    (hkept : ∀ w k, Kept w → Kept (step w k))
    (hrows : ∀ w k j, Kept w → rows (step w k) j = if j = k then write k (rows w k) else rows w j)
    (hagain : ∀ k r, write k (write k r) = write k r) (ks : List K) :
    ∀ (w : W) (j : K), Kept w →
      rows (ks.foldl step w) j = if j ∈ ks then write j (rows w j) else rows w j := by
  induction ks with
  | nil => intro w j _; simp
  | cons k ks ih =>
    intro w j hw
    rw [List.foldl_cons, ih _ j (hkept w k hw), hrows w k j hw]
    by_cases hj : j = k
    · subst hj
      simp [hagain]
    · simp [hj]

end Folds

section Replay

variable {spell : Spellings} {serde : Serde} {iroh : Iroh} {catalogue : Catalogue}

/-! ## The item a read is of -/

theorem readItem_id {id : ItemId} {answers : ItemAnswers} {read : ReadItem}
    (h : readItem spell serde iroh id answers = some read) : read.item.id = id := by
  rw [readItem] at h
  split at h
  · cases h
  · obtain rfl := Option.some.inj h
    refine foldl_keeps (f := Item.id) (fun item answer => ?_) answers.own (Item.new id)
    rcases answer.2 with _ | value
    · rfl
    · exact (Item.said_absorb spell serde.toItemSerde item answer.1.key value).1

/-! ## Each pass -/

namespace ReadModelWriter

variable (writer : ReadModelWriter serde)

/-- Items are what the first pass writes; it leaves the rest. -/
theorem takeItem_frame (id : ItemId) (fails : Bool) (read : Option ReadItem) :
    (writer.takeItem id fails read).tables.bookmarks = writer.tables.bookmarks ∧
      (writer.takeItem id fails read).tables.wishes = writer.tables.wishes ∧
      (writer.takeItem id fails read).members = writer.members := by
  rcases read with _ | read
  · exact ⟨rfl, rfl, rfl⟩
  · rw [takeItem]
    cases fails <;> exact ⟨rfl, rfl, rfl⟩

theorem takeItem_items {id : ItemId} (read : Option ReadItem)
    (hread : ∀ found ∈ read, found.item.id = id) (j : ItemId) :
    (writer.takeItem id false read).tables.items j =
      if j = id then (read.map (ReadItem.stored writer.members)).or (writer.tables.items j)
      else writer.tables.items j := by
  rcases read with _ | read
  · simp [takeItem]
  · have hid : (read.stored writer.members).item.id = id := hread read rfl
    simp only [takeItem, Tables.upsertItem, hid, Function.update_apply, Option.map_some,
      Option.some_or, Bool.false_eq_true, if_false]

theorem projectItems_items (items : List ItemId) (j : ItemId) :
    (writer.projectItems spell iroh .none catalogue items).tables.items j =
      if j ∈ items then
        ((catalogue.readItem spell serde iroh j).map (ReadItem.stored writer.members)).or
          (writer.tables.items j)
      else writer.tables.items j := by
  refine foldl_rewrites (fun w : ReadModelWriter serde => w.tables.items)
    (fun id old =>
      ((catalogue.readItem spell serde iroh id).map (ReadItem.stored writer.members)).or old)
    (fun w => w.members = writer.members) ?_ ?_ ?_ items writer j rfl
  · intro w id hw
    exact (takeItem_frame w id false _).2.2.trans hw
  · intro w id j hw
    have hread := takeItem_items w (catalogue.readItem spell serde iroh id)
      (fun found hfound => readItem_id hfound) j
    rw [hw] at hread
    refine hread.trans ?_
    split
    · rename_i hj
      rw [hj]
    · rfl
  · intro id old
    rw [← Option.or_assoc, Option.or_self]

theorem projectItems_frame (items : List ItemId) :
    (writer.projectItems spell iroh .none catalogue items).tables.bookmarks =
        writer.tables.bookmarks ∧
      (writer.projectItems spell iroh .none catalogue items).tables.wishes =
        writer.tables.wishes ∧
      (writer.projectItems spell iroh .none catalogue items).members = writer.members :=
  ⟨foldl_keeps (f := fun w : ReadModelWriter serde => w.tables.bookmarks)
      (fun w id => (takeItem_frame w id false _).1) items writer,
    foldl_keeps (f := fun w : ReadModelWriter serde => w.tables.wishes)
      (fun w id => (takeItem_frame w id false _).2.1) items writer,
    foldl_keeps (f := fun w : ReadModelWriter serde => w.members)
      (fun w id => (takeItem_frame w id false _).2.2) items writer⟩

/-- Bookmarks are what the second pass writes. -/
theorem projectBookmarks_frame (items : List ItemId) :
    (writer.projectBookmarks spell iroh .none catalogue items).tables.items = writer.tables.items ∧
      (writer.projectBookmarks spell iroh .none catalogue items).tables.wishes =
        writer.tables.wishes ∧
      (writer.projectBookmarks spell iroh .none catalogue items).members = writer.members := by
  rw [projectBookmarks]
  refine ⟨foldl_keeps (f := fun w : ReadModelWriter serde => w.tables.items) ?_ items writer,
    foldl_keeps (f := fun w : ReadModelWriter serde => w.tables.wishes) ?_ items writer,
    foldl_keeps (f := fun w : ReadModelWriter serde => w.members) ?_ items writer⟩
  all_goals exact fun _ _ => rfl

theorem projectBookmarks_bookmarks (items : List ItemId) (j : ItemId) :
    (writer.projectBookmarks spell iroh .none catalogue items).tables.bookmarks j =
      if j ∈ items then (catalogue.readBookmarks spell serde iroh j).stored writer.members
      else writer.tables.bookmarks j := by
  rw [projectBookmarks]
  refine foldl_rewrites (fun w : ReadModelWriter serde => w.tables.bookmarks)
    (fun item _ => (catalogue.readBookmarks spell serde iroh item).stored writer.members)
    (fun w => w.members = writer.members) ?_ ?_ (fun _ _ => rfl) items writer j rfl
  · exact fun _ _ hw => hw
  · intro w item j hw
    rw [← hw]
    exact Function.update_apply ..

/-- Wishes are what the third pass writes. -/
theorem projectWishes_frame (wishes : List WishId) :
    (writer.projectWishes spell iroh .none catalogue wishes).tables.items = writer.tables.items ∧
      (writer.projectWishes spell iroh .none catalogue wishes).tables.bookmarks =
        writer.tables.bookmarks := by
  rw [projectWishes]
  refine ⟨foldl_keeps (f := fun w : ReadModelWriter serde => w.tables.items) ?_ wishes writer,
    foldl_keeps (f := fun w : ReadModelWriter serde => w.tables.bookmarks) ?_ wishes writer⟩
  all_goals exact fun _ _ => rfl

theorem projectWishes_wishes (wishes : List WishId) (j : WishId) :
    (writer.projectWishes spell iroh .none catalogue wishes).tables.wishes j =
      if j ∈ wishes then (catalogue.readWish spell serde iroh j).stored writer.members
      else writer.tables.wishes j := by
  rw [projectWishes]
  refine foldl_rewrites (fun w : ReadModelWriter serde => w.tables.wishes)
    (fun wish _ => (catalogue.readWish spell serde iroh wish).stored writer.members)
    (fun w => w.members = writer.members) ?_ ?_ (fun _ _ => rfl) wishes writer j rfl
  · exact fun _ _ hw => hw
  · intro w wish j hw
    rw [← hw]
    exact Function.update_apply ..

/-! ## The replay -/

/-- **An item's rows after a replay**: what its read gives, if it is listed and there
is an item to read. -/
theorem replay_items (spell : Spellings) (iroh : Iroh) (catalogue : Catalogue) (id : ItemId) :
    (writer.replay spell iroh .none catalogue).tables.items id =
      if id ∈ catalogue.itemIds spell iroh then
        ((projection spell serde iroh catalogue writer.members).items id).or (writer.tables.items id)
      else writer.tables.items id := by
  rw [replay, if_neg (by decide)]
  dsimp only
  rw [(projectWishes_frame _ _).1, (projectBookmarks_frame _ _).1, projectItems_items]
  simp only [Std.ExtTreeSet.mem_toList, projection]

/-- **An item's bookmarks after a replay**: what is read of them, if one is listed. -/
theorem replay_bookmarks (spell : Spellings) (iroh : Iroh) (catalogue : Catalogue) (item : ItemId) :
    (writer.replay spell iroh .none catalogue).tables.bookmarks item =
      if item ∈ catalogue.bookmarkedItemIds spell iroh then
        (projection spell serde iroh catalogue writer.members).bookmarks item
      else writer.tables.bookmarks item := by
  rw [replay, if_neg (by decide)]
  dsimp only
  rw [(projectWishes_frame _ _).2, projectBookmarks_bookmarks, (projectItems_frame writer _).1,
    (projectItems_frame writer _).2.2]
  simp only [Std.ExtTreeSet.mem_toList, projection]

/-- **A wish's rows after a replay**: what is read of it, if an entry of it is listed. -/
theorem replay_wishes (spell : Spellings) (iroh : Iroh) (catalogue : Catalogue) (wish : WishId) :
    (writer.replay spell iroh .none catalogue).tables.wishes wish =
      if wish ∈ catalogue.wishIds spell iroh then
        (projection spell serde iroh catalogue writer.members).wishes wish
      else writer.tables.wishes wish := by
  rw [replay, if_neg (by decide)]
  dsimp only
  rw [projectWishes_wishes, (projectBookmarks_frame _ _).2.1, (projectBookmarks_frame _ _).2.2,
    (projectItems_frame writer _).2.1, (projectItems_frame writer _).2.2]
  simp only [Std.ExtTreeSet.mem_toList, projection]

end ReadModelWriter

/-- The tables are right about everything a replay of the document leaves out: the
items without a listed entry or without one that is read, and the bookmarks and wishes
without a listed entry. -/
structure Stood (spell : Spellings) (serde : Serde) (iroh : Iroh) (catalogue : Catalogue)
    (members : Finset MemberId) (tables : Tables serde) : Prop where
  items : ∀ id, id ∉ catalogue.itemIds spell iroh ∨ catalogue.readItem spell serde iroh id = none →
    tables.items id = (projection spell serde iroh catalogue members).items id
  bookmarks : ∀ item, item ∉ catalogue.bookmarkedItemIds spell iroh →
    tables.bookmarks item = (projection spell serde iroh catalogue members).bookmarks item
  wishes : ∀ wish, wish ∉ catalogue.wishIds spell iroh →
    tables.wishes wish = (projection spell serde iroh catalogue members).wishes wish

/-- **A replay gives the projection exactly where the tables stood.** Whatever the
document, the members and the tables before, the rows after a replay in which nothing
fails are the projection of the document and the members if and only if the tables
already were, for everything the listings leave out. -/
theorem replay_iff_stood (spell : Spellings) (serde : Serde) (iroh : Iroh) (catalogue : Catalogue)
    (writer : ReadModelWriter serde) :
    (writer.replay spell iroh .none catalogue).tables =
        projection spell serde iroh catalogue writer.members ↔
      Stood spell serde iroh catalogue writer.members writer.tables := by
  constructor
  · intro h
    refine ⟨fun id hleft => ?_, fun item hleft => ?_, fun wish hleft => ?_⟩
    · have hrow := writer.replay_items spell iroh catalogue id
      rw [h] at hrow
      rcases hleft with hunlisted | hunread
      · rw [hrow, if_neg hunlisted]
      · have hnone : (projection spell serde iroh catalogue writer.members).items id = none :=
          congrArg (Option.map _) hunread
        rw [hnone, Option.none_or, ite_self] at hrow
        rw [hnone, hrow]
    · have hrow := writer.replay_bookmarks spell iroh catalogue item
      rw [h, if_neg hleft] at hrow
      exact hrow.symm
    · have hrow := writer.replay_wishes spell iroh catalogue wish
      rw [h, if_neg hleft] at hrow
      exact hrow.symm
  · intro h
    have hitems : (writer.replay spell iroh .none catalogue).tables.items =
        (projection spell serde iroh catalogue writer.members).items := by
      funext id
      rw [writer.replay_items]
      split
      · rcases hread : catalogue.readItem spell serde iroh id with _ | read
        · rw [h.items id (Or.inr hread), Option.or_self]
        · have hsome : (projection spell serde iroh catalogue writer.members).items id =
              some (read.stored writer.members) := congrArg (Option.map _) hread
          rw [hsome, Option.some_or]
      · rename_i hunlisted
        exact h.items id (Or.inl hunlisted)
    have hbookmarks : (writer.replay spell iroh .none catalogue).tables.bookmarks =
        (projection spell serde iroh catalogue writer.members).bookmarks := by
      funext item
      rw [writer.replay_bookmarks]
      split
      · rfl
      · rename_i hunlisted
        exact h.bookmarks item hunlisted
    have hwishes : (writer.replay spell iroh .none catalogue).tables.wishes =
        (projection spell serde iroh catalogue writer.members).wishes := by
      funext wish
      rw [writer.replay_wishes]
      split
      · rfl
      · rename_i hunlisted
        exact h.wishes wish hunlisted
    exact Tables.ext hitems hbookmarks hwishes

end Replay

/-! ## A bookmark that was deleted -/

namespace Sample

/-- Bob has deleted it again. -/
def withoutBookmark : Catalogue :=
  ⟨⟨[⟨bob.author, bookmarkKey, 20, none⟩], List.nodup_singleton _⟩, {⟨1⟩}⟩

/-- What a first process left in the tables. -/
def leftBehind : Tables serde :=
  ((ReadModelWriter.start .empty {bob}).replay .hex iroh .none withBookmark).tables

/-- The process was stopped before the deletion came. A replay leaves the bookmark
where it is, and over empty tables there would be none. -/
theorem replay_keeps_deleted :
    ((ReadModelWriter.start leftBehind {bob}).replay .hex iroh .none withoutBookmark).tables ≠
        projection .hex serde iroh withoutBookmark {bob} ∧
      ((ReadModelWriter.start leftBehind {bob}).replay .hex iroh .none withoutBookmark).tables ≠
        ((ReadModelWriter.start (.empty : Tables serde) {bob}).replay .hex iroh .none
          withoutBookmark).tables := by
  have hrows : ((ReadModelWriter.start leftBehind {bob}).replay .hex iroh .none
      withoutBookmark).tables.bookmarks book ≠ [] := by decide +kernel
  have hnone : (projection .hex serde iroh withoutBookmark {bob}).bookmarks book = [] := by
    decide +kernel
  have hfresh : ((ReadModelWriter.start (.empty : Tables serde) {bob}).replay .hex iroh .none
      withoutBookmark).tables.bookmarks book = [] := by decide +kernel
  refine ⟨fun h => hrows ?_, fun h => hrows ?_⟩
  · rw [h, hnone]
  · rw [h, hfresh]

end Sample

end Distlib
