import Distlib.Sync.Document

/-!
# The read model

The projection keeps SQLite tables in step with the catalogue. Its unit of work is
one item, one item's bookmarks or one wish, and the work is to read it again and
write its rows over whatever they held. A replay does so for everything three
listings name: the items with an entry of their own, the items with a bookmark, the
wishes with an entry. It runs at every start and whenever the members change, so that
the tables are "a function of the document rather than of everything this node has
ever seen".

`projection` is that function: for every id, the rows its reads give. A replay
computes it for what is listed and leaves the rest as the tables have it
(`replay_items`, `replay_bookmarks`, `replay_wishes`). Rows survive a restart, and
nothing else removes the rows of an id that has left its listing; so a replay is right
exactly if the tables were right about those before (`Stood`), and that is the main
result, `replay_iff_stood`.
-/

namespace Distlib

/-! ## Tables -/

/-- One item's rows. -/
structure StoredItem where
  item : Item
  ratings : OrdMap MemberId Rating
  reviews : OrdMap MemberId Review
  fileAuthors : OrdMap ContentHash (Finset MemberId)
  lastModified : ℕ
  deriving DecidableEq

/-- One row of the bookmarks: what was read of one. -/
abbrev StoredBookmark : Type := ReadBookmark

/-- One wish's rows: empty for a wish the read model holds nothing of. -/
structure StoredWish (serde : Serde) where
  entries : OrdMap MemberId (Wish serde)
  comments : OrdMap MemberId Comment
  deriving DecidableEq

/-- The read model's tables, by the key that owns the rows. -/
@[ext]
structure Tables (serde : Serde) where
  items : ItemId → Option StoredItem
  bookmarks : ItemId → List StoredBookmark
  wishes : WishId → StoredWish serde

section Projection

variable (spell : Spellings) (serde : Serde) (iroh : Iroh)

namespace Tables

variable {serde}

/-- A read model that holds nothing. -/
def empty : Tables serde where
  items _ := none
  bookmarks _ := []
  wishes _ := ⟨∅, ∅⟩

/-- Writes an item's rows over what they held. -/
def upsertItem (tables : Tables serde) (stored : StoredItem) : Tables serde :=
  { tables with items := Function.update tables.items stored.item.id (some stored) }

def replaceBookmarks (tables : Tables serde) (item : ItemId) (bookmarks : List StoredBookmark) :
    Tables serde :=
  { tables with bookmarks := Function.update tables.bookmarks item bookmarks }

def replaceWish (tables : Tables serde) (wish : WishId) (stored : StoredWish serde) :
    Tables serde :=
  { tables with wishes := Function.update tables.wishes wish stored }

end Tables

/-! ### What is written of what is read

Only what current members said is projected. -/

def ReadItem.stored (members : Finset MemberId) (read : ReadItem) : StoredItem where
  item := read.item
  ratings := read.ratings.filter fun member _ => member ∈ members
  reviews := read.reviews.filter fun member _ => member ∈ members
  fileAuthors := read.fileAuthors
  lastModified := read.lastModified

def ItemBookmarks.stored (members : Finset MemberId) (read : ItemBookmarks) : List StoredBookmark :=
  read.bookmarks.filter fun bookmark => bookmark.member ∈ members

variable {serde} in
/-- Comments alone are not a wish: they wait for a current member's entry. -/
def ReadWish.stored (members : Finset MemberId) (read : ReadWish serde) : StoredWish serde :=
  let entries := read.entries.filter fun member _ => member ∈ members
  let comments := read.comments.filter fun member _ => member ∈ members
  { entries, comments := if entries.isEmpty then ∅ else comments }

/-! ## The writer -/

/-- What the projection writes with, and what it remembers between batches. -/
structure ReadModelWriter (serde : Serde) where
  tables : Tables serde
  /-- whose ratings, reviews, bookmarks and wishes are projected -/
  members : Finset MemberId
  itemsWaitingForContent : OrdSet ItemId
  itemsWithBookmarksWaitingForContent : OrdSet ItemId
  wishesWaitingForContent : OrdSet WishId

/-- What goes wrong during a pass. -/
structure Faults where
  /-- one of the three listings cannot be read -/
  listing : Bool
  readItem : ItemId → Bool
  writeItem : ItemId → Bool
  readBookmarks : ItemId → Bool
  writeBookmarks : ItemId → Bool
  readWish : WishId → Bool
  writeWish : WishId → Bool

/-- Nothing does. -/
def Faults.none : Faults where
  listing := false
  readItem _ := false
  writeItem _ := false
  readBookmarks _ := false
  writeBookmarks _ := false
  readWish _ := false
  writeWish _ := false

/-- What waits for content, after a read that says whether `id` does. -/
def waitingAfter {K : Type} [Ord K] [Std.TransOrd K] (waiting : OrdSet K) (id : K) (waits : Bool) : OrdSet K :=
  if waits then waiting.insert id else waiting.erase id

namespace ReadModelWriter

variable {serde}

/-- A writer of a process that has just started, over the tables the last one left. -/
def start (tables : Tables serde) (members : Finset MemberId) : ReadModelWriter serde where
  tables := tables
  members := members
  itemsWaitingForContent := ∅
  itemsWithBookmarksWaitingForContent := ∅
  wishesWaitingForContent := ∅

/-- What was read of an item is taken in. An item with no entry of its own is
skipped: its own entries mark it again when they land. -/
def takeItem (writer : ReadModelWriter serde) (id : ItemId) (fails : Bool) :
    Option ReadItem → ReadModelWriter serde
  | .none => writer
  | .some read =>
    let writer :=
      { writer with
        itemsWaitingForContent :=
          waitingAfter writer.itemsWaitingForContent id read.waitingForContent }
    if fails then writer
    else { writer with tables := writer.tables.upsertItem (read.stored writer.members) }

def takeBookmarks (writer : ReadModelWriter serde) (item : ItemId) (fails : Bool)
    (read : ItemBookmarks) : ReadModelWriter serde :=
  let writer :=
    { writer with
      itemsWithBookmarksWaitingForContent :=
        waitingAfter writer.itemsWithBookmarksWaitingForContent item read.waitingForContent }
  if fails then writer
  else { writer with tables := writer.tables.replaceBookmarks item (read.stored writer.members) }

def takeWish (writer : ReadModelWriter serde) (wish : WishId) (fails : Bool)
    (read : ReadWish serde) : ReadModelWriter serde :=
  let writer :=
    { writer with
      wishesWaitingForContent :=
        waitingAfter writer.wishesWaitingForContent wish read.waitingForContent }
  if fails then writer
  else { writer with tables := writer.tables.replaceWish wish (read.stored writer.members) }

/-- Re-reads each item and writes it over whatever the tables held. -/
def projectItems (faults : Faults) (catalogue : Catalogue) (writer : ReadModelWriter serde)
    (items : List ItemId) : ReadModelWriter serde :=
  items.foldl
    (fun writer id =>
      if faults.readItem id then writer
      else writer.takeItem id (faults.writeItem id) (catalogue.readItem spell serde iroh id)) writer

/-- Re-reads each item's bookmarks. -/
def projectBookmarks (faults : Faults) (catalogue : Catalogue) (writer : ReadModelWriter serde)
    (items : List ItemId) : ReadModelWriter serde :=
  items.foldl
    (fun writer item =>
      if faults.readBookmarks item then writer
      else
        writer.takeBookmarks item (faults.writeBookmarks item)
          (catalogue.readBookmarks spell serde iroh item)) writer

/-- Re-reads each wish. -/
def projectWishes (faults : Faults) (catalogue : Catalogue) (writer : ReadModelWriter serde)
    (wishes : List WishId) : ReadModelWriter serde :=
  wishes.foldl
    (fun writer wish =>
      if faults.readWish wish then writer
      else
        writer.takeWish wish (faults.writeWish wish)
          (catalogue.readWish spell serde iroh wish)) writer

/-- Re-reads everything in the document into the read model. -/
def replay (faults : Faults) (catalogue : Catalogue) (writer : ReadModelWriter serde) :
    ReadModelWriter serde :=
  if faults.listing then writer
  else
    let writer := writer.projectItems spell iroh faults catalogue
      (catalogue.itemIds spell iroh).toList
    let writer := writer.projectBookmarks spell iroh faults catalogue
      (catalogue.bookmarkedItemIds spell iroh).toList
    writer.projectWishes spell iroh faults catalogue (catalogue.wishIds spell iroh).toList

end ReadModelWriter

/-! ## The function of the document -/

/-- The rows the document and the members give: for every id, what its reads say. -/
def projection (catalogue : Catalogue) (members : Finset MemberId) : Tables serde where
  items id := (catalogue.readItem spell serde iroh id).map (ReadItem.stored members)
  bookmarks item := (catalogue.readBookmarks spell serde iroh item).stored members
  wishes wish := (catalogue.readWish spell serde iroh wish).stored members

end Projection

end Distlib
