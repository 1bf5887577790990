import Distlib.Core.Community

/-!
# The catalogue document and what is read of it

The document holds each author's newest entry at each key: a value, by its hash, or
a deletion. The content of a value is a blob that arrives apart from the entry. Two
queries read it. One answers the newest entry per key, whoever wrote it, and leaves
the key out when that is a deletion; the other answers every author's entry, deletions
left out. Which of two entries written at the same time is the newest is `Iroh`'s to
say, as is which authors are public keys.

A read asks one query after another, and for each entry it cares about whether its
content is here. What a read makes of the answers is kept apart from when they are
asked: `readItem`, `readBookmarks` and `readWish` are functions of the answers, and
the methods of `Catalogue` ask at one moment.
-/

namespace Distlib

/-! ## Documents -/

/-- Whoever signs an entry: 32 bytes that need be no public key. -/
structure AuthorId where
  /-- the 32 bytes, as one number -/
  bytes : BitVec 256
  deriving DecidableEq

/-- The author a member signs as. -/
def MemberId.author (member : MemberId) : AuthorId := ⟨member.key⟩

/-- One author's newest entry at a key. -/
structure DocEntry where
  author : AuthorId
  key : Bytes
  /-- in microseconds since the epoch -/
  timestamp : ℕ
  /-- the hash of its value; a deletion has none -/
  content : Option ContentHash
  deriving DecidableEq

/-- The entries, in the order the store keeps them. -/
structure Document where
  entries : List DocEntry
  distinct : (entries.map fun entry => (entry.author, entry.key)).Nodup

/-- What is iroh's to say. -/
structure Iroh where
  /-- the newest of the entries at one key -/
  newest : List DocEntry → Option DocEntry
  newest_mem : ∀ entries entry, newest entries = some entry → entry ∈ entries
  newest_isSome : ∀ entries, entries ≠ [] → (newest entries).isSome
  newest_latest : ∀ entries entry, newest entries = some entry →
    ∀ other ∈ entries, other.timestamp ≤ entry.timestamp
  isPublicKey : AuthorId → Bool
  /-- the bytes of a blob, which its hash names -/
  contentOf : ContentHash → Bytes

namespace Document

/-- Every author's entry at a key. -/
def entriesAt (document : Document) (key : Bytes) : List DocEntry :=
  document.entries.filter fun entry => entry.key = key

/-- A flat query: one entry per author and key. -/
def all (document : Document) (under : Bytes) : List DocEntry :=
  document.entries.filter fun entry => under.isPrefixOf entry.key && entry.content.isSome

/-- The newest entry per key. -/
def singleLatestPerKey (iroh : Iroh) (document : Document) (under : Bytes) : List DocEntry :=
  document.entries.filter fun entry =>
    under.isPrefixOf entry.key && entry.content.isSome &&
      iroh.newest (document.entriesAt entry.key) = some entry

end Document

/-! ## What the answers say -/

/-- An entry a query answered, and its content if it was here when asked for. -/
abbrev Answered : Type := DocEntry × Option Bytes

structure CommunityEntry (α : Type) where
  key : CommunityKey
  value : α
  written : ℕ

/-- One prober's recorded failure of one custodian. -/
structure RecordedFailure where
  custodian : MemberId
  prober : MemberId
  failure : ProbeFailure
  /-- when the prober wrote it, in microseconds since the epoch -/
  written : UInt64
  deriving DecidableEq

structure CommunityEntries (α : Type) where
  entries : List (CommunityEntry α)
  waitingForContent : Bool

section Reads

variable (spell : Spellings) (serde : Serde)

/-- The key of an entry that counts: one this build reads, whose member wrote it. -/
def counted (entry : DocEntry) : Option CommunityKey :=
  (CommunityKey.parse spell entry.key).filter fun key => entry.author = key.member.author

/-- One entry taken in. -/
def CommunityEntries.take {α : Type} (decode : Bytes → Option α) (read : CommunityEntries α)
    (answer : Answered) : CommunityEntries α :=
  match counted spell answer.1 with
  | none => read
  | some key =>
    match answer.2 with
    | none => { read with waitingForContent := true }
    | some value =>
      match decode value with
      | none => read
      | some value =>
        { read with entries := read.entries ++ [⟨key, value, answer.1.timestamp⟩] }

/-- The community entries that count, each decoded. -/
def readCommunityEntries {α : Type} (decode : Bytes → Option α) (answers : List Answered) :
    CommunityEntries α :=
  answers.foldl (CommunityEntries.take spell decode) ⟨[], false⟩

def valuesByMember {α : Type} (entries : List (CommunityEntry α)) : OrdMap MemberId α :=
  Std.ExtTreeMap.ofList (entries.map fun entry => (entry.key.member, entry.value)) compare

/-- Who wrote each of an item's file keys. -/
def readFileAuthors (iroh : Iroh) (entries : List DocEntry) : OrdMap ContentHash (Finset MemberId) :=
  entries.foldl
    (fun authors entry =>
      match Key.parse spell entry.key with
      | some (.file _ blob) =>
        if iroh.isPublicKey entry.author then
          authors.insert blob (insert ⟨entry.author.bytes⟩ (authors[blob]?.getD ∅))
        else authors
      | _ => authors) ∅

/-- An item, with what a read model needs beside it. -/
structure ReadItem where
  item : Item
  fileAuthors : OrdMap ContentHash (Finset MemberId)
  waitingForContent : Bool
  ratings : OrdMap MemberId Rating
  reviews : OrdMap MemberId Review
  lastModified : ℕ

/-- What the queries for an item answer. -/
structure ItemAnswers where
  /-- the newest entry at each of its own keys -/
  own : List Answered
  ratings : List Answered
  reviews : List Answered
  /-- every author's entry at its own keys, whose content nobody asks for -/
  files : List DocEntry

/-- Reads one item back out of the entries that make it up. -/
def readItem (iroh : Iroh) (id : ItemId) (answers : ItemAnswers) : Option ReadItem :=
  if answers.own = [] then none
  else
    let ratings := readCommunityEntries spell (Rating.decode serde) answers.ratings
    let reviews := readCommunityEntries spell (Review.decode serde) answers.reviews
    some
      { item := answers.own.foldl
          (fun item answer =>
            match answer.2 with
            | none => item
            | some value => (item.absorb spell serde.toItemSerde answer.1.key value).2) (.new id)
        fileAuthors := readFileAuthors spell iroh answers.files
        waitingForContent := answers.own.any (fun answer => answer.2.isNone) ||
          ratings.waitingForContent || reviews.waitingForContent
        ratings := valuesByMember ratings.entries
        reviews := valuesByMember reviews.entries
        lastModified := answers.own.foldl (fun latest answer => max latest answer.1.timestamp) 0 }

structure ReadBookmark where
  member : MemberId
  id : BookmarkId
  bookmark : Bookmark
  lastModified : ℕ
  deriving DecidableEq

/-- By member, then id. -/
def ReadBookmark.before (a b : ReadBookmark) : Bool :=
  (compareLex (compareOn ReadBookmark.member) (compareOn ReadBookmark.id) a b).isLE

structure ItemBookmarks where
  bookmarks : List ReadBookmark
  waitingForContent : Bool

/-- Every member's bookmarks on an item. -/
def readBookmarks (answers : List Answered) : ItemBookmarks :=
  let read := readCommunityEntries spell (Bookmark.decode serde) answers
  let bookmarks := read.entries.filterMap fun entry =>
    match entry.key with
    | .bookmark _ member id => some ⟨member, id, entry.value, entry.written⟩
    | _ => none
  { bookmarks := bookmarks.insertionSort fun a b => a.before b
    waitingForContent := read.waitingForContent }

structure ReadWish where
  entries : OrdMap MemberId (Wish serde)
  comments : OrdMap MemberId Comment
  waitingForContent : Bool

/-- Every member's entry for a wish, and comment on it. -/
def readWish (entries comments : List Answered) : ReadWish serde :=
  let entries := readCommunityEntries spell (Wish.decode serde) entries
  let comments := readCommunityEntries spell (Comment.decode serde) comments
  { entries := valuesByMember entries.entries
    comments := valuesByMember comments.entries
    waitingForContent := entries.waitingForContent || comments.waitingForContent }

end Reads

/-! ## The catalogue of one moment -/

/-- The document, and the content that is here. -/
structure Catalogue where
  document : Document
  here : Finset ContentHash

namespace Catalogue

variable (spell : Spellings) (serde : Serde) (iroh : Iroh)

/-- The content of one entry, if it has arrived here. -/
def content (catalogue : Catalogue) (entry : DocEntry) : Option Bytes :=
  entry.content.bind fun hash => if hash ∈ catalogue.here then some (iroh.contentOf hash) else none

/-- Some entries, each with its content asked for. -/
def answers (catalogue : Catalogue) (entries : List DocEntry) : List Answered :=
  entries.map fun entry => (entry, catalogue.content iroh entry)

/-- What the queries for an item answer at this moment. -/
def itemAnswers (catalogue : Catalogue) (id : ItemId) : ItemAnswers where
  own := catalogue.answers iroh
    (catalogue.document.singleLatestPerKey iroh (Key.prefixOf spell id))
  ratings := catalogue.answers iroh (catalogue.document.all (CommunityKey.ratingsOf spell id))
  reviews := catalogue.answers iroh (catalogue.document.all (CommunityKey.reviewsOf spell id))
  files := catalogue.document.all (Key.prefixOf spell id)

def readItem (catalogue : Catalogue) (id : ItemId) : Option ReadItem :=
  Distlib.readItem spell serde iroh id (catalogue.itemAnswers spell iroh id)

def readBookmarks (catalogue : Catalogue) (item : ItemId) : ItemBookmarks :=
  Distlib.readBookmarks spell serde
    (catalogue.answers iroh (catalogue.document.all (CommunityKey.bookmarksOf spell item)))

def readWish (catalogue : Catalogue) (wish : WishId) : ReadWish serde :=
  Distlib.readWish spell serde
    (catalogue.answers iroh (catalogue.document.all (CommunityKey.wishEntriesOf spell wish)))
    (catalogue.answers iroh (catalogue.document.all (CommunityKey.commentsOn spell wish)))

/-- Every item this node holds an entry for. -/
def itemIds (catalogue : Catalogue) : OrdSet ItemId :=
  Std.ExtTreeSet.ofList
    ((catalogue.document.singleLatestPerKey iroh Key.allItems).filterMap fun entry =>
      (Key.parse spell entry.key).map Key.item) compare

/-- Every item somebody has bookmarked. -/
def bookmarkedItemIds (catalogue : Catalogue) : OrdSet ItemId :=
  Std.ExtTreeSet.ofList
    ((catalogue.document.singleLatestPerKey iroh CommunityKey.allBookmarks).filterMap fun entry =>
      match CommunityKey.parse spell entry.key with
      | some (.bookmark item _ _) => some item
      | _ => none) compare

/-- Every wish somebody has an entry for. -/
def wishIds (catalogue : Catalogue) : OrdSet WishId :=
  Std.ExtTreeSet.ofList
    ((catalogue.document.singleLatestPerKey iroh CommunityKey.allWishEntries).filterMap fun entry =>
      match CommunityKey.parse spell entry.key with
      | some (.wish wish _) => some wish
      | _ => none) compare

end Catalogue

/-! ## A catalogue to try things on -/

namespace Sample

/-- The entry written last, the first of those written at the same time. -/
def newest : List DocEntry → Option DocEntry
  | [] => none
  | entry :: rest =>
    match newest rest with
    | none => some entry
    | some later => if entry.timestamp < later.timestamp then some later else some entry

theorem newest_spec (entries : List DocEntry) :
    (newest entries = none ∧ entries = []) ∨
      ∃ entry ∈ entries, newest entries = some entry ∧
        ∀ other ∈ entries, other.timestamp ≤ entry.timestamp := by
  induction entries with
  | nil => exact Or.inl ⟨rfl, rfl⟩
  | cons entry rest ih =>
    right
    rcases ih with ⟨hnone, rfl⟩ | ⟨later, hmem, hlater, hmax⟩
    · exact ⟨entry, List.mem_cons_self .., by simp [newest], by simp⟩
    · rw [newest, hlater]
      dsimp only
      split
      · rename_i hlt
        refine ⟨later, List.mem_cons_of_mem _ hmem, rfl, fun other hother => ?_⟩
        rcases List.mem_cons.mp hother with rfl | hrest
        · exact hlt.le
        · exact hmax other hrest
      · rename_i hge
        refine ⟨entry, List.mem_cons_self .., rfl, fun other hother => ?_⟩
        rcases List.mem_cons.mp hother with rfl | hrest
        · exact le_rfl
        · exact (hmax other hrest).trans (not_lt.mp hge)

/-- A bookmark as JSON. -/
def bookmarkJson : Bytes :=
  ascii "\x7b\"position\":\"12\",\"note\":\"here\",\"created_at\":5\x7d"

def iroh : Iroh where
  newest := newest
  newest_mem entries entry h := by
    rcases newest_spec entries with ⟨hnone, -⟩ | ⟨found, hmem, hfound, -⟩
    · rw [hnone] at h
      cases h
    · rw [hfound] at h
      exact Option.some.inj h ▸ hmem
  newest_isSome entries h := by
    rcases newest_spec entries with ⟨-, hnil⟩ | ⟨found, -, hfound, -⟩
    · exact absurd hnil h
    · rw [hfound]
      rfl
  newest_latest entries entry h := by
    rcases newest_spec entries with ⟨hnone, -⟩ | ⟨found, -, hfound, hmax⟩
    · rw [hnone] at h
      cases h
    · rw [hfound] at h
      exact Option.some.inj h ▸ hmax
  isPublicKey _ := true
  contentOf hash := if hash = ⟨1⟩ then bookmarkJson else []

/-- It reads that bookmark. -/
def serde : Serde where
  kind _ := none
  text _ := none
  texts _ := none
  series _ := none
  year _ := none
  file _ := none
  number _ := none
  bookmark value := if value = bookmarkJson then some ⟨"12", "here", 5⟩ else none
  wish _ := none
  wishLength _ := 0

def bob : MemberId := ⟨2⟩

def carol : MemberId := ⟨3⟩

def book : ItemId := ⟨7⟩

/-- The key of a bookmark of Bob's. -/
def bookmarkKey : Bytes := CommunityKey.encode .hex (.bookmark book bob ⟨4⟩)

def bookmarked : DocEntry := ⟨bob.author, bookmarkKey, 10, some ⟨1⟩⟩

/-- Bob has bookmarked the book. -/
def withBookmark : Catalogue := ⟨⟨[bookmarked], by decide +kernel⟩, {⟨1⟩}⟩

end Sample

end Distlib
