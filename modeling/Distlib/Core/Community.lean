import Distlib.Core.Catalogue

/-!
# What members say about items, each in keys of their own

A community key names the member who wrote it, so two members rating one item write
two keys and not one key twice. It is forgeable too: a document checks that an entry
is signed by its author, not that the author is the member its key names. The keys
are read in the one spelling they are written in, so a key that is read is the
encoding of what it is read as (`CommunityKey.parse_eq_some`), and no community key
is an item's (`CommunityKey.parse_of_item`).
-/

namespace Distlib

/-! ## Values -/

def REVIEW_MAX_BYTES : ℕ := 16 * 1024

def NOTE_MAX_BYTES : ℕ := 4 * 1024

def POSITION_MAX_BYTES : ℕ := 256

def WISH_MAX_BYTES : ℕ := 16 * 1024

def COMMENT_MAX_BYTES : ℕ := 4 * 1024

/-- A member's rating of an item: one to five. -/
structure Rating where
  value : UInt8
  inRange : 1 ≤ value ∧ value ≤ 5
  deriving DecidableEq

/-- Free text a member writes, of at most `max` bytes. -/
structure CappedText (max : ℕ) where
  text : String
  short : text.utf8ByteSize ≤ max
  deriving DecidableEq

abbrev Review : Type := CappedText REVIEW_MAX_BYTES

abbrev Comment : Type := CappedText COMMENT_MAX_BYTES

/-- A member's bookmark on an item: a pointer into it, with a note. -/
structure Bookmark where
  position : CappedText POSITION_MAX_BYTES
  note : CappedText NOTE_MAX_BYTES
  createdAt : UInt64
  deriving DecidableEq

/-- A bookmark as it arrives, before it is checked. -/
structure BookmarkFields where
  position : String
  note : String
  createdAt : UInt64

/-- Whether a member holds a wish fulfilled, and by what. -/
inductive WishStatus : Type where
  | opened
  | fulfilled (item : ItemId)
  deriving DecidableEq

/-- What one member says about a wish. -/
structure WishFields where
  kind : Option ItemKind
  title : Option String
  authors : Option (List String)
  description : Option String
  createdAt : Option UInt64
  status : WishStatus
  deriving DecidableEq

/-- The latest of a prober's failed probes of one custodian, and how many have failed in a
row. -/
structure ProbeFailure where
  item : ItemId
  blob : ContentHash
  chunk : UInt64
  inARow : UInt32
  deriving DecidableEq

/-- What JSON says of a community value. -/
structure Serde extends ItemSerde where
  number : Bytes → Option UInt8
  bookmark : Bytes → Option BookmarkFields
  wish : Bytes → Option WishFields
  /-- the length of a wish entry as it is written -/
  wishLength : WishFields → ℕ

/-- One member's entry for a wish. -/
structure Wish (serde : Serde) where
  fields : WishFields
  short : serde.wishLength fields ≤ WISH_MAX_BYTES
  deriving DecidableEq

/-- A text, if it is at most `max` bytes of UTF-8. -/
def capped (max : ℕ) (text : String) : Option (CappedText max) :=
  if short : text.utf8ByteSize ≤ max then some ⟨text, short⟩ else none

section Decode

variable (serde : Serde)

def Rating.decode (value : Bytes) : Option Rating :=
  (serde.number value).bind fun number =>
    if inRange : 1 ≤ number ∧ number ≤ 5 then some ⟨number, inRange⟩ else none

def Review.decode (value : Bytes) : Option Review :=
  (serde.text value).bind (capped REVIEW_MAX_BYTES)

def Comment.decode (value : Bytes) : Option Comment :=
  (serde.text value).bind (capped COMMENT_MAX_BYTES)

def Bookmark.decode (value : Bytes) : Option Bookmark :=
  (serde.bookmark value).bind fun fields =>
    match capped POSITION_MAX_BYTES fields.position, capped NOTE_MAX_BYTES fields.note with
    | some position, some note => some ⟨position, note, fields.createdAt⟩
    | _, _ => none

def Wish.decode (value : Bytes) : Option (Wish serde) :=
  (serde.wish value).bind fun fields =>
    if short : serde.wishLength fields ≤ WISH_MAX_BYTES then some ⟨fields, short⟩ else none

end Decode

/-! ## Keys -/

def RATING : Bytes := ascii "rating"

def REVIEW : Bytes := ascii "review"

def BOOKMARK : Bytes := ascii "bookmark"

def WISH : Bytes := ascii "wish"

def WISH_COMMENT : Bytes := ascii "wish_comment"

def PROBE : Bytes := ascii "probe"

/-- A key a member writes about themselves. -/
inductive CommunityKey : Type where
  | rating (item : ItemId) (member : MemberId)
  | review (item : ItemId) (member : MemberId)
  | bookmark (item : ItemId) (member : MemberId) (bookmark : BookmarkId)
  | wish (wish : WishId) (member : MemberId)
  | wishComment (wish : WishId) (member : MemberId)
  /-- the prober's probes of the custodian fail -/
  | probeFailure (custodian prober : MemberId)
  deriving DecidableEq

namespace CommunityKey

variable (spell : Spellings)

/-- The segments of a key. -/
def parts : CommunityKey → List Bytes
  | .rating item member => [RATING, spell.item.print item, spell.member.print member]
  | .review item member => [REVIEW, spell.item.print item, spell.member.print member]
  | .bookmark item member id =>
    [BOOKMARK, spell.item.print item, spell.member.print member, spell.bookmark.print id]
  | .wish id member => [WISH, spell.wish.print id, spell.member.print member]
  | .wishComment id member => [WISH_COMMENT, spell.wish.print id, spell.member.print member]
  | .probeFailure custodian prober =>
    [PROBE, spell.member.print custodian, spell.member.print prober]

/-- The key as it is written in the document. -/
def encode (key : CommunityKey) : Bytes := path (key.parts spell)

/-- The key its segments name, each id in whatever spelling its parser reads. -/
def ofSegments : List Bytes → Option CommunityKey
  | kind :: first :: second :: rest =>
    if kind = RATING then
      return .rating (← spell.item.parse first) (← spell.member.parse second)
    else if kind = REVIEW then
      return .review (← spell.item.parse first) (← spell.member.parse second)
    else if kind = BOOKMARK then
      match rest with
      | third :: _ =>
        return .bookmark (← spell.item.parse first) (← spell.member.parse second)
          (← spell.bookmark.parse third)
      | [] => none
    else if kind = WISH then
      return .wish (← spell.wish.parse first) (← spell.member.parse second)
    else if kind = WISH_COMMENT then
      return .wishComment (← spell.wish.parse first) (← spell.member.parse second)
    else if kind = PROBE then
      return .probeFailure (← spell.member.parse first) (← spell.member.parse second)
    else none
  | _ => none

/-- Reads a key back, only in the one spelling it is written in. -/
def parse (key : Bytes) : Option CommunityKey :=
  (ofSegments spell (segments key)).filter fun parsed => parsed.encode spell = key

/-- The member who says it. -/
def member : CommunityKey → MemberId
  | .rating _ member => member
  | .review _ member => member
  | .bookmark _ member _ => member
  | .wish _ member => member
  | .wishComment _ member => member
  | .probeFailure _ prober => prober

/-- Every member's rating of an item, as a prefix to read. -/
def ratingsOf (item : ItemId) : Bytes := path [RATING, spell.item.print item, []]

def reviewsOf (item : ItemId) : Bytes := path [REVIEW, spell.item.print item, []]

def bookmarksOf (item : ItemId) : Bytes := path [BOOKMARK, spell.item.print item, []]

/-- Every bookmark on every item, as a prefix to read. -/
def allBookmarks : Bytes := path [BOOKMARK, []]

def wishEntriesOf (wish : WishId) : Bytes := path [WISH, spell.wish.print wish, []]

def commentsOn (wish : WishId) : Bytes := path [WISH_COMMENT, spell.wish.print wish, []]

/-- Every entry of every wish, as a prefix to read. -/
def allWishEntries : Bytes := path [WISH, []]

variable {spell}

/-- **What is read is in the one spelling.** -/
theorem encode_of_parse {key : Bytes} {parsed : CommunityKey} (h : parse spell key = some parsed) :
    parsed.encode spell = key := by
  rw [parse, Option.filter_eq_some_iff] at h
  exact of_decide_eq_true h.2

theorem parts_slashless (key : CommunityKey) : ∀ part ∈ key.parts spell, SLASH ∉ part := by
  have hwords : SLASH ∉ RATING ∧ SLASH ∉ REVIEW ∧ SLASH ∉ BOOKMARK ∧ SLASH ∉ WISH ∧
      SLASH ∉ WISH_COMMENT ∧ SLASH ∉ PROBE := by decide
  obtain ⟨hrating, hreview, hbookmark, hwish, hcomment, hprobe⟩ := hwords
  cases key <;>
    simp [parts, hrating, hreview, hbookmark, hwish, hcomment, hprobe, spell.item.slashless,
      spell.member.slashless, spell.wish.slashless, spell.bookmark.slashless]

/-- The segments of a key that is read are those it is written with. -/
theorem segments_of_parse {key : Bytes} {parsed : CommunityKey}
    (h : parse spell key = some parsed) : segments key = parsed.parts spell := by
  rw [← encode_of_parse h, encode, segments_path _ (by cases parsed <;> simp [parts])
    parsed.parts_slashless]

/-- A key that is read under a path has the segments of the path. -/
theorem parts_of_isPrefix {key : Bytes} {parsed : CommunityKey} {front : List Bytes}
    (h : parse spell key = some parsed) (hslashless : ∀ part ∈ front, SLASH ∉ part)
    (hunder : path (front ++ [[]]) <+: key) : front <+: parsed.parts spell := by
  rw [← segments_of_parse h]
  exact segments_of_isPrefix front hslashless hunder

/-- No community key is an item's. -/
theorem parse_of_item {key : Bytes} (h : Key.allItems <+: key) : parse spell key = none := by
  rcases hparsed : parse spell key with _ | parsed
  · rfl
  · have hfront : [ITEMS] <+: parsed.parts spell :=
      parts_of_isPrefix hparsed (by decide) h
    have hwords : ITEMS ≠ RATING ∧ ITEMS ≠ REVIEW ∧ ITEMS ≠ BOOKMARK ∧ ITEMS ≠ WISH ∧
        ITEMS ≠ WISH_COMMENT ∧ ITEMS ≠ PROBE := by decide
    cases parsed <;> simp [parts, hwords] at hfront

end CommunityKey

end Distlib
