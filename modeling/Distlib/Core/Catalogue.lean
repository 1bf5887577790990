import Distlib.Core.Id
import Distlib.Lib.Hex

/-!
# Items and their keys

An item is its entries: one entry a field, and one a file, each at a key of its own
in the catalogue document, each value JSON. A key is a path of segments, and an id in
it is written in hex. Nothing here knows who wrote an entry or when.

How an id is written is `Spelling`'s business: what is written is read back, in a
fixed number of bytes, none of them a slash. A parser may read other spellings as
well, and some do. What JSON means is `ItemSerde`'s.
-/

namespace Distlib

abbrev Bytes : Type := List UInt8

/-! ## Paths -/

/-- The byte between two segments of a key. -/
def SLASH : UInt8 := 47

/-- The bytes of a text of ASCII characters. -/
def ascii (text : String) : Bytes := text.toList.map Char.toUInt8

/-- Segments with a slash between each two. -/
def path : List Bytes → Bytes
  | [] => []
  | [segment] => segment
  | segment :: next :: rest => segment ++ SLASH :: path (next :: rest)

/-- A key split at its slashes. -/
def segments (key : Bytes) : List Bytes := key.splitOn SLASH

theorem segments_of_slashless {segment : Bytes} (h : SLASH ∉ segment) :
    segments segment = [segment] := by
  refine List.splitOnP_eq_singleton fun byte hbyte => ?_
  rw [beq_eq_false_iff_ne]
  rintro rfl
  exact h hbyte

theorem segments_append {segment : Bytes} (h : SLASH ∉ segment) (rest : Bytes) :
    segments (segment ++ SLASH :: rest) = segment :: segments rest := by
  have hslash : ∀ byte ∈ segment, (byte == SLASH) = false := by
    intro byte hbyte
    rw [beq_eq_false_iff_ne]
    rintro rfl
    exact h hbyte
  exact List.splitOnP_append_cons_of_forall_mem hslash SLASH (beq_self_eq_true _) rest

/-- Splitting a path gives its segments. -/
theorem segments_path : ∀ (parts : List Bytes), parts ≠ [] → (∀ part ∈ parts, SLASH ∉ part) →
    segments (path parts) = parts
  | [part], _, h => segments_of_slashless (h part (List.mem_cons_self ..))
  | part :: next :: rest, _, h => by
    rw [path, segments_append (h part (List.mem_cons_self ..)),
      segments_path (next :: rest) (List.cons_ne_nil next rest) fun part hpart =>
        h part (List.mem_cons_of_mem _ hpart)]

/-- A key under a path begins with its segments. -/
theorem segments_of_isPrefix : ∀ (parts : List Bytes) {key : Bytes}, (∀ part ∈ parts, SLASH ∉ part) →
    path (parts ++ [[]]) <+: key → parts <+: segments key
  | [], key, _, _ => List.nil_prefix
  | part :: rest, key, h, hunder => by
    obtain ⟨next, more, hmore⟩ : ∃ next more, rest ++ [[]] = next :: more :=
      List.exists_cons_of_ne_nil (List.append_ne_nil_of_right_ne_nil _ (List.cons_ne_nil [] []))
    obtain ⟨tail, htail⟩ := hunder
    have hkey : key = part ++ SLASH :: (path (rest ++ [[]]) ++ tail) := by
      rw [← htail, List.cons_append, hmore, path, List.append_assoc, List.cons_append]
    rw [hkey, segments_append (h part (List.mem_cons_self ..)), List.prefix_cons_inj]
    exact segments_of_isPrefix rest (fun part hpart => h part (List.mem_cons_of_mem _ hpart))
      (List.prefix_append ..)

/-- How the ids of one kind are written in keys, and read. -/
structure Spelling (ι : Type) where
  print : ι → Bytes
  parse : Bytes → Option ι
  parse_print : ∀ id, parse (print id) = some id
  slashless : ∀ id, SLASH ∉ print id
  length_print : ∀ id id', (print id).length = (print id').length

theorem Spelling.print_injective {ι : Type} (spelling : Spelling ι) :
    Function.Injective spelling.print := by
  intro a b h
  have hparse := spelling.parse_print a
  rw [h, spelling.parse_print] at hparse
  exact (Option.some.inj hparse).symm

/-- How every kind of id is written. -/
structure Spellings where
  item : Spelling ItemId
  content : Spelling ContentHash
  member : Spelling MemberId
  bookmark : Spelling BookmarkId
  wish : Spelling WishId

/-- Ids of `4 * len` bits written as `len` hex digits, and read in either case. -/
def Spelling.hex {ι : Type} (len : ℕ) (bits : ι → BitVec (4 * len)) (ofBits : BitVec (4 * len) → ι)
    (back : ∀ id, ofBits (bits id) = id) : Spelling ι where
  print id := Hex.print len (bits id).toNat
  parse text := (Hex.parse len text).map fun n => ofBits (BitVec.ofNat _ n)
  parse_print id := by
    have hlt : (bits id).toNat < 16 ^ len := by
      have h := (bits id).isLt
      rwa [pow_mul] at h
    rw [Hex.parse_print hlt, Option.map_some, BitVec.ofNat_toNat, BitVec.setWidth_eq, back]
  slashless id hslash := by
    rcases Hex.mem_print hslash with ⟨hlow, -⟩ | ⟨hlow, -⟩ <;> exact absurd hlow (by decide)
  length_print id id' := by rw [Hex.length_print, Hex.length_print]

/-- Every id in hex. -/
def Spellings.hex : Spellings where
  item := .hex 64 ItemId.hash ItemId.mk fun _ => rfl
  content := .hex 64 ContentHash.hash ContentHash.mk fun _ => rfl
  member := .hex 64 MemberId.key MemberId.mk fun _ => rfl
  bookmark := .hex 32 BookmarkId.id BookmarkId.mk fun _ => rfl
  wish := .hex 64 WishId.id WishId.mk fun _ => rfl

/-! ## Items -/

/-- What kind of thing an item is. -/
inductive ItemKind : Type where
  | ebook
  | audiobook
  | video
  | other
  deriving DecidableEq

/-- What an item's file is for. Only content counts towards holding the item. -/
inductive FileRole : Type where
  | content
  | cover
  | subtitle
  | metadata
  | other
  deriving DecidableEq

/-- Where an item sits in a series. -/
structure Series where
  name : String
  /-- the bits of a 32-bit float -/
  index : Option UInt32
  deriving DecidableEq

/-- One file of an item. -/
structure FileRecord where
  role : FileRole
  format : String
  size : UInt64
  filename : String
  seq : Option UInt32
  disc : Option UInt32
  title : Option String
  /-- in seconds -/
  duration : Option UInt64
  deriving DecidableEq

/-- One field of an item. -/
inductive Field : Type where
  | kind
  | title
  | authors
  | genres
  | series
  | year
  | lang
  | description
  deriving DecidableEq

namespace Field

/-- Every field there is, in the order an item writes them. -/
def ALL : List Field := [kind, title, authors, genres, series, year, lang, description]

/-- The name a field has in a key. -/
def asStr : Field → Bytes
  | kind => ascii "type"
  | title => ascii "title"
  | authors => ascii "authors"
  | genres => ascii "genres"
  | series => ascii "series"
  | year => ascii "year"
  | lang => ascii "lang"
  | description => ascii "description"

def parse (name : Bytes) : Option Field := ALL.find? fun field => field.asStr = name

end Field

/-- One catalogue item, assembled from the entries that make it up. -/
structure Item where
  id : ItemId
  kind : Option ItemKind
  title : Option String
  authors : Option (List String)
  genres : Option (List String)
  series : Option Series
  year : Option Int32
  lang : Option String
  description : Option String
  files : OrdMap ContentHash FileRecord
  deriving DecidableEq

/-- An item with nothing said about it yet. -/
def Item.new (id : ItemId) : Item where
  id := id
  kind := none
  title := none
  authors := none
  genres := none
  series := none
  year := none
  lang := none
  description := none
  files := ∅

/-! ## Keys -/

/-- The segment every item key starts with. -/
def ITEMS : Bytes := ascii "item"

/-- The segment that marks a per-file key. -/
def FILE : Bytes := ascii "file"

/-- A key in the catalogue document. -/
inductive Key : Type where
  | field (item : ItemId) (field : Field)
  | file (item : ItemId) (blob : ContentHash)
  deriving DecidableEq

namespace Key

variable (spell : Spellings)

/-- The key as it is written in the document. -/
def encode : Key → Bytes
  | .field item name => path [ITEMS, spell.item.print item, name.asStr]
  | .file item blob => path [ITEMS, spell.item.print item, FILE, spell.content.print blob]

/-- Reads a key back. Bytes that are no text hold a segment that no id and no name
is read from. -/
def parse (key : Bytes) : Option Key :=
  match segments key with
  | items :: item :: third :: rest =>
    if items ≠ ITEMS then none
    else
      match spell.item.parse item with
      | none => none
      | some item =>
        if third = FILE then
          match rest with
          | [blob] => (spell.content.parse blob).map (.file item)
          | _ => none
        else
          match rest with
          | [] => (Field.parse third).map (.field item)
          | _ => none
  | _ => none

/-- The item a key is about. -/
def item : Key → ItemId
  | .field item _ => item
  | .file item _ => item

/-- Every key belonging to an item, as a prefix to read. -/
def prefixOf (item : ItemId) : Bytes := path [ITEMS, spell.item.print item, []]

/-- Every item key there is, as a prefix to read. -/
def allItems : Bytes := path [ITEMS, []]

end Key

/-! ## Folding entries in -/

/-- What JSON says of an item's values. -/
structure ItemSerde where
  kind : Bytes → Option ItemKind
  text : Bytes → Option String
  texts : Bytes → Option (List String)
  series : Bytes → Option Series
  year : Bytes → Option Int32
  file : Bytes → Option FileRecord

/-- What happened when an entry was folded into an item. -/
inductive Absorbed : Type where
  | took
  | notThisItem
  | unknown
  | unreadable
  deriving DecidableEq

namespace Item

variable (spell : Spellings) (serde : ItemSerde)

/-- Reads one field's value: the value there was stays if it cannot be read. -/
def take {α : Type} (into parsed : Option α) (set : Option α → Item) : Absorbed × Item :=
  match parsed with
  | some value => (.took, set (some value))
  | none => (.unreadable, set into)

def absorbField (item : Item) (field : Field) (value : Bytes) : Absorbed × Item :=
  match field with
  | .kind => take item.kind (serde.kind value) fun kind => { item with kind }
  | .title => take item.title (serde.text value) fun title => { item with title }
  | .authors => take item.authors (serde.texts value) fun authors => { item with authors }
  | .genres => take item.genres (serde.texts value) fun genres => { item with genres }
  | .series => take item.series (serde.series value) fun series => { item with series }
  | .year => take item.year (serde.year value) fun year => { item with year }
  | .lang => take item.lang (serde.text value) fun lang => { item with lang }
  | .description =>
    take item.description (serde.text value) fun description => { item with description }

/-- Folds one entry in. -/
def absorb (item : Item) (key value : Bytes) : Absorbed × Item :=
  match Key.parse spell key with
  | none => (.unknown, item)
  | some key =>
    if key.item ≠ item.id then (.notThisItem, item)
    else
      match key with
      | .file _ blob =>
        match serde.file value with
        | some record => (.took, { item with files := item.files.insert blob record })
        | none => (.unreadable, item)
      | .field _ field => item.absorbField serde field value

end Item

end Distlib
