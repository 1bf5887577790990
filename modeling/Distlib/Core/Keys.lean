import Distlib.Core.Community

/-!
# One key, one spelling, and no key under another

Writing a key deletes what the same author has at the longer keys beneath it, so
no key may be the beginning of another. None is: a key that begins with another
has its segments, the last of them perhaps cut short (`Begins`), and what a key
ends in is an id, which is as long as any other of its kind, or the name of a
field, which no other name begins with (`written_isPrefix_iff`).
-/

namespace Distlib

/-! ## Paths that begin with paths -/

/-- The segments of one path are the first of another's, the last of them perhaps
only the beginning of the segment in its place. -/
def Begins : List Bytes → List Bytes → Prop
  | [last], next :: _ => last <+: next
  | part :: parts, next :: more => part = next ∧ Begins parts more
  | _, _ => False

/-- A segment at the front of a path is the beginning of its first segment. -/
theorem isPrefix_of_slashless {segment next rest : Bytes} (h : SLASH ∉ segment)
    (hfront : segment <+: next ++ SLASH :: rest) : segment <+: next := by
  induction segment generalizing next with
  | nil => exact List.nil_prefix
  | cons byte segment ih =>
    rcases next with _ | ⟨byte', next⟩
    · obtain ⟨rfl, -⟩ := List.cons_prefix_cons.mp hfront
      exact absurd (List.mem_cons_self ..) h
    · obtain ⟨rfl, htail⟩ := List.cons_prefix_cons.mp hfront
      exact List.cons_prefix_cons.mpr ⟨rfl, ih (fun hmem => h (List.mem_cons_of_mem _ hmem)) htail⟩

/-- A whole segment at the front of a path is its first segment. -/
theorem isPrefix_cons_slash {segment next rest more : Bytes} (h : SLASH ∉ segment)
    (h' : SLASH ∉ next) (hfront : segment ++ SLASH :: rest <+: next ++ SLASH :: more) :
    segment = next ∧ rest <+: more := by
  have hsegment := isPrefix_of_slashless h ((List.prefix_append ..).trans hfront)
  obtain ⟨_ | ⟨byte, left⟩, rfl⟩ := hsegment
  · rw [List.append_nil] at hfront ⊢
    rw [List.prefix_append_right_inj, List.cons_prefix_cons] at hfront
    exact ⟨rfl, hfront.2⟩
  · -- a slash would stand where `next` goes on
    rw [List.append_assoc, List.prefix_append_right_inj, List.cons_append,
      List.cons_prefix_cons] at hfront
    rw [← hfront.1] at h'
    exact absurd (List.mem_append_right _ (List.mem_cons_self ..)) h'

/-- A whole segment is no beginning of a path of one. -/
theorem not_isPrefix_cons_slash {segment next rest : Bytes} (h : SLASH ∉ next) :
    ¬ segment ++ SLASH :: rest <+: next := by
  intro hfront
  exact h (hfront.subset (List.mem_append_right _ (List.mem_cons_self ..)))

/-- **What a path begins with.** -/
theorem begins_of_isPrefix : ∀ {parts more : List Bytes}, parts ≠ [] → more ≠ [] →
    (∀ part ∈ parts, SLASH ∉ part) → (∀ part ∈ more, SLASH ∉ part) →
    path parts <+: path more → Begins parts more
  | [last], [next], _, _, _, _, hfront => hfront
  | [last], next :: next' :: more, _, _, h, _, hfront =>
    isPrefix_of_slashless (h last (List.mem_cons_self ..)) hfront
  | part :: part' :: parts, [next], _, _, _, h', hfront =>
    absurd hfront (not_isPrefix_cons_slash (h' next (List.mem_cons_self ..)))
  | part :: part' :: parts, next :: next' :: more, _, _, h, h', hfront => by
    obtain ⟨hsame, hrest⟩ := isPrefix_cons_slash (h part (List.mem_cons_self ..))
      (h' next (List.mem_cons_self ..)) hfront
    exact ⟨hsame, begins_of_isPrefix (List.cons_ne_nil _ _) (List.cons_ne_nil _ _)
      (fun part hpart => h part (List.mem_cons_of_mem _ hpart))
      (fun part hpart => h' part (List.mem_cons_of_mem _ hpart)) hrest⟩

namespace Spelling

variable {ι : Type} (spelling : Spelling ι) {a b : ι}

theorem print_inj : spelling.print a = spelling.print b ↔ a = b :=
  spelling.print_injective.eq_iff

/-- An id is as long as any other of its kind, so it is the beginning of none. -/
theorem print_isPrefix_iff : spelling.print a <+: spelling.print b ↔ a = b := by
  refine ⟨fun h => spelling.print_injective (h.eq_of_length (spelling.length_print a b)), ?_⟩
  rintro rfl
  exact List.prefix_rfl

end Spelling

/-- No field's name is the beginning of another's, or of what marks a file. -/
theorem Field.asStr_isPrefix_iff (field other : Field) :
    (field.asStr <+: other.asStr ↔ field = other) ∧ ¬ field.asStr <+: FILE ∧ FILE ≠ field.asStr := by
  cases field <;> cases other <;> decide

variable {spell : Spellings}

/-! ## The keys of the document -/

namespace Key

variable (spell) in
/-- The segments of an item's key. -/
def parts : Key → List Bytes
  | .field item name => [ITEMS, spell.item.print item, name.asStr]
  | .file item blob => [ITEMS, spell.item.print item, FILE, spell.content.print blob]

theorem encode_eq (key : Key) : key.encode spell = path (key.parts spell) := by
  cases key <;> rfl

theorem parts_slashless (key : Key) : ∀ part ∈ key.parts spell, SLASH ∉ part := by
  have hwords : SLASH ∉ ITEMS ∧ SLASH ∉ FILE := by decide
  have hnames : ∀ name : Field, SLASH ∉ name.asStr := by
    intro name
    cases name <;> decide
  cases key <;> simp [parts, hwords, hnames, spell.item.slashless, spell.content.slashless]

theorem segments_encode (key : Key) : segments (key.encode spell) = key.parts spell := by
  rw [encode_eq, segments_path _ (by cases key <;> simp [parts]) key.parts_slashless]

theorem parse_asStr (name : Field) : Field.parse name.asStr = some name := by
  cases name <;> decide

/-- What an item's key is written as is read back. -/
theorem parse_encode (key : Key) : parse spell (key.encode spell) = some key := by
  rw [parse, segments_encode]
  cases key with
  | field item name =>
    have hfile : name.asStr ≠ FILE := (Field.asStr_isPrefix_iff name name).2.2.symm
    simp [parts, spell.item.parse_print, hfile, parse_asStr]
  | file item blob => simp [parts, spell.item.parse_print, spell.content.parse_print]

/-- What is read as an item's key starts with the segment of items. -/
theorem segments_of_parse {key : Bytes} {parsed : Key} (h : parse spell key = some parsed) :
    ∃ rest, segments key = ITEMS :: rest := by
  rw [parse] at h
  split at h
  · rename_i items item third rest hsegments
    split at h
    · cases h
    · rename_i hitems
      exact ⟨item :: third :: rest, by rw [hsegments, not_not.mp hitems]⟩
  · cases h

end Key

namespace CommunityKey

/-- What a community key is written as is read back. -/
theorem parse_encode (key : CommunityKey) : parse spell (key.encode spell) = some key := by
  have hsegments : segments (key.encode spell) = key.parts spell :=
    segments_path _ (by cases key <;> simp [parts]) key.parts_slashless
  have hread : ofSegments spell (key.parts spell) = some key := by
    cases key <;>
      simp +decide [ofSegments, parts, spell.item.parse_print, spell.member.parse_print,
        spell.wish.parse_print, spell.bookmark.parse_print]
  rw [parse, hsegments, hread]
  simp

/-- No community key is read as an item's. -/
theorem parse_item_of_parse {key : Bytes} {parsed : CommunityKey}
    (h : parse spell key = some parsed) : Key.parse spell key = none := by
  rcases hitem : Key.parse spell key with _ | item
  · rfl
  obtain ⟨rest, hsegments⟩ := Key.segments_of_parse hitem
  rw [segments_of_parse h] at hsegments
  have hwords : RATING ≠ ITEMS ∧ REVIEW ≠ ITEMS ∧ BOOKMARK ≠ ITEMS ∧ WISH ≠ ITEMS ∧
      WISH_COMMENT ≠ ITEMS ∧ PROBE ≠ ITEMS := by decide
  cases parsed <;> simp [parts, hwords] at hsegments

end CommunityKey

/-- A key of the document, of either kind. -/
inductive DocumentKey : Type where
  | community (key : CommunityKey)
  | item (key : Key)
  deriving DecidableEq

namespace DocumentKey

variable (spell) in
/-- The key as it is written in the document. -/
def written : DocumentKey → Bytes
  | .community key => key.encode spell
  | .item key => key.encode spell

variable (spell) in
def parts : DocumentKey → List Bytes
  | .community key => key.parts spell
  | .item key => key.parts spell

theorem written_eq (key : DocumentKey) : key.written spell = path (key.parts spell) := by
  cases key with
  | community key => rfl
  | item key => exact key.encode_eq

theorem parts_slashless (key : DocumentKey) : ∀ part ∈ key.parts spell, SLASH ∉ part := by
  cases key with
  | community key => exact key.parts_slashless
  | item key => exact key.parts_slashless

theorem parts_ne_nil (key : DocumentKey) : key.parts spell ≠ [] := by
  rcases key with key | key <;> cases key <;> exact List.cons_ne_nil _ _

/-- Keys that begin alike are the same: their first segments tell what they are
of, and what follows is as long in both. -/
theorem eq_of_begins {a b : DocumentKey} (h : Begins (a.parts spell) (b.parts spell)) : a = b := by
  rcases a with a | a <;> rcases b with b | b
  · cases a <;> cases b <;>
      simp +decide [parts, CommunityKey.parts, Begins, Spelling.print_inj,
        Spelling.print_isPrefix_iff] at h ⊢ <;>
      exact h
  · cases a <;> cases b <;> simp +decide [parts, CommunityKey.parts, Key.parts, Begins] at h
  · cases a <;> cases b <;> simp +decide [parts, CommunityKey.parts, Key.parts, Begins] at h
  · cases a with
    | field item name =>
      cases b with
      | field item' name' =>
        simp only [parts, Key.parts, Begins, Spelling.print_inj,
          (Field.asStr_isPrefix_iff name name').1, true_and] at h
        rw [h.1, h.2]
      | file item' blob =>
        simp only [parts, Key.parts, Begins, (Field.asStr_isPrefix_iff name name).2.1,
          and_false] at h
    | file item blob =>
      cases b with
      | field item' name =>
        simp only [parts, Key.parts, Begins, (Field.asStr_isPrefix_iff name name).2.2,
          and_false] at h
      | file item' blob' =>
        simp only [parts, Key.parts, Begins, Spelling.print_inj, Spelling.print_isPrefix_iff,
          true_and] at h
        rw [h.1, h.2]

/-- **No key is the beginning of another.** -/
theorem written_isPrefix_iff {a b : DocumentKey} : a.written spell <+: b.written spell ↔ a = b := by
  constructor
  · intro h
    rw [written_eq, written_eq] at h
    exact eq_of_begins (begins_of_isPrefix a.parts_ne_nil b.parts_ne_nil a.parts_slashless
      b.parts_slashless h)
  · rintro rfl
    exact List.prefix_rfl

end DocumentKey

/-- **Document keys.** However the ids are written, in a fixed number of bytes and
without a slash, and whatever else their parsers read:

* a community key is read back from what it is written as, and from nothing else,
  so no two byte strings are read as one key;
* no byte string is read both as a community key and as an item's;
* and no key, of either kind, is written as the beginning of another. -/
theorem document_keys (spell : Spellings) :
    (∀ key : CommunityKey, CommunityKey.parse spell (key.encode spell) = some key) ∧
    (∀ (bytes : Bytes) (key : CommunityKey), CommunityKey.parse spell bytes = some key →
      key.encode spell = bytes) ∧
    (∀ (bytes bytes' : Bytes) (key : CommunityKey), CommunityKey.parse spell bytes = some key →
      CommunityKey.parse spell bytes' = some key → bytes = bytes') ∧
    (∀ (bytes : Bytes) (key : CommunityKey), CommunityKey.parse spell bytes = some key →
      Key.parse spell bytes = none) ∧
    ∀ a b : DocumentKey, a.written spell <+: b.written spell → a = b := by
  refine ⟨CommunityKey.parse_encode, fun bytes key => CommunityKey.encode_of_parse, ?_,
    fun bytes key => CommunityKey.parse_item_of_parse,
    fun a b => DocumentKey.written_isPrefix_iff.mp⟩
  intro bytes bytes' key h h'
  rw [← CommunityKey.encode_of_parse h, CommunityKey.encode_of_parse h']

end Distlib
