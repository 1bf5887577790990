import Distlib.Core.Keys

/-!
# An item is its entries

An item says something in each of a number of places, one a field and one a file
(`Slot`), and what it says is a map from places to values (`Item.said`), which
with its id is all there is to it (`Item.said_ext`). Folding an entry in writes
one place of the map or nothing (`said_absorb`): so entries of different places
can be read in any order, and one read again adds nothing; and the entries an
item writes, whichever way round they are read, give the item back
(`item_is_its_entries`).

What JSON makes of a value is a parameter, and that it reads back what it wrote
is asked only of the values an item has.
-/

namespace Distlib

/-! ## What an item writes -/

/-- What JSON says of an item's values, both ways; a value that cannot be written
is left out. -/
structure ItemJson extends ItemSerde where
  ofKind : ItemKind → Option Bytes
  ofText : String → Option Bytes
  ofTexts : List String → Option Bytes
  ofSeries : Series → Option Bytes
  ofYear : Int32 → Option Bytes
  ofFile : FileRecord → Option Bytes

namespace Item

section Entries

variable (spell : Spellings) (json : ItemJson)

/-- One field's entry, or nothing at all when the field is not set. -/
def fieldEntry {α : Type} (item : Item) (field : Field) (value : Option α)
    (encode : α → Option Bytes) : Option (Bytes × Bytes) :=
  (value.bind encode).map fun bytes => ((Key.field item.id field).encode spell, bytes)

/-- One entry per field this item has something to say about. -/
def fieldEntries (item : Item) : List (Bytes × Bytes) :=
  [item.fieldEntry spell .kind item.kind json.ofKind,
    item.fieldEntry spell .title item.title json.ofText,
    item.fieldEntry spell .authors item.authors json.ofTexts,
    item.fieldEntry spell .genres item.genres json.ofTexts,
    item.fieldEntry spell .series item.series json.ofSeries,
    item.fieldEntry spell .year item.year json.ofYear,
    item.fieldEntry spell .lang item.lang json.ofText,
    item.fieldEntry spell .description item.description json.ofText].reduceOption

/-- The entries to write for what this item says. -/
def entries (item : Item) : List (Bytes × Bytes) :=
  let files := item.files.toList.filterMap fun file =>
    (json.ofFile file.2).map fun bytes => ((Key.file item.id file.1).encode spell, bytes)
  item.fieldEntries spell json ++ files

/-- Folds entries in, one after another, with what each turned out to be. -/
def absorbAll (item : Item) : List (Bytes × Bytes) → List Absorbed × Item
  | [] => ([], item)
  | entry :: rest =>
    let absorbed := item.absorb spell json.toItemSerde entry.1 entry.2
    let later := absorbed.2.absorbAll rest
    (absorbed.1 :: later.1, later.2)

end Entries

end Item

/-! ## An item as a map -/

/-- A place an item says something in. -/
inductive Slot : Type where
  | field (field : Field)
  | file (blob : ContentHash)
  deriving DecidableEq

/-- What an item can say in one place. -/
inductive SlotValue : Type where
  | kind (kind : ItemKind)
  | text (text : String)
  | texts (texts : List String)
  | series (series : Series)
  | year (year : Int32)
  | file (record : FileRecord)
  deriving DecidableEq

def Key.slot : Key → Slot
  | .field _ name => .field name
  | .file _ hash => .file hash

/-- The key of a place of an item. -/
def Slot.key (item : ItemId) : Slot → Key
  | .field name => .field item name
  | .file hash => .file item hash

theorem Slot.key_slot (key : Key) : key.slot.key key.item = key := by
  cases key <;> rfl

@[simp] theorem Slot.slot_key (item : ItemId) (slot : Slot) : (slot.key item).slot = slot := by
  cases slot <;> rfl

@[simp] theorem Slot.item_key (item : ItemId) (slot : Slot) : (slot.key item).item = item := by
  cases slot <;> rfl

namespace Item

/-- What the item says in each place. -/
def said (item : Item) : Slot → Option SlotValue
  | .field .kind => item.kind.map .kind
  | .field .title => item.title.map .text
  | .field .authors => item.authors.map .texts
  | .field .genres => item.genres.map .texts
  | .field .series => item.series.map .series
  | .field .year => item.year.map .year
  | .field .lang => item.lang.map .text
  | .field .description => item.description.map .text
  | .file blob => item.files[blob]?.map .file

/-- **An item is what it says**, and its id. -/
theorem said_ext {a b : Item} (hid : a.id = b.id) (h : a.said = b.said) : a = b := by
  have hfield : ∀ field, a.said (.field field) = b.said (.field field) := fun field => by rw [h]
  have hfiles : a.files = b.files := by
    refine Std.ExtTreeMap.ext_getElem? fun blob => ?_
    have hfile : a.said (.file blob) = b.said (.file blob) := by rw [h]
    exact Option.map_injective (fun _ _ => SlotValue.file.inj) hfile
  obtain ⟨id, kind, title, authors, genres, series, year, lang, description, files⟩ := a
  obtain ⟨id', kind', title', authors', genres', series', year', lang', description', files'⟩ := b
  obtain rfl := Option.map_injective (fun _ _ => SlotValue.kind.inj) (hfield .kind)
  obtain rfl := Option.map_injective (fun _ _ => SlotValue.text.inj) (hfield .title)
  obtain rfl := Option.map_injective (fun _ _ => SlotValue.texts.inj) (hfield .authors)
  obtain rfl := Option.map_injective (fun _ _ => SlotValue.texts.inj) (hfield .genres)
  obtain rfl := Option.map_injective (fun _ _ => SlotValue.series.inj) (hfield .series)
  obtain rfl := Option.map_injective (fun _ _ => SlotValue.year.inj) (hfield .year)
  obtain rfl := Option.map_injective (fun _ _ => SlotValue.text.inj) (hfield .lang)
  obtain rfl := Option.map_injective (fun _ _ => SlotValue.text.inj) (hfield .description)
  cases hid
  cases hfiles
  rfl

/-- What a value says in a place, if it can be read there. -/
def read (serde : ItemSerde) (value : Bytes) : Slot → Option SlotValue
  | .field .kind => (serde.kind value).map .kind
  | .field .title => (serde.text value).map .text
  | .field .authors => (serde.texts value).map .texts
  | .field .genres => (serde.texts value).map .texts
  | .field .series => (serde.series value).map .series
  | .field .year => (serde.year value).map .year
  | .field .lang => (serde.text value).map .text
  | .field .description => (serde.text value).map .text
  | .file _ => (serde.file value).map .file

variable {spell : Spellings} {serde : ItemSerde} {item : Item}

/-- Folding in a key's value, with the key read already. -/
def absorbKey (serde : ItemSerde) (item : Item) (key : Key) (value : Bytes) : Absorbed × Item :=
  match key with
  | .file _ blob =>
    match serde.file value with
    | some record => (.took, { item with files := item.files.insert blob record })
    | none => (.unreadable, item)
  | .field _ field => item.absorbField serde field value

theorem absorb_eq (item : Item) (key value : Bytes) :
    item.absorb spell serde key value =
      match Key.parse spell key with
      | none => (.unknown, item)
      | some parsed =>
        if parsed.item ≠ item.id then (.notThisItem, item) else item.absorbKey serde parsed value := by
  rw [absorb]
  rcases Key.parse spell key with _ | parsed
  · rfl
  · cases parsed <;> rfl

/-- What reading a value in one place of an item comes to: it is said there, and
nowhere else; or it cannot be read, and nothing changes. -/
structure Writes (item : Item) (slot : Slot) (said : SlotValue) (next : Absorbed × Item) : Prop where
  took : next.1 = .took
  id : next.2.id = item.id
  said : next.2.said = Function.update item.said slot (some said)

theorem Writes.of_others {slot : Slot} {said : SlotValue} {next : Item} (hid : next.id = item.id)
    (hsaid : next.said slot = some said) (hothers : ∀ other ≠ slot, next.said other = item.said other) :
    Writes item slot said (.took, next) :=
  ⟨rfl, hid, Function.eq_update_iff.mpr ⟨hsaid, hothers⟩⟩

/-- A value that is set or left, as one place of an item sees it. -/
theorem take_cases {α : Type} {into parsed : Option α} {set : Option α → Item} {slot : Slot}
    {wrap : α → SlotValue} (hset : ∀ value, Writes item slot (wrap value) (.took, set (some value)))
    (hback : set into = item) :
    (∃ said, parsed.map wrap = some said ∧ Writes item slot said (take into parsed set)) ∨
      (parsed.map wrap = none ∧ take into parsed set = (.unreadable, item)) := by
  rcases parsed with _ | value
  · exact Or.inr ⟨rfl, congrArg (Prod.mk _) hback⟩
  · exact Or.inl ⟨wrap value, rfl, hset value⟩

theorem absorbField_cases (serde : ItemSerde) (item : Item) (field : Field) (value : Bytes) :
    (∃ said, read serde value (.field field) = some said ∧
        Writes item (.field field) said (item.absorbField serde field value)) ∨
      (read serde value (.field field) = none ∧
        item.absorbField serde field value = (.unreadable, item)) := by
  cases field <;> (
    simp only [absorbField, read]
    refine take_cases (fun parsed => ?_) ?_
    · refine Writes.of_others rfl rfl ?_
      rintro (name | hash) hne
      · cases name <;> first | rfl | exact absurd rfl hne
      · rfl
    · rfl)

theorem absorbKey_cases (serde : ItemSerde) (item : Item) (key : Key) (value : Bytes) :
    (∃ said, read serde value key.slot = some said ∧
        Writes item key.slot said (item.absorbKey serde key value)) ∨
      (read serde value key.slot = none ∧ item.absorbKey serde key value = (.unreadable, item)) := by
  cases key with
  | field of? field => exact absorbField_cases serde item field value
  | file of? blob =>
    rw [absorbKey, Key.slot, read]
    split
    · rename_i record hrecord
      rw [hrecord]
      refine Or.inl ⟨.file record, rfl, Writes.of_others rfl ?_ ?_⟩
      · rw [Item.said, Std.ExtTreeMap.getElem?_insert_self]
        rfl
      · rintro (name | hash) hne
        · cases name <;> rfl
        · have hother : blob ≠ hash := fun heq => hne (heq ▸ rfl)
          simp [Item.said, Std.ExtTreeMap.getElem?_insert, hother]
    · rename_i hnone
      rw [hnone]
      exact Or.inr ⟨rfl, rfl⟩

/-- **What folding an entry in does.** An entry of one of the item's places is said
there, if it can be read; any other leaves the item as it was. -/
theorem absorb_cases (spell : Spellings) (serde : ItemSerde) (item : Item) (key value : Bytes) :
    (∃ parsed said, Key.parse spell key = some parsed ∧ parsed.item = item.id ∧
        read serde value parsed.slot = some said ∧
        Writes item parsed.slot said (item.absorb spell serde key value)) ∨
      ((item.absorb spell serde key value).1 ≠ .took ∧
        (item.absorb spell serde key value).2 = item ∧
        ∀ parsed, Key.parse spell key = some parsed → parsed.item = item.id →
          read serde value parsed.slot = none) := by
  rw [absorb_eq]
  rcases hparsed : Key.parse spell key with _ | parsed
  · exact Or.inr ⟨Absorbed.noConfusion, rfl, fun parsed h => by cases h⟩
  · simp only
    split
    · rename_i hother
      refine Or.inr ⟨Absorbed.noConfusion, rfl, fun parsed' hsame hid => ?_⟩
      cases hsame
      exact absurd hid hother
    · rename_i hmine
      rcases absorbKey_cases serde item parsed value with ⟨said, hread, hwrites⟩ | ⟨hnone, heq⟩
      · exact Or.inl ⟨parsed, said, rfl, not_not.mp hmine, hread, hwrites⟩
      · rw [heq]
        refine Or.inr ⟨Absorbed.noConfusion, rfl, fun parsed' hsame _ => ?_⟩
        cases hsame
        exact hnone

/-- What an entry says of an item, and in which place, if anything. -/
def told (spell : Spellings) (serde : ItemSerde) (id : ItemId) (key value : Bytes) :
    Option (Slot × SlotValue) :=
  (Key.parse spell key).bind fun parsed =>
    if parsed.item = id then (read serde value parsed.slot).map (parsed.slot, ·) else none

/-- An entry that says something is at the key of the place. -/
theorem parse_of_told {id : ItemId} {key value : Bytes} {what : Slot × SlotValue}
    (h : told spell serde id key value = some what) :
    Key.parse spell key = some (what.1.key id) := by
  obtain ⟨parsed, hparsed, hmine⟩ := Option.bind_eq_some_iff.mp h
  split at hmine
  · rename_i hid
    obtain ⟨said, -, rfl⟩ := Option.map_eq_some_iff.mp hmine
    rw [hparsed, ← hid, Slot.key_slot]
  · cases hmine

/-- Folding an entry in updates what the item says with what it is told. -/
theorem said_absorb (spell : Spellings) (serde : ItemSerde) (item : Item) (key value : Bytes) :
    (item.absorb spell serde key value).2.id = item.id ∧
      (item.absorb spell serde key value).2.said =
        (told spell serde item.id key value).elim item.said
          fun what => Function.update item.said what.1 (some what.2) := by
  rcases absorb_cases spell serde item key value with
    ⟨parsed, said, hparsed, hmine, hread, hwrites⟩ | ⟨-, hsame, hunread⟩
  · have htold : told spell serde item.id key value = some (parsed.slot, said) := by
      rw [told, hparsed, Option.bind_some, if_pos hmine, hread]
      rfl
    rw [htold]
    exact ⟨hwrites.id, hwrites.said⟩
  · have htold : told spell serde item.id key value = none := by
      rw [told, Option.bind_eq_none_iff]
      intro parsed hparsed
      split
      · rename_i hmine
        rw [hunread parsed hparsed hmine]
        rfl
      · rfl
    rw [htold, hsame]
    exact ⟨rfl, rfl⟩

/-- What an entry turns out to be depends on the item's id, and on nothing it
says. -/
theorem absorb_answer {a b : Item} (h : a.id = b.id) (key value : Bytes) :
    (a.absorb spell serde key value).1 = (b.absorb spell serde key value).1 := by
  rw [absorb_eq, absorb_eq, h]
  rcases Key.parse spell key with _ | parsed
  · rfl
  · simp only
    split
    · rfl
    · rcases absorbKey_cases serde a parsed value with ⟨said, hread, hwrites⟩ | ⟨hnone, heq⟩
      · rcases absorbKey_cases serde b parsed value with ⟨_, _, hwrites'⟩ | ⟨hnone', -⟩
        · rw [hwrites.took, hwrites'.took]
        · rw [hread] at hnone'
          cases hnone'
      · rcases absorbKey_cases serde b parsed value with ⟨said', hread', -⟩ | ⟨-, heq'⟩
        · rw [hnone] at hread'
          cases hread'
        · rw [heq, heq']

/-- Entries that are not of one place can be folded in either way round. -/
theorem absorb_comm (item : Item) {key key' : Bytes} (value value' : Bytes)
    (h : ∀ parsed, Key.parse spell key = some parsed → Key.parse spell key' ≠ some parsed) :
    ((item.absorb spell serde key value).2.absorb spell serde key' value').2 =
      ((item.absorb spell serde key' value').2.absorb spell serde key value).2 := by
  obtain ⟨hid, hsaid⟩ := said_absorb spell serde item key value
  obtain ⟨hid', hsaid'⟩ := said_absorb spell serde item key' value'
  obtain ⟨hid₁, hsaid₁⟩ := said_absorb spell serde (item.absorb spell serde key value).2 key' value'
  obtain ⟨hid₂, hsaid₂⟩ := said_absorb spell serde (item.absorb spell serde key' value').2 key value
  refine said_ext (by rw [hid₁, hid₂, hid, hid']) ?_
  rw [hsaid₁, hsaid₂, hsaid, hsaid', hid, hid']
  rcases htold : told spell serde item.id key value with _ | ⟨slot, said⟩
  · rfl
  rcases htold' : told spell serde item.id key' value' with _ | ⟨slot', said'⟩
  · rfl
  -- two entries of one item in one place would have one key
  have hslots : slot ≠ slot' := by
    rintro rfl
    exact h (slot.key item.id) (parse_of_told htold) (parse_of_told htold')
  exact Function.update_comm hslots _ _ _

/-- The same entry a second time changes nothing. -/
theorem absorb_idem (item : Item) (key value : Bytes) :
    (item.absorb spell serde key value).2.absorb spell serde key value =
      item.absorb spell serde key value := by
  obtain ⟨hid, hsaid⟩ := said_absorb spell serde item key value
  obtain ⟨hid', hsaid'⟩ := said_absorb spell serde (item.absorb spell serde key value).2 key value
  refine Prod.ext (absorb_answer hid key value) (said_ext hid' ?_)
  rw [hsaid', hid, hsaid]
  rcases told spell serde item.id key value with _ | ⟨slot, said⟩
  · rfl
  · exact Function.update_idem _ _ _

/-! ## The entries an item writes -/

section Own

variable {json : ItemJson}

/-- What JSON makes of something said. -/
def write (json : ItemJson) : SlotValue → Option Bytes
  | .kind kind => json.ofKind kind
  | .text text => json.ofText text
  | .texts texts => json.ofTexts texts
  | .series series => json.ofSeries series
  | .year year => json.ofYear year
  | .file record => json.ofFile record

/-- JSON reads back what it wrote, of every value the item has. -/
def ReadsBack (json : ItemJson) (item : Item) : Prop :=
  ∀ slot said, item.said slot = some said →
    ∃ bytes, write json said = some bytes ∧ read json.toItemSerde bytes slot = some said

/-- The table of fields, as one rule for all of them. -/
theorem fieldEntries_eq (item : Item) :
    item.fieldEntries spell json = (Field.ALL.map fun field =>
      ((item.said (.field field)).bind (write json)).map fun bytes =>
        ((Key.field item.id field).encode spell, bytes)).reduceOption := by
  simp [fieldEntries, fieldEntry, Field.ALL, said, Option.bind_map, Function.comp_def, write]

/-- **What an item writes** is what it says, each at the key of its place. -/
theorem mem_entries {entry : Bytes × Bytes} :
    entry ∈ item.entries spell json ↔ ∃ slot said, item.said slot = some said ∧
      write json said = some entry.2 ∧ entry.1 = (slot.key item.id).encode spell := by
  have hall : ∀ field, field ∈ Field.ALL := by
    intro field
    cases field <;> decide
  rw [entries, List.mem_append, fieldEntries_eq, List.reduceOption_mem_iff, List.mem_map,
    List.mem_filterMap]
  constructor
  · rintro (⟨field, -, hentry⟩ | ⟨⟨blob, record⟩, hfile, hentry⟩)
    · obtain ⟨bytes, hbytes, rfl⟩ := Option.map_eq_some_iff.mp hentry
      obtain ⟨said, hsaid, hwrite⟩ := Option.bind_eq_some_iff.mp hbytes
      exact ⟨.field field, said, hsaid, hwrite, rfl⟩
    · obtain ⟨bytes, hbytes, rfl⟩ := Option.map_eq_some_iff.mp hentry
      rw [Std.ExtTreeMap.mem_toList_iff_getElem?_eq_some] at hfile
      exact ⟨.file blob, .file record, by rw [said, hfile]; rfl, hbytes, rfl⟩
  · rintro ⟨field | blob, told, hsaid, hwrite, hkey⟩
    · refine Or.inl ⟨field, hall field, ?_⟩
      rw [hsaid, Option.bind_some, hwrite, Option.map_some]
      exact congrArg some (Prod.ext hkey.symm rfl)
    · refine Or.inr ?_
      rw [said, Option.map_eq_some_iff] at hsaid
      obtain ⟨record, hrecord, rfl⟩ := hsaid
      refine ⟨(blob, record), Std.ExtTreeMap.mem_toList_iff_getElem?_eq_some.mpr hrecord, ?_⟩
      rw [show json.ofFile record = some entry.2 from hwrite, Option.map_some]
      exact congrArg some (Prod.ext hkey.symm rfl)

/-- An entry at the key of one of an item's places, that reads as what the item
says there. -/
def Own (spell : Spellings) (json : ItemJson) (item : Item) (entry : Bytes × Bytes)
    (slot : Slot) : Prop :=
  entry.1 = (slot.key item.id).encode spell ∧
    ∃ said, item.said slot = some said ∧ read json.toItemSerde entry.2 slot = some said

theorem exists_own_of_mem (h : ReadsBack json item) {entry : Bytes × Bytes}
    (hentry : entry ∈ item.entries spell json) : ∃ slot, Own spell json item entry slot := by
  obtain ⟨slot, told, hsaid, hwrite, hkey⟩ := mem_entries.mp hentry
  obtain ⟨bytes, hbytes, hread⟩ := h slot told hsaid
  obtain rfl := Option.some.inj (hbytes.symm.trans hwrite)
  exact ⟨slot, hkey, told, hsaid, hread⟩

theorem exists_mem_of_said (h : ReadsBack json item) {slot : Slot} {told : SlotValue}
    (hsaid : item.said slot = some told) :
    ∃ entry ∈ item.entries spell json, Own spell json item entry slot := by
  obtain ⟨bytes, hbytes, hread⟩ := h slot told hsaid
  exact ⟨((slot.key item.id).encode spell, bytes), mem_entries.mpr ⟨slot, told, hsaid, hbytes, rfl⟩,
    rfl, told, hsaid, hread⟩

/-- An entry of the item's own, folded into any item of its id. -/
theorem Own.writes {entry : Bytes × Bytes} {slot : Slot} (h : Own spell json item entry slot)
    {into : Item} (hid : into.id = item.id) :
    ∃ told, item.said slot = some told ∧
      Writes into slot told (into.absorb spell json.toItemSerde entry.1 entry.2) := by
  obtain ⟨hkey, told, hsaid, hread⟩ := h
  have hparse : Key.parse spell entry.1 = some (slot.key item.id) := by
    rw [hkey, Key.parse_encode]
  rcases absorb_cases spell json.toItemSerde into entry.1 entry.2 with
    ⟨parsed, told', hparsed, -, hread', hwrites⟩ | ⟨-, -, hunread⟩
  · obtain rfl := Option.some.inj (hparse.symm.trans hparsed)
    rw [Slot.slot_key] at hread' hwrites
    obtain rfl := Option.some.inj (hread.symm.trans hread')
    exact ⟨told, hsaid, hwrites⟩
  · have hnone := hunread _ hparse (by rw [Slot.item_key, hid])
    rw [Slot.slot_key, hread] at hnone
    cases hnone

/-- An entry is of one place. -/
theorem Own.unique {entry : Bytes × Bytes} {a b : Slot} (ha : Own spell json item entry a)
    (hb : Own spell json item entry b) : a = b := by
  have hkeys : Key.parse spell ((a.key item.id).encode spell) = some (a.key item.id) :=
    Key.parse_encode _
  rw [← ha.1, hb.1, Key.parse_encode] at hkeys
  have hslots := congrArg Key.slot (Option.some.inj hkeys)
  rw [Slot.slot_key, Slot.slot_key] at hslots
  exact hslots.symm

/-- **Entries of the item's own, in any order and number.** Each is taken, and in
each place the item's own word stands afterwards, or what stood there before if no
entry is of that place. -/
theorem absorbAll_own : ∀ {entries : List (Bytes × Bytes)} {into : Item}, into.id = item.id →
    (∀ entry ∈ entries, ∃ slot, Own spell json item entry slot) →
    (∀ answer ∈ (into.absorbAll spell json entries).1, answer = .took) ∧
      (into.absorbAll spell json entries).2.id = item.id ∧
      ∀ slot, (into.absorbAll spell json entries).2.said slot = item.said slot ∨
        (into.absorbAll spell json entries).2.said slot = into.said slot ∧
          ∀ entry ∈ entries, ¬ Own spell json item entry slot := by
  intro entries
  induction entries with
  | nil =>
    intro into hid _
    exact ⟨fun _ h => absurd h List.not_mem_nil, hid, fun slot =>
      Or.inr ⟨rfl, fun _ h => absurd h List.not_mem_nil⟩⟩
  | cons entry rest ih =>
    intro into hid hown
    obtain ⟨slot, hslot⟩ := hown entry (List.mem_cons_self ..)
    obtain ⟨told, hsaid, hwrites⟩ := hslot.writes hid
    obtain ⟨htook, hid', hrest⟩ := ih (hwrites.id.trans hid) fun later hlater =>
      hown later (List.mem_cons_of_mem _ hlater)
    refine ⟨?_, hid', fun other => ?_⟩
    · rintro answer hanswer
      rcases List.mem_cons.mp hanswer with rfl | hlater
      · exact hwrites.took
      · exact htook answer hlater
    · rcases hrest other with hdone | ⟨hleft, hnone⟩
      · exact Or.inl hdone
      · rw [hwrites.said] at hleft
        by_cases hsame : other = slot
        · subst hsame
          rw [Function.update_self, ← hsaid] at hleft
          exact Or.inl hleft
        · rw [Function.update_of_ne hsame] at hleft
          refine Or.inr ⟨hleft, fun later hlater => ?_⟩
          rcases List.mem_cons.mp hlater with rfl | hmem
          · exact fun hother => hsame (hother.unique hslot)
          · exact hnone later hmem

end Own

theorem said_new (id : ItemId) (slot : Slot) : (Item.new id).said slot = none := by
  rcases slot with name | blob
  · cases name <;> rfl
  · simp [said, Item.new]

/-- The entries an item writes, in any order, give it back. -/
theorem absorbAll_entries {json : ItemJson} (h : ReadsBack json item)
    {order : List (Bytes × Bytes)} (horder : order.Perm (item.entries spell json)) :
    (Item.new item.id).absorbAll spell json order = (List.replicate order.length .took, item) := by
  have hown : ∀ entry ∈ order, ∃ slot, Own spell json item entry slot := fun entry hentry =>
    exists_own_of_mem h (horder.mem_iff.mp hentry)
  have hnew : (Item.new item.id).id = item.id := rfl
  obtain ⟨htook, hid, hsaid⟩ := absorbAll_own hnew hown
  have hlength : ∀ (entries : List (Bytes × Bytes)) (into : Item),
      (into.absorbAll spell json entries).1.length = entries.length := by
    intro entries
    induction entries with
    | nil => exact fun _ => rfl
    | cons entry rest ih => exact fun into => congrArg (· + 1) (ih _)
  refine Prod.ext (List.eq_replicate_iff.mpr ⟨hlength order _, htook⟩) (said_ext hid ?_)
  funext slot
  rcases hsaid slot with hown | ⟨hleft, hnone⟩
  · exact hown
  · rw [hleft, said_new]
    rcases hslot : item.said slot with _ | told
    · rfl
    · obtain ⟨entry, hentry, hown⟩ := exists_mem_of_said h hslot
      exact absurd hown (hnone entry (horder.mem_iff.mpr hentry))

/-- **An item is its entries.** However ids are spelled and whatever JSON is, as
long as it reads back the values written:

* every item's entries, folded in any order into an item of its id with nothing
  said, are all taken and give the item back;
* entries whose keys are read as different ones can be folded in either way round,
  whatever their values, and each turns out to be what it would be alone;
* an entry folded in twice is as if folded in once;
* and an entry that is not taken leaves the item as it was. -/
theorem item_is_its_entries (spell : Spellings) (json : ItemJson) :
    (∀ (item : Item), ReadsBack json item → ∀ order : List (Bytes × Bytes),
      order.Perm (item.entries spell json) →
        (Item.new item.id).absorbAll spell json order =
          (List.replicate order.length .took, item)) ∧
    (∀ (item : Item) (key key' value value' : Bytes) (parsed parsed' : Key),
      Key.parse spell key = some parsed → Key.parse spell key' = some parsed' → parsed ≠ parsed' →
        let absorb := fun (item : Item) key value => item.absorb spell json.toItemSerde key value
        (absorb (absorb item key value).2 key' value').2 =
            (absorb (absorb item key' value').2 key value).2 ∧
          (absorb (absorb item key value).2 key' value').1 = (absorb item key' value').1 ∧
          (absorb (absorb item key' value').2 key value).1 = (absorb item key value).1) ∧
    (∀ (item : Item) (key value : Bytes),
      (item.absorb spell json.toItemSerde key value).2.absorb spell json.toItemSerde key value =
        item.absorb spell json.toItemSerde key value) ∧
    ∀ (item : Item) (key value : Bytes),
      (item.absorb spell json.toItemSerde key value).1 ≠ .took →
        (item.absorb spell json.toItemSerde key value).2 = item := by
  refine ⟨fun item h order => absorbAll_entries h, ?_, fun item => absorb_idem item, ?_⟩
  · intro item key key' value value' parsed parsed' hparsed hparsed' hne absorb
    refine ⟨absorb_comm item value value' fun read hread hread' => hne ?_,
      absorb_answer (said_absorb ..).1 key' value', absorb_answer (said_absorb ..).1 key value⟩
    rw [hparsed] at hread
    rw [hparsed'] at hread'
    exact Option.some.inj (hread.trans hread'.symm)
  · intro item key value hnot
    rcases absorb_cases spell json.toItemSerde item key value with
      ⟨parsed, said, -, -, -, hwrites⟩ | ⟨-, hsame, -⟩
    · exact absurd hwrites.took hnot
    · exact hsame

def cover : FileRecord := ⟨.cover, "png", 9, "c.png", none, none, none, none⟩

/-- JSON for one title, one year and one cover. -/
def oneJson : ItemJson where
  kind _ := none
  text value := if value = ascii "[Emma]" then some "Emma" else none
  texts _ := none
  series _ := none
  year value := if value = ascii "1815" then some 1815 else none
  file value := if value = ascii "[cover]" then some cover else none
  ofKind _ := none
  ofText text := if text = "Emma" then some (ascii "[Emma]") else none
  ofTexts _ := none
  ofSeries _ := none
  ofYear year := if year = 1815 then some (ascii "1815") else none
  ofFile record := if record = cover then some (ascii "[cover]") else none

/-- An item with a title, a year and a cover. -/
def emma : Item :=
  { Item.new ⟨5⟩ with
    title := some "Emma"
    year := some 1815
    files := (∅ : OrdMap ContentHash FileRecord).insert ⟨7⟩ cover }

theorem emma_readsBack : ReadsBack oneJson emma := by
  rintro (name | blob) told hsaid
  · cases name with
    | title =>
      obtain rfl := Option.some.inj hsaid
      exact ⟨ascii "[Emma]", by decide, by decide⟩
    | year =>
      obtain rfl := Option.some.inj hsaid
      exact ⟨ascii "1815", by decide, by decide⟩
    | kind => cases hsaid
    | authors => cases hsaid
    | genres => cases hsaid
    | series => cases hsaid
    | lang => cases hsaid
    | description => cases hsaid
  · obtain ⟨record, hrecord, rfl⟩ := Option.map_eq_some_iff.mp hsaid
    simp only [emma, Std.ExtTreeMap.getElem?_insert, Std.ExtTreeMap.getElem?_empty] at hrecord
    split at hrecord
    · obtain rfl := Option.some.inj hrecord
      exact ⟨ascii "[cover]", by decide, rfl⟩
    · cases hrecord

/-- The three entries, last one first. -/
theorem item_is_its_entries_emma :
    (emma.entries .hex oneJson).length = 3 ∧
      (Item.new ⟨5⟩).absorbAll .hex oneJson (emma.entries .hex oneJson).reverse =
        ([.took, .took, .took], emma) := by
  have hlength : (emma.entries .hex oneJson).length = 3 := by decide +kernel
  have hback := (item_is_its_entries .hex oneJson).1 emma emma_readsBack
    (emma.entries .hex oneJson).reverse (List.reverse_perm _)
  rw [List.length_reverse, hlength] at hback
  exact ⟨hlength, hback⟩

end Item

end Distlib
