import Distlib.Core.Entries

/-!
# An item's key in other spellings

An id is read in either case, and an item's key is read in whatever spelling its
ids are, where a community key is read only in the one it is written in. So what
is read is the key in lowercase (`Key.encode_of_parse`): a key with an uppercase
digit in it is a second key of the same field of the same item. Whichever of the
two is read last is what the item says there, and two nodes that read them in
different orders disagree. Keys all in lowercase are read in one spelling each,
and the order they are read in does not matter (`one_spelling_iff`).
-/

namespace Distlib

/-! ## Keys in lowercase -/

/-- A key with its uppercase digits made lowercase. -/
def lowercase (bytes : Bytes) : Bytes := bytes.map Hex.lower

/-- No byte of the key is an uppercase hex digit. -/
def InLowercase (bytes : Bytes) : Prop := ∀ byte ∈ bytes, ¬ (65 ≤ byte ∧ byte ≤ 70)

instance (bytes : Bytes) : Decidable (InLowercase bytes) :=
  inferInstanceAs (Decidable (∀ byte ∈ bytes, ¬ (65 ≤ byte ∧ byte ≤ 70)))

theorem lowercase_eq_self_iff (bytes : Bytes) : lowercase bytes = bytes ↔ InLowercase bytes := by
  have hmap : lowercase bytes = bytes ↔ bytes.map Hex.lower = bytes.map id := by
    rw [List.map_id, lowercase]
  rw [hmap, List.map_inj_left]
  exact forall₂_congr fun byte _ => Hex.lower_eq_self_iff byte

theorem path_eq_intercalate : ∀ parts : List Bytes, path parts = [SLASH].intercalate parts
  | [] => rfl
  | [segment] => by simp [path]
  | segment :: next :: rest => by
    rw [path, path_eq_intercalate (next :: rest), List.intercalate_cons_cons]
    simp

/-- A key is the path of its segments. -/
theorem path_segments (key : Bytes) : path (segments key) = key := by
  rw [path_eq_intercalate, segments, List.intercalate_splitOn]

/-- Lowercase, segment by segment. -/
theorem lowercase_path : ∀ parts : List Bytes, lowercase (path parts) = path (parts.map lowercase)
  | [] => rfl
  | [segment] => rfl
  | segment :: next :: rest => by
    have hrest := lowercase_path (next :: rest)
    rw [List.map_cons] at hrest
    rw [List.map_cons, List.map_cons, path, path, ← hrest, lowercase, List.map_append,
      List.map_cons]
    rfl

/-- Ids read in either case: a text is read as an id exactly if it is, in
lowercase, what the id is written as. -/
def Spelling.EitherCase {ι : Type} (spelling : Spelling ι) : Prop :=
  ∀ (text : Bytes) (id : ι), spelling.parse text = some id ↔ lowercase text = spelling.print id

/-- Hex is read in either case. -/
theorem Spelling.eitherCase_hex {ι : Type} {len : ℕ} {bits : ι → BitVec (4 * len)}
    {ofBits : BitVec (4 * len) → ι} (back : ∀ id, ofBits (bits id) = id)
    (forth : ∀ word, bits (ofBits word) = word) :
    (Spelling.hex len bits ofBits back).EitherCase := by
  intro text id
  simp only [Spelling.hex, Option.map_eq_some_iff, Hex.parse_eq_some_iff]
  constructor
  · rintro ⟨n, ⟨hlt, htext⟩, rfl⟩
    rw [forth, BitVec.toNat_ofNat, Nat.mod_eq_of_lt (by rwa [pow_mul])]
    exact htext
  · intro htext
    have hlt : (bits id).toNat < 16 ^ len := by
      have h := (bits id).isLt
      rwa [pow_mul] at h
    exact ⟨(bits id).toNat, ⟨hlt, htext⟩, by rw [BitVec.ofNat_toNat, BitVec.setWidth_eq, back]⟩

theorem Spellings.eitherCase_item : Spellings.hex.item.EitherCase :=
  Spelling.eitherCase_hex (fun _ => rfl) fun _ => rfl

theorem Spellings.eitherCase_content : Spellings.hex.content.EitherCase :=
  Spelling.eitherCase_hex (fun _ => rfl) fun _ => rfl

namespace Key

variable {spell : Spellings} {key key' : Bytes} {parsed : Key}

theorem asStr_of_parse {name : Bytes} {field : Field} (h : Field.parse name = some field) :
    field.asStr = name := by
  have hfound := List.find?_some h
  exact of_decide_eq_true hfound

/-- **What is read is the key in lowercase.** -/
theorem encode_of_parse (hitem : spell.item.EitherCase) (hcontent : spell.content.EitherCase)
    (h : parse spell key = some parsed) : parsed.encode spell = lowercase key := by
  have hwords : lowercase ITEMS = ITEMS ∧ lowercase FILE = FILE := by decide
  have hnames : ∀ field : Field, lowercase field.asStr = field.asStr := by
    intro field
    cases field <;> decide
  rw [encode_eq, ← path_segments key, lowercase_path]
  congr 1
  rw [parse] at h
  split at h
  · rename_i items item third rest hsegments
    rw [hsegments]
    split at h
    · cases h
    rename_i hitems
    split at h
    · cases h
    rename_i id hid
    have hprinted := (hitem item id).mp hid
    split at h
    · rename_i hfile
      split at h
      · rename_i blob
        obtain ⟨hash, hhash, rfl⟩ := Option.map_eq_some_iff.mp h
        simp [parts, not_not.mp hitems, hfile, hprinted, (hcontent blob hash).mp hhash, hwords]
      · cases h
    · split at h
      · obtain ⟨field, hfield, rfl⟩ := Option.map_eq_some_iff.mp h
        rw [← asStr_of_parse hfield]
        simp [parts, not_not.mp hitems, hprinted, hwords, hnames]
      · cases h
  · cases h

theorem encode_of_parse_iff (hitem : spell.item.EitherCase) (hcontent : spell.content.EitherCase)
    (h : parse spell key = some parsed) : parsed.encode spell = key ↔ InLowercase key := by
  rw [encode_of_parse hitem hcontent h, lowercase_eq_self_iff]

/-- Two keys in lowercase are read as one only if they are one. -/
theorem parse_ne_of_inLowercase (hitem : spell.item.EitherCase)
    (hcontent : spell.content.EitherCase) (hlower : InLowercase key) (hlower' : InLowercase key')
    (hne : key ≠ key') (parsed : Key) (h : parse spell key = some parsed) :
    parse spell key' ≠ some parsed := by
  intro h'
  have hencode := (encode_of_parse_iff hitem hcontent h).mpr hlower
  rw [(encode_of_parse_iff hitem hcontent h').mpr hlower'] at hencode
  exact hne hencode.symm

end Key

namespace Item

variable {spell : Spellings} {serde : ItemSerde} {item : Item} {key key' value value' : Bytes}

/-- An entry that is taken is what the item says in its place. -/
theorem said_absorb_slot {parsed : Key} {told : SlotValue} (hparsed : Key.parse spell key = some parsed)
    (hmine : parsed.item = item.id) (hread : read serde value parsed.slot = some told) :
    (item.absorb spell serde key value).2.said parsed.slot = some told := by
  rcases absorb_cases spell serde item key value with
    ⟨parsed', told', hparsed', -, hread', hwrites⟩ | ⟨-, -, hunread⟩
  · obtain rfl := Option.some.inj (hparsed.symm.trans hparsed')
    obtain rfl := Option.some.inj (hread.symm.trans hread')
    rw [hwrites.said, Function.update_self]
  · rw [hunread parsed hparsed hmine] at hread
    cases hread

/-- Of two keys of one place, the one read last is what the item says. -/
theorem absorb_order_matters {parsed : Key} {told told' : SlotValue}
    (hparsed : Key.parse spell key = some parsed) (hparsed' : Key.parse spell key' = some parsed)
    (hmine : parsed.item = item.id) (hread : read serde value parsed.slot = some told)
    (hread' : read serde value' parsed.slot = some told') (hne : told ≠ told') :
    ((item.absorb spell serde key value).2.absorb spell serde key' value').2 ≠
      ((item.absorb spell serde key' value').2.absorb spell serde key value).2 := by
  intro heq
  have hid := (said_absorb spell serde item key value).1
  have hid' := (said_absorb spell serde item key' value').1
  have hlast := said_absorb_slot hparsed' (hmine.trans hid.symm) hread'
  have hlast' := said_absorb_slot hparsed (hmine.trans hid'.symm) hread
  rw [heq, hlast'] at hlast
  exact hne (Option.some.inj hlast)

/-- **One spelling exactly for the keys in lowercase.** Whatever spells ids, if it
reads them in either case:

* a key that is read as an item's is the one written for what it is read as if and
  only if none of its bytes is an uppercase hex digit;
* two such keys that differ are read as different fields or files, and whatever
  stands at them, an item ends the same whichever is folded in first;
* but two keys that are read as one, with values that say different things, leave an
  item with whichever was folded in last. -/
theorem one_spelling_iff (spell : Spellings) (hitem : spell.item.EitherCase)
    (hcontent : spell.content.EitherCase) :
    (∀ (key : Bytes) (parsed : Key), Key.parse spell key = some parsed →
      (parsed.encode spell = key ↔ InLowercase key)) ∧
    (∀ key key' : Bytes, InLowercase key → InLowercase key' → key ≠ key' →
      (∀ parsed, Key.parse spell key = some parsed → Key.parse spell key' ≠ some parsed) ∧
      ∀ (serde : ItemSerde) (item : Item) (value value' : Bytes),
        ((item.absorb spell serde key value).2.absorb spell serde key' value').2 =
          ((item.absorb spell serde key' value').2.absorb spell serde key value).2) ∧
    ∀ (key key' : Bytes) (parsed : Key), Key.parse spell key = some parsed →
      Key.parse spell key' = some parsed →
      ∀ (serde : ItemSerde) (item : Item) (value value' : Bytes) (told told' : SlotValue),
        parsed.item = item.id → read serde value parsed.slot = some told →
        read serde value' parsed.slot = some told' → told ≠ told' →
        ((item.absorb spell serde key value).2.absorb spell serde key' value').2 ≠
          ((item.absorb spell serde key' value').2.absorb spell serde key value).2 := by
  refine ⟨fun key parsed => Key.encode_of_parse_iff hitem hcontent, ?_, ?_⟩
  · intro key key' hlower hlower' hne
    have hapart := Key.parse_ne_of_inLowercase hitem hcontent hlower hlower' hne
    exact ⟨hapart, fun serde item value value' => absorb_comm item value value' hapart⟩
  · intro key key' parsed hparsed hparsed' serde item value value' told told' hmine hread hread' hne
    exact absorb_order_matters hparsed hparsed' hmine hread hread' hne

/-- The key of the title of the item of sixty-four times one digit. -/
def titleKey (digit : UInt8) : Bytes := path [ITEMS, List.replicate 64 digit, ascii "title"]

/-- An item of that id, with nothing said about it yet. -/
def repeated : Item := Item.new ⟨BitVec.ofNat 256 (Hex.value (List.replicate 64 10))⟩

/-- JSON for two titles. -/
def twoTitles : ItemSerde :=
  { oneJson.toItemSerde with
    text := fun value =>
      if value = ascii "[Emma]" then some "Emma"
      else if value = ascii "[Persuasion]" then some "Persuasion"
      else none }

/-- In hex, the key with `a` is in the one spelling, and the key with `A` is not. -/
theorem one_spelling_iff_hex :
    (Key.field repeated.id .title).encode .hex = titleKey 97 ∧
      (Key.field repeated.id .title).encode .hex ≠ titleKey 65 := by
  have h := one_spelling_iff .hex Spellings.eitherCase_item Spellings.eitherCase_content
  refine ⟨(h.1 (titleKey 97) (.field repeated.id .title) (by decide +kernel)).mpr (by decide +kernel),
    fun hsame => ?_⟩
  exact absurd ((h.1 (titleKey 65) (.field repeated.id .title) (by decide +kernel)).mp hsame)
    (by decide +kernel)

/-- Both are read as one field, and the item's title is whichever is read last. -/
theorem two_spellings :
    Key.parse .hex (titleKey 65) = some (.field repeated.id .title) ∧
      Key.parse .hex (titleKey 97) = some (.field repeated.id .title) ∧
      (Key.field repeated.id .title).encode .hex ≠ titleKey 65 ∧
      ((repeated.absorb .hex twoTitles (titleKey 65) (ascii "[Emma]")).2.absorb .hex twoTitles
        (titleKey 97) (ascii "[Persuasion]")).2.title = some "Persuasion" ∧
      ((repeated.absorb .hex twoTitles (titleKey 97) (ascii "[Persuasion]")).2.absorb .hex twoTitles
        (titleKey 65) (ascii "[Emma]")).2.title = some "Emma" := by
  refine ⟨by decide +kernel, by decide +kernel, by decide +kernel, by decide +kernel,
    by decide +kernel⟩

end Item

end Distlib
