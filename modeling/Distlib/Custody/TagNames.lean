import Distlib.Core.Keys
import Distlib.Custody.Keeping

/-!
# The names of the tags

What keeps a blob is a tag in the blob store, and a tag is a name: `own/`, `custody/` or
`cache/`, the item's id, a slash and the blob's. Everything a node knows of why it keeps
what it keeps it reads from these names, which it asks for by what they begin with. The
store is not its own: the catalogue's documents have tags there too, under names of their
own.

`Keeping` takes the tags for what they mean. Here the names are spelled out, and
`names_are_tags` puts the two together: after any calls, of which any may have failed and
been done all the same, and whatever others do under names that are no tags of this kind,
each list that is read by its names is the list of the tags, and a blob is kept by a name of
this kind exactly if a tag keeps it. It is the reasons that must not begin with one another,
and the slash after the item that keeps one item's tags from being listed with another's.

A name is its bytes. One that is not text is no tag: ids are in hex.
-/

namespace Distlib

open GuardedRun OrdMap

/-! ## Names -/

namespace KeepReason

/-- What every tag for this reason starts with. -/
def asPrefix : KeepReason → Bytes
  | .own => ascii "own/"
  | .custody => ascii "custody/"
  | .cache => ascii "cache/"

/-- What every tag for this reason and `item` starts with. -/
def itemPrefix (spell : Spellings) (reason : KeepReason) (item : ItemId) : Bytes :=
  reason.asPrefix ++ spell.item.print item ++ [SLASH]

end KeepReason

/-- The name of a tag: `<reason>/<item>/<blob>`. -/
def Tag.name (spell : Spellings) (tag : Tag) : Bytes :=
  tag.reason.asPrefix ++ spell.item.print tag.item ++ SLASH :: spell.content.print tag.blob

/-- A text before its first slash and after it, if there is one. -/
def splitOnce : Bytes → Option (Bytes × Bytes)
  | [] => none
  | byte :: rest =>
    if byte = SLASH then some ([], rest)
    else (splitOnce rest).map fun split => (byte :: split.1, split.2)

/-- The item and blob a name for this reason names; none if it is not one. -/
def KeepReason.parse (spell : Spellings) (reason : KeepReason) (name : Bytes) :
    Option (ItemId × ContentHash) := do
  let (item, blob) ← splitOnce (← name.dropPrefix? reason.asPrefix)
  return (← spell.item.parse item, ← spell.content.parse blob)

theorem splitOnce_append {segment rest : Bytes} (h : SLASH ∉ segment) :
    splitOnce (segment ++ SLASH :: rest) = some (segment, rest) := by
  induction segment with
  | nil => simp [splitOnce]
  | cons byte segment ih =>
    obtain ⟨hbyte, hsegment⟩ := not_or.mp (List.mem_cons.not.mp h)
    rw [List.cons_append, splitOnce, if_neg fun heq => hbyte heq.symm, ih hsegment]
    rfl

/-- No reason's names begin as another's do. -/
theorem KeepReason.asPrefix_isPrefix_iff (reason other : KeepReason) :
    reason.asPrefix <+: other.asPrefix ↔ reason = other := by
  cases reason <;> cases other <;> decide

variable {spell : Spellings} {reason : KeepReason} {tag other : Tag} {item : ItemId}
  {blob : ContentHash} {name : Bytes}

/-- A name begins as those of its reason do, and no other. -/
theorem Tag.asPrefix_isPrefix_name : reason.asPrefix <+: tag.name spell ↔ reason = tag.reason := by
  rw [name, List.append_assoc]
  constructor
  · intro h
    rcases List.prefix_or_prefix_of_prefix h (List.prefix_append ..) with hfirst | hsecond
    · exact (KeepReason.asPrefix_isPrefix_iff _ _).mp hfirst
    · exact ((KeepReason.asPrefix_isPrefix_iff _ _).mp hsecond).symm
  · rintro rfl
    exact List.prefix_append ..

/-- **A tag's name reads back as its item and blob**, for its reason and for no other. -/
theorem Tag.parse_name : reason.parse spell (tag.name spell) =
    if reason = tag.reason then some (tag.item, tag.blob) else none := by
  rw [KeepReason.parse]
  split
  · rename_i hreason
    subst hreason
    have hdrop : (tag.name spell).dropPrefix? tag.reason.asPrefix =
        some (spell.item.print tag.item ++ SLASH :: spell.content.print tag.blob) := by
      rw [name, List.append_assoc]
      exact List.dropPrefix?_append_of_beq _ (beq_self_eq_true _)
    simp [hdrop, splitOnce_append (spell.item.slashless tag.item), Spelling.parse_print]
  · rename_i hreason
    have hdrop : (tag.name spell).dropPrefix? reason.asPrefix = none := by
      rw [Option.eq_none_iff_forall_ne_some]
      intro rest hrest
      obtain ⟨front, hname, hfront⟩ := List.dropPrefix?_eq_some_iff.mp hrest
      rw [beq_iff_eq] at hfront
      exact hreason (Tag.asPrefix_isPrefix_name.mp ⟨rest, by rw [← hfront, hname]⟩)
    rw [hdrop]
    rfl

/-- Two tags have one name only if they are one. -/
theorem Tag.name_inj : tag.name spell = other.name spell ↔ tag = other := by
  refine ⟨fun h => ?_, congrArg _⟩
  have hparse : tag.reason.parse spell (tag.name spell) = _ := parse_name
  rw [h, parse_name, if_pos rfl] at hparse
  split at hparse
  · rename_i hreason
    obtain ⟨hitem, hblob⟩ := Prod.mk.inj (Option.some.inj hparse)
    cases tag
    cases other
    exact Tag.mk.injEq .. ▸ ⟨hreason, hitem.symm, hblob.symm⟩
  · exact absurd hparse (Option.some_ne_none _).symm

/-- The names that are listed for an item are its own. -/
theorem Tag.itemPrefix_isPrefix_name {item' : ItemId} :
    reason.itemPrefix spell item <+: Tag.name spell ⟨reason, item', blob⟩ ↔ item = item' := by
  rw [KeepReason.itemPrefix, Tag.name, List.append_assoc, List.append_assoc,
    List.prefix_append_right_inj]
  constructor
  · intro h
    exact spell.item.print_inj.mp
      (isPrefix_cons_slash (spell.item.slashless _) (spell.item.slashless _) h).1
  · rintro rfl
    exact (List.prefix_append_right_inj _).mpr ⟨spell.content.print blob, rfl⟩

/-! ## The store of the names -/

/-- The tags of a blob store: each name, and the blob it keeps. -/
abbrev TagStore : Type := OrdMap Bytes ContentHash

namespace TagStore

/-- The tags whose names begin with `front`, in the order of their names. -/
def listPrefix (store : TagStore) (front : Bytes) : List (Bytes × ContentHash) :=
  store.toList.filter fun entry => front.isPrefixOf entry.1

/-- The items and blobs that the names beginning with `front` name. -/
def keptUnder (spell : Spellings) (store : TagStore) (reason : KeepReason) (front : Bytes) :
    List (ItemId × ContentHash) :=
  (store.listPrefix front).filterMap fun entry => reason.parse spell entry.1

/-- Every item and blob kept for `reason`. -/
def kept (spell : Spellings) (store : TagStore) (reason : KeepReason) :
    List (ItemId × ContentHash) :=
  store.keptUnder spell reason reason.asPrefix

/-- The blobs of `item` kept for `reason`. -/
def keptFor (spell : Spellings) (store : TagStore) (reason : KeepReason) (item : ItemId) :
    List ContentHash :=
  (store.keptUnder spell reason (reason.itemPrefix spell item)).map Prod.snd

end TagStore

/-- What is done to the names: this node keeps a blob or releases it, or somebody sets a name
of their own, or deletes it. -/
inductive TagCall : Type where
  | keep (tag : Tag)
  | release (tag : Tag)
  | set (name : Bytes) (blob : ContentHash)
  | delete (name : Bytes)

/-- What a call does to the names. -/
def TagStore.call (spell : Spellings) (store : TagStore) : TagCall → TagStore
  | .keep tag => store.insert (tag.name spell) tag.blob
  | .release tag => store.erase (tag.name spell)
  | .set name blob => store.insert name blob
  | .delete name => store.erase name

/-- What it does to the tags. -/
def Tags.call (tags : Tags) : TagCall → Tags
  | .keep tag => tags.keep tag
  | .release tag => tags.release tag
  | .set _ _ | .delete _ => tags

/-- Whether a call was done. -/
def Answer.done : Answer → Bool
  | .ok => true
  | .failed done => done

/-- Others use names that are not read as tags of this kind. -/
def TagCall.Apart (spell : Spellings) : TagCall → Prop
  | .keep _ | .release _ => True
  | .set name _ | .delete name => ∀ reason : KeepReason, reason.parse spell name = none

/-! ## The names are the tags -/

/-- A store has the name of each tag that is set, for the tag's blob, and no other name that
is read as a tag. -/
structure Spells (spell : Spellings) (store : TagStore) (tags : Tags) : Prop where
  lookup : ∀ tag : Tag, store[tag.name spell]? = if tag ∈ tags then some tag.blob else none
  canonical : ∀ name ∈ store, ∀ reason item blob,
    KeepReason.parse spell reason name = some (item, blob) →
      name = Tag.name spell ⟨reason, item, blob⟩

/-- The name of a tag is read as one. -/
theorem Tag.name_ne (h : ∀ reason : KeepReason, reason.parse spell name = none) :
    name ≠ tag.name spell := by
  rintro rfl
  have hparse := h tag.reason
  rw [Tag.parse_name, if_pos rfl] at hparse
  exact Option.some_ne_none _ hparse

variable {store : TagStore} {tags : Tags}

theorem spells_empty (spell : Spellings) : Spells spell ∅ ⟨[], List.nodup_nil⟩ where
  lookup _ := Std.ExtTreeMap.getElem?_empty
  canonical _ hmem := absurd hmem Std.ExtTreeMap.not_mem_empty

theorem Spells.keep (h : Spells spell store tags) (tag : Tag) :
    Spells spell (store.insert (tag.name spell) tag.blob) (tags.keep tag) where
  lookup other := by
    rw [Std.ExtTreeMap.getElem?_insert, h.lookup]
    simp only [Std.LawfulEqCmp.compare_eq_iff_eq, Tag.name_inj, Tags.mem_keep]
    by_cases hsame : tag = other
    · simp [hsame]
    · simp [hsame, Ne.symm hsame]
  canonical name hmem reason item blob hparse := by
    rcases Std.ExtTreeMap.mem_insert.mp hmem with hname | hold
    · obtain rfl := Std.LawfulEqCmp.compare_eq_iff_eq.mp hname
      rw [Tag.parse_name] at hparse
      split at hparse
      · rename_i hreason
        obtain ⟨rfl, rfl⟩ := Prod.mk.inj (Option.some.inj hparse)
        rw [hreason]
      · exact absurd hparse (Option.some_ne_none _).symm
    · exact h.canonical name hold reason item blob hparse

theorem Spells.release (h : Spells spell store tags) (tag : Tag) :
    Spells spell (store.erase (tag.name spell)) (tags.release tag) where
  lookup other := by
    rw [Std.ExtTreeMap.getElem?_erase, h.lookup]
    simp only [Std.LawfulEqCmp.compare_eq_iff_eq, Tag.name_inj, Tags.mem_release]
    by_cases hsame : tag = other
    · simp [hsame]
    · simp [hsame, Ne.symm hsame]
  canonical name hmem := h.canonical name (Std.ExtTreeMap.mem_of_mem_erase hmem)

theorem Spells.set (h : Spells spell store tags) (blob : ContentHash)
    (hapart : ∀ reason : KeepReason, reason.parse spell name = none) :
    Spells spell (store.insert name blob) tags where
  lookup tag := by
    rw [Std.ExtTreeMap.getElem?_insert, h.lookup, if_neg]
    rw [Std.LawfulEqCmp.compare_eq_iff_eq]
    exact Tag.name_ne hapart
  canonical other hmem reason item blob' hparse := by
    rcases Std.ExtTreeMap.mem_insert.mp hmem with hname | hold
    · obtain rfl := Std.LawfulEqCmp.compare_eq_iff_eq.mp hname
      exact absurd hparse (by simp [hapart reason])
    · exact h.canonical other hold reason item blob' hparse

theorem Spells.delete (h : Spells spell store tags)
    (hapart : ∀ reason : KeepReason, reason.parse spell name = none) :
    Spells spell (store.erase name) tags where
  lookup tag := by
    rw [Std.ExtTreeMap.getElem?_erase, h.lookup, if_neg]
    rw [Std.LawfulEqCmp.compare_eq_iff_eq]
    exact Tag.name_ne hapart
  canonical other hmem := h.canonical other (Std.ExtTreeMap.mem_of_mem_erase hmem)

theorem Spells.call (h : Spells spell store tags) {call : TagCall} (hapart : call.Apart spell) :
    Spells spell (store.call spell call) (tags.call call) := by
  cases call with
  | keep tag => exact h.keep tag
  | release tag => exact h.release tag
  | set name blob => exact h.set blob hapart
  | delete name => exact h.delete hapart

/-! ### Listing -/

theorem TagStore.mem_listPrefix {front : Bytes} {entry : Bytes × ContentHash} :
    entry ∈ store.listPrefix front ↔ store[entry.1]? = some entry.2 ∧ front <+: entry.1 := by
  rw [listPrefix, List.mem_filter, Std.ExtTreeMap.mem_toList_iff_getElem?_eq_some,
    List.isPrefixOf_iff_prefix]

theorem TagStore.mem_of_getElem?_eq_some (h : store[name]? = some blob) : name ∈ store := by
  rw [Std.ExtTreeMap.mem_iff_isSome_getElem?, h]
  rfl

/-- What is named under a beginning is named by tags whose names begin so. -/
theorem Spells.mem_keptUnder (h : Spells spell store tags) {front : Bytes} :
    (item, blob) ∈ store.keptUnder spell reason front ↔
      (⟨reason, item, blob⟩ : Tag) ∈ tags ∧ front <+: Tag.name spell ⟨reason, item, blob⟩ := by
  rw [TagStore.keptUnder, List.mem_filterMap]
  constructor
  · rintro ⟨⟨name, held⟩, hmem, hparse⟩
    obtain ⟨hheld, hfront⟩ := TagStore.mem_listPrefix.mp hmem
    obtain rfl := h.canonical name (TagStore.mem_of_getElem?_eq_some hheld) reason item blob hparse
    refine ⟨?_, hfront⟩
    by_contra hnot
    rw [h.lookup, if_neg hnot] at hheld
    exact Option.some_ne_none _ hheld.symm
  · rintro ⟨hmem, hfront⟩
    refine ⟨(Tag.name spell ⟨reason, item, blob⟩, blob), TagStore.mem_listPrefix.mpr ⟨?_, hfront⟩, ?_⟩
    · rw [h.lookup, if_pos hmem]
    · rw [Tag.parse_name, if_pos rfl]

/-- Nothing is listed twice: what a name says is named by no other. -/
theorem Spells.nodup_keptUnder (h : Spells spell store tags) (reason : KeepReason)
    (front : Bytes) : (store.keptUnder spell reason front).Nodup := by
  have hdistinct : (store.listPrefix front).Pairwise fun a b => compare a.1 b.1 ≠ .eq :=
    Std.ExtTreeMap.distinct_keys_toList.filter _
  refine List.pairwise_filterMap.mpr (hdistinct.imp_of_mem ?_)
  rintro ⟨name, blob⟩ ⟨name', blob'⟩ hmem hmem' hne ⟨item, hash⟩ hparse ⟨item', hash'⟩ hparse' hsame
  obtain ⟨rfl, rfl⟩ := Prod.mk.inj hsame
  have hname := h.canonical name
    (TagStore.mem_of_getElem?_eq_some (TagStore.mem_listPrefix.mp hmem).1) reason item hash hparse
  have hname' := h.canonical name'
    (TagStore.mem_of_getElem?_eq_some (TagStore.mem_listPrefix.mp hmem').1) reason item hash hparse'
  exact hne (Std.LawfulEqCmp.compare_eq_iff_eq.mpr (hname.trans hname'.symm))

theorem Tags.mem_kept : (item, blob) ∈ tags.kept reason ↔ (⟨reason, item, blob⟩ : Tag) ∈ tags := by
  rw [Tags.kept, List.mem_map]
  constructor
  · rintro ⟨⟨r, i, b⟩, hmem, hsame⟩
    obtain ⟨hin, hreason⟩ := List.mem_filter.mp hmem
    obtain ⟨rfl, rfl⟩ := Prod.mk.inj hsame
    obtain rfl := of_decide_eq_true hreason
    exact hin
  · intro hmem
    exact ⟨⟨reason, item, blob⟩, List.mem_filter.mpr ⟨hmem, decide_eq_true rfl⟩, rfl⟩

theorem Tags.nodup_kept (tags : Tags) (reason : KeepReason) : (tags.kept reason).Nodup := by
  refine List.Nodup.map_on ?_ (tags.nodup.filter _)
  rintro ⟨r, i, b⟩ hmem ⟨r', i', b'⟩ hmem' hsame
  have hreason := of_decide_eq_true (List.mem_filter.mp hmem).2
  have hreason' := of_decide_eq_true (List.mem_filter.mp hmem').2
  obtain ⟨rfl, rfl⟩ := Prod.mk.inj hsame
  exact Tag.mk.injEq .. ▸ ⟨hreason.trans hreason'.symm, rfl, rfl⟩

/-- What is listed for a reason is what is kept for it. -/
theorem Spells.perm_kept (h : Spells spell store tags) (reason : KeepReason) :
    (store.kept spell reason).Perm (tags.kept reason) := by
  refine (List.perm_ext_iff_of_nodup (h.nodup_keptUnder reason _) (tags.nodup_kept reason)).mpr ?_
  rintro ⟨item, blob⟩
  rw [h.mem_keptUnder, Tags.mem_kept]
  exact and_iff_left (Tag.asPrefix_isPrefix_name.mpr rfl)

/-- What is listed for an item is what is kept for it. -/
theorem Spells.perm_keptFor (h : Spells spell store tags) (reason : KeepReason) (item : ItemId) :
    (store.keptFor spell reason item).Perm (tags.keptFor reason item) := by
  have hmine : ∀ pair ∈ store.keptUnder spell reason (reason.itemPrefix spell item),
      pair.1 = item := by
    rintro ⟨other, blob⟩ hmem
    exact (Tag.itemPrefix_isPrefix_name.mp (h.mem_keptUnder.mp hmem).2).symm
  have hnodup : (store.keptFor spell reason item).Nodup := by
    refine List.Nodup.map_on ?_ (h.nodup_keptUnder reason _)
    intro first hfirst second hsecond hsame
    exact Prod.ext ((hmine first hfirst).trans (hmine second hsecond).symm) hsame
  refine (List.perm_ext_iff_of_nodup hnodup (tags.nodup_keptFor reason item)).mpr fun blob => ?_
  rw [Tags.mem_keptFor, TagStore.keptFor, List.mem_map]
  constructor
  · rintro ⟨⟨other, blob⟩, hmem, rfl⟩
    obtain rfl : other = item := hmine _ hmem
    exact (h.mem_keptUnder.mp hmem).1
  · intro hmem
    exact ⟨(item, blob), h.mem_keptUnder.mpr ⟨hmem, Tag.itemPrefix_isPrefix_name.mpr rfl⟩, rfl⟩

/-! ## Runs -/

/-- **What a node reads from the names is what it has done.** After any calls, each of which
may have failed and been done all the same, and whatever is done under other names, the
lists of what is kept for a reason, and for an item, have exactly the tags that are set, each
once; and a name that is read as a tag keeps a blob exactly if a tag that is set is of that
blob, so a blob kept for two reasons, or by two items, stays until every one of them is
released. -/
theorem names_are_tags (spell : Spellings) (calls : List (TagCall × Answer))
    (hapart : ∀ call ∈ calls, call.1.Apart spell) :
    let store := exec (attempt (TagStore.call spell) Answer.done) ∅ calls
    let tags := exec (attempt Tags.call Answer.done) ⟨[], List.nodup_nil⟩ calls
    (∀ reason, (store.kept spell reason).Perm (tags.kept reason)) ∧
      (∀ reason item, (store.keptFor spell reason item).Perm (tags.keptFor reason item)) ∧
      ∀ blob, (∃ name, store[name]? = some blob ∧
          ∃ reason : KeepReason, (reason.parse spell name).isSome) ↔
        ∃ tag ∈ tags, tag.blob = blob := by
  intro store tags
  have hspells : Spells spell store tags :=
    simulates (attempt_simulates (fun _ call => call.Apart spell) fun _ _ _ h hok => h.call hok)
      (spells_empty spell) (along_of_forall calls hapart)
  refine ⟨hspells.perm_kept, hspells.perm_keptFor, fun blob => ?_⟩
  constructor
  · rintro ⟨name, hname, reason, hread⟩
    obtain ⟨⟨item, hash⟩, hparse⟩ := Option.isSome_iff_exists.mp hread
    obtain rfl := hspells.canonical name (TagStore.mem_of_getElem?_eq_some hname) reason item hash
      hparse
    rw [hspells.lookup] at hname
    split at hname
    · rename_i hmem
      exact ⟨_, hmem, Option.some.inj hname⟩
    · exact absurd hname (Option.some_ne_none _).symm
  · rintro ⟨tag, hmem, rfl⟩
    refine ⟨tag.name spell, ?_, tag.reason, ?_⟩
    · rw [hspells.lookup, if_pos hmem]
    · rw [Tag.parse_name, if_pos rfl]
      rfl

/-! ### Two reasons for one blob -/

/-- A blob is kept as the node's own and in the cache, under names beside one of a document's;
the first release fails, and has not been done. -/
def twoReasons : List (TagCall × Answer) :=
  [(.keep ⟨.own, ⟨1⟩, ⟨2⟩⟩, .ok), (.set (ascii "doc/") ⟨2⟩, .ok),
    (.keep ⟨.cache, ⟨1⟩, ⟨2⟩⟩, .failed true), (.release ⟨.cache, ⟨1⟩, ⟨2⟩⟩, .failed false),
    (.release ⟨.own, ⟨1⟩, ⟨2⟩⟩, .ok)]

theorem apart_twoReasons : ∀ call ∈ twoReasons, call.1.Apart .hex := by
  have hdoc : ∀ reason : KeepReason, reason.parse .hex (ascii "doc/") = none := by
    intro reason
    cases reason <;> decide
  simp [twoReasons, TagCall.Apart, hdoc]

/-- It stays in the cache. -/
theorem names_are_tags_twoReasons :
    let store := exec (attempt (TagStore.call .hex) Answer.done) ∅ twoReasons
    (store.kept .hex .own).Perm [] ∧ (store.kept .hex .cache).Perm [(⟨1⟩, ⟨2⟩)] := by
  obtain ⟨hkept, -, -⟩ := names_are_tags .hex twoReasons apart_twoReasons
  exact ⟨hkept .own, hkept .cache⟩

end Distlib
