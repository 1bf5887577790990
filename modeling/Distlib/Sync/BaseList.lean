import Distlib.Core.Catalogue
import Distlib.Lib.FixedWidth
import Distlib.Sync.Statement

/-!
# A list of items, as it is published

A member's base is a blob: a format byte, then the ids of the items it holds, 32
bytes each, sorted and without repeats. Two members that hold the same items
publish the same bytes, however the items were gathered, so the blobs' hashes
can be compared (`encodeBase_inj`). The reader asks less: any ids will do, in
any order and repeated, as long as they are whole and not too many
(`decodeBase_ok_iff`).
-/

namespace Distlib

open FixedWidth

/-- The most ids a base list may hold. -/
def BASE_MAX : ℕ := 10000000

/-- The first byte of every base list. -/
def BASE_FORMAT : UInt8 := 1

/-- A base list that cannot be read. -/
structure BadBaseList where
  reason : String
  deriving DecidableEq

def ItemId.asBytes (item : ItemId) : Bytes := bigEndian 32 item.hash.toNat

/-- Wraps raw bytes without interpreting them. -/
def ItemId.fromBytes (bytes : Bytes) : ItemId := ⟨BitVec.ofNat 256 (ofBigEndian bytes)⟩

/-- A member's full list of held items, as published. -/
def encodeBase (items : List ItemId) : Bytes :=
  let ids := (items.insertionSort ItemId.SortsBefore).destutter (· ≠ ·)
  BASE_FORMAT :: ids.flatMap ItemId.asBytes

/-- Reads a base list, fetched whole. -/
def decodeBase : Bytes → Except BadBaseList (List ItemId)
  | [] => .error ⟨"it is empty"⟩
  | format :: ids =>
    if format ≠ BASE_FORMAT then .error ⟨"it is in a format this build does not read"⟩
    else
      let chunks := asChunks 32 ids
      if chunks.2 ≠ [] then .error ⟨"it ends partway through an id"⟩
      else if chunks.1.length > BASE_MAX then .error ⟨"it holds more ids than any list may"⟩
      else .ok (chunks.1.map ItemId.fromBytes)

/-! ## Ids as words -/

namespace ItemId

theorem hash_lt (item : ItemId) : item.hash.toNat < 256 ^ 32 := item.hash.isLt

theorem length_asBytes (item : ItemId) : item.asBytes.length = 32 := length_bigEndian item.hash_lt

@[simp] theorem fromBytes_asBytes (item : ItemId) : fromBytes item.asBytes = item := by
  rw [fromBytes, asBytes, ofBigEndian_bigEndian, BitVec.ofNat_toNat, BitVec.setWidth_eq]

/-- Any 32 bytes are some id's. -/
theorem asBytes_fromBytes {bytes : Bytes} (h : bytes.length = 32) :
    (fromBytes bytes).asBytes = bytes := by
  have hlt := ofBigEndian_lt bytes
  rw [h] at hlt
  have hfits : (BitVec.ofNat 256 (ofBigEndian bytes)).toNat = ofBigEndian bytes :=
    (BitVec.toNat_ofNat _ _).trans (Nat.mod_eq_of_lt hlt)
  rw [fromBytes, asBytes, hfits, ← h, bigEndian_ofBigEndian]

theorem asBytes_injective : Function.Injective asBytes :=
  Function.LeftInverse.injective fromBytes_asBytes

/-- Ids sort as their bytes do. -/
theorem place_lt_iff (a b : ItemId) : a.place < b.place ↔ a.asBytes < b.asBytes := by
  rw [← ofBigEndian_lt_ofBigEndian (a.length_asBytes.trans b.length_asBytes.symm), asBytes, asBytes,
    ofBigEndian_bigEndian, ofBigEndian_bigEndian]
  rfl

end ItemId

/-! ## Sorted, and without repeats -/

/-- The ids of a list, sorted and without repeats. -/
def distinctIds (items : List ItemId) : List ItemId :=
  (items.insertionSort ItemId.SortsBefore).destutter (· ≠ ·)

theorem encodeBase_eq (items : List ItemId) :
    encodeBase items = BASE_FORMAT :: (distinctIds items).flatMap ItemId.asBytes := rfl

theorem mem_destutter'_ne {α : Type} [DecidableEq α] {a : α} :
    ∀ (l : List α) (b : α), a ∈ l.destutter' (· ≠ ·) b ↔ a = b ∨ a ∈ l
  | [], b => by simp
  | c :: l, b => by
    rw [List.destutter'_cons]
    split
    · rw [List.mem_cons, mem_destutter'_ne l c, List.mem_cons]
    · rename_i hsame
      rw [mem_destutter'_ne l b, List.mem_cons, not_not.mp hsame, or_self_left]

/-- What is left out was a repeat. -/
theorem mem_destutter_ne {α : Type} [DecidableEq α] {a : α} (l : List α) :
    a ∈ l.destutter (· ≠ ·) ↔ a ∈ l := by
  rcases l with _ | ⟨b, l⟩
  · simp
  · rw [List.destutter_cons', mem_destutter'_ne, List.mem_cons]

theorem mem_distinctIds {items : List ItemId} {item : ItemId} :
    item ∈ distinctIds items ↔ item ∈ items := by
  rw [distinctIds, mem_destutter_ne, List.mem_insertionSort]

theorem pairwise_distinctIds (items : List ItemId) :
    (distinctIds items).Pairwise fun a b => a.place < b.place := by
  have hsorted : (distinctIds items).Pairwise ItemId.SortsBefore :=
    (List.pairwise_insertionSort ItemId.SortsBefore items).sublist (List.destutter_sublist _ _)
  have hchain := List.isChain_destutter (· ≠ ·) (items.insertionSort ItemId.SortsBefore)
  rw [← distinctIds] at hchain
  rw [List.isChain_iff_getElem] at hchain
  -- neighbours are in order and differ, so they are in strict order, and so are any two
  have hstrict : ((distinctIds items).map ItemId.place).IsChain (· < ·) := by
    rw [List.isChain_iff_getElem]
    intro i hi
    rw [List.length_map] at hi
    have hle := List.pairwise_iff_getElem.mp hsorted i (i + 1) (Nat.lt_of_succ_lt hi) hi
      (Nat.lt_succ_self i)
    rw [List.getElem_map, List.getElem_map]
    exact lt_of_le_of_ne hle fun heq => hchain i hi (ItemId.place_inj heq)
  exact List.pairwise_map.mp (List.isChain_iff_pairwise.mp hstrict)

theorem nodup_distinctIds (items : List ItemId) : (distinctIds items).Nodup := by
  refine (pairwise_distinctIds items).imp ?_
  rintro a b hlt rfl
  exact Nat.lt_irrefl _ hlt

theorem length_distinctIds (items : List ItemId) :
    (distinctIds items).length = items.toFinset.card := by
  rw [← List.toFinset_card_of_nodup (nodup_distinctIds items)]
  congr 1
  ext item
  rw [List.mem_toFinset, List.mem_toFinset, mem_distinctIds]

/-- Sorted, without repeats, and the same ids: the same list. -/
theorem distinctIds_eq_iff {a b : List ItemId} :
    distinctIds a = distinctIds b ↔ ∀ item, item ∈ a ↔ item ∈ b := by
  refine ⟨fun h item => ?_, fun h => ?_⟩
  · rw [← mem_distinctIds, h, mem_distinctIds]
  · have hperm : (distinctIds a).Perm (distinctIds b) :=
      (List.perm_ext_iff_of_nodup (nodup_distinctIds a) (nodup_distinctIds b)).mpr fun item => by
        rw [mem_distinctIds, mem_distinctIds, h]
    have hsorted : ∀ items, (distinctIds items).Pairwise ItemId.SortsBefore := fun items =>
      (pairwise_distinctIds items).imp fun hlt => hlt.le
    exact hperm.eq_of_pairwise' (hsorted a) (hsorted b)

/-! ## What is published, and what is read -/

/-- The bytes tell the ids, in their order. -/
theorem flatMap_asBytes_injective : ∀ {a b : List ItemId},
    a.flatMap ItemId.asBytes = b.flatMap ItemId.asBytes → a = b := by
  intro a b h
  have hcut : ∀ ids : List ItemId,
      asChunks 32 (ids.flatMap ItemId.asBytes) = (ids.map ItemId.asBytes, []) := by
    intro ids
    rw [asChunks_eq_iff (by decide)]
    refine ⟨?_, by decide, by rw [List.append_nil, List.flatMap_def]⟩
    intro word hword
    obtain ⟨item, -, rfl⟩ := List.mem_map.mp hword
    exact item.length_asBytes
  have hwords := hcut a
  rw [h, hcut b] at hwords
  exact ((List.map_injective_iff.mpr ItemId.asBytes_injective) (Prod.mk.inj hwords).1).symm

/-- **What a reader accepts**: the format byte, and whole ids after it, not too
many; and it reads those ids. -/
theorem decodeBase_ok_iff {bytes : Bytes} {ids : List ItemId} :
    decodeBase bytes = .ok ids ↔
      ∃ words : List Bytes, (∀ word ∈ words, word.length = 32) ∧ words.length ≤ BASE_MAX ∧
        bytes = BASE_FORMAT :: words.flatten ∧ ids = words.map ItemId.fromBytes := by
  rcases bytes with _ | ⟨format, rest⟩
  · simp [decodeBase]
  obtain ⟨⟨words, left⟩, hcut⟩ : ∃ cut, asChunks 32 rest = cut := ⟨_, rfl⟩
  have hparts := (asChunks_eq_iff (by decide)).mp hcut
  rw [decodeBase, hcut]
  constructor
  · intro h
    split at h
    · cases h
    rename_i hformat
    simp only at h
    split at h
    · cases h
    rename_i hwhole
    split at h
    · cases h
    rename_i hfew
    obtain ⟨hwords, -, rfl⟩ := hparts
    refine ⟨words, hwords, not_lt.mp hfew, ?_, (Except.ok.inj h).symm⟩
    rw [not_not.mp hformat, not_not.mp hwhole, List.append_nil]
  · rintro ⟨words', hwords, hfew, heq, rfl⟩
    obtain ⟨rfl, rfl⟩ := List.cons.inj heq
    have hcut' : asChunks 32 words'.flatten = (words', []) :=
      (asChunks_eq_iff (by decide)).mpr ⟨hwords, by decide, (List.append_nil _).symm⟩
    obtain ⟨rfl, rfl⟩ := Prod.mk.inj (hcut.symm.trans hcut')
    simp [hfew]

/-- **Base lists.** Whatever items are gathered, in whatever order and however
often:

* no more than a list may hold, they are read back, each once, in ascending order;
* two gatherings make the same bytes if and only if they are of the same items;
* and what is read is exactly a format byte and whole ids, no more than a list may
  hold, in whatever order they stand. -/
theorem base_lists :
    (∀ items : List ItemId, items.toFinset.card ≤ BASE_MAX →
      ∃ ids, decodeBase (encodeBase items) = .ok ids ∧
        ids.Pairwise (fun a b => a.asBytes < b.asBytes) ∧ ∀ item, item ∈ ids ↔ item ∈ items) ∧
    (∀ a b : List ItemId, encodeBase a = encodeBase b ↔ ∀ item, item ∈ a ↔ item ∈ b) ∧
    ∀ (bytes : Bytes) (ids : List ItemId), decodeBase bytes = .ok ids ↔
      ∃ words : List Bytes, (∀ word ∈ words, word.length = 32) ∧ words.length ≤ BASE_MAX ∧
        bytes = BASE_FORMAT :: words.flatten ∧ ids = words.map ItemId.fromBytes := by
  refine ⟨fun items hfew => ⟨distinctIds items, ?_, ?_, fun item => mem_distinctIds⟩,
    fun a b => ?_, fun bytes ids => decodeBase_ok_iff⟩
  · refine decodeBase_ok_iff.mpr ⟨(distinctIds items).map ItemId.asBytes, ?_, ?_, ?_, ?_⟩
    · intro word hword
      obtain ⟨item, -, rfl⟩ := List.mem_map.mp hword
      exact item.length_asBytes
    · rw [List.length_map, length_distinctIds]
      exact hfew
    · rw [encodeBase_eq, List.flatMap_def]
    · rw [List.map_map, Function.LeftInverse.id ItemId.fromBytes_asBytes, List.map_id]
  · exact (pairwise_distinctIds items).imp fun hlt => (ItemId.place_lt_iff _ _).mp hlt
  · rw [encodeBase_eq, encodeBase_eq, List.cons.injEq, ← distinctIds_eq_iff]
    exact ⟨fun h => flatMap_asBytes_injective h.2, fun h => ⟨rfl, by rw [h]⟩⟩

end Distlib
