import Distlib.Custody.Arithmetic
import Distlib.Custody.Pins

/-!
# A keep that needs no room

An item that becomes this node's may be here already, every file of it: cached by a download,
or kept by another item. Such a keep only tags; there is nothing to fetch and no byte to make
room for. An add that grows nothing goes through whatever the limit. A keep does not: once
its files are tagged the verdict compares all that is kept with the limit, and with more kept
than that, for whatever reason, the cache is evicted, or the keep is short of room and its
pin waits, although the item is tagged and every file is here.

`keep` is one keep on its own, from the tags to the answer, on a store that answers every
call; sums are exact. `keep_unneeded_iff` says when such a keep does no more than tag.
-/

namespace Distlib

open OrdMap Pins

/-- What is in a node's blob store. -/
structure BlobStore where
  tags : Tags
  status : ContentHash → BlobStatus

namespace BlobStore

/-- Everything kept, with its sizes. -/
def kept (store : BlobStore) : KeptBlobs := Storage.keptBlobs store.tags store.status

/-- Tags files for a reason. -/
def tagged (store : BlobStore) (reason : KeepReason) (item : ItemId)
    (files : List (ContentHash × ℕ)) : BlobStore :=
  { store with tags := files.foldl (fun tags file => tags.keep ⟨reason, item, file.1⟩) store.tags }

/-- Lets go of an item's cached blobs. -/
def evict (store : BlobStore) (item : ItemId) : BlobStore :=
  let blobs := store.tags.keptFor .cache item
  { store with tags := blobs.foldl (fun tags blob => tags.release ⟨.cache, item, blob⟩) store.tags }

/-- Fetches the files that are not here, one by one, until one fails. -/
def fetchMissing (fetch : ContentHash → Except KeepError ℕ) :
    List ContentHash → BlobStore → BlobStore × Except KeepError Unit
  | [], store => (store, .ok ())
  | blob :: rest, store =>
    if (store.status blob).isComplete then fetchMissing fetch rest store
    else
      match fetch blob with
      | .ok size =>
        fetchMissing fetch rest
          { store with status := Function.update store.status blob (.complete size) }
      | .error error => (store, .error error)

end BlobStore

/-- What one keep does: the store it leaves, the items it lets go of and forgets as held, and
its answer. -/
structure Keeping where
  store : BlobStore
  evicted : List ItemId
  answer : Except KeepError Unit

namespace Keeper

/-- Tags each of the item's files, makes room for them, and fetches the ones not here. An item
that is not in the catalogue is left alone. -/
def keep (limit : Option NonZeroU64) (lastUsed : ItemId → Option ℕ)
    (fetch : ContentHash → Except KeepError ℕ) (item : ItemId) (reason : KeepReason)
    (stored : Option (List (ContentHash × ℕ))) (store : BlobStore) : Keeping :=
  match stored with
  | none => ⟨store, [], .ok ()⟩
  | some files =>
    let store := store.tagged reason item files
    let whenShort := if reason = .custody then .evictNothing else .evictAnyway
    let (evicted, room) := Storage.evictFor limit store.kept lastUsed item files whenShort
    let store := evicted.foldl BlobStore.evict store
    match room, reason with
    | .short shortBy, .custody => ⟨store, evicted, .error (.noRoom shortBy)⟩
    | _, _ =>
      -- over the limit or not, an emergency copy is fetched all the same
      let (store, answer) := store.fetchMissing fetch (files.map Prod.fst)
      ⟨store, evicted, answer⟩

end Keeper

/-! ## What is kept once the files are tagged -/

section Tagged

variable {store : BlobStore} {reason : KeepReason} {item : ItemId}
  {files : List (ContentHash × ℕ)}

theorem mem_tags_tagged (tag : Tag) : tag ∈ (store.tagged reason item files).tags ↔
    (∃ file ∈ files, tag = ⟨reason, item, file.1⟩) ∨ tag ∈ store.tags := by
  have hfold : ∀ (files : List (ContentHash × ℕ)) (tags : Tags),
      tag ∈ files.foldl (fun tags file => tags.keep ⟨reason, item, file.1⟩) tags ↔
        (∃ file ∈ files, tag = ⟨reason, item, file.1⟩) ∨ tag ∈ tags := by
    intro files
    induction files with
    | nil =>
      intro tags
      simp
    | cons file rest ih =>
      intro tags
      rw [List.foldl_cons, ih, Tags.mem_keep, List.exists_mem_cons_iff, or_assoc]
      exact or_left_comm
  exact hfold files store.tags

/-- Files that are here in full are counted as soon as they are tagged: nothing more is
needed for them. -/
theorem uncountedBytes_tagged (hhere : ∀ file ∈ files, store.status file.1 = .complete file.2) :
    (store.tagged reason item files).kept.uncountedBytes files = 0 := by
  have hreads := Storage.reads_keptBlobs (store.tagged reason item files).tags store.status
  rw [KeptBlobs.uncountedBytes, List.sum_eq_zero_iff]
  intro bytes hbytes
  obtain ⟨file, hfile, rfl⟩ := List.mem_map.mp hbytes
  obtain ⟨hmem, huncounted⟩ := List.mem_filter.mp hfile
  obtain ⟨entry, hentry, -⟩ := (hreads.tags ⟨reason, item, file.1⟩).mp
    ((mem_tags_tagged _).mpr (Or.inl ⟨file, hmem, rfl⟩))
  have hsize : entry.bytes = file.2 := by
    have hstatus := (hreads.entries _ entry hentry).2
    rw [hstatus, hhere file hmem]
    rfl
  change (!((Storage.keptBlobs (store.tagged reason item files).tags store.status)[file.1]?).any _) =
    true at huncounted
  rw [hentry] at huncounted
  rw [← hsize]
  simpa using huncounted

theorem fetchMissing_of_here (fetch : ContentHash → Except KeepError ℕ) (blobs : List ContentHash)
    (hhere : ∀ blob ∈ blobs, (store.status blob).isComplete = true) :
    store.fetchMissing fetch blobs = (store, .ok ()) := by
  induction blobs with
  | nil => rfl
  | cons blob rest ih =>
    rw [BlobStore.fetchMissing, if_pos (hhere blob List.mem_cons_self)]
    exact ih fun other hmem => hhere other (List.mem_cons_of_mem _ hmem)

end Tagged

/-! ## Only tagged -/

/-- A keep did no more than tag: it succeeded, let nothing go, and the pin of an item whose
fetch ended so, wanted still and not wanted anew, says that it is kept. -/
def OnlyTagged (item : ItemId) (keeping : Keeping) : Prop :=
  keeping.answer = .ok () ∧ keeping.evicted = [] ∧
    ∀ (me : MemberId) (world : World) (task : ℕ) (availabilityChanged : Bool) (look : Look),
      world.pin item = some (.fetching task false availabilityChanged) →
        (world.fetched me item keeping.answer true look).pin item = some .kept

theorem evictFor_none_of_le {limit : NonZeroU64} {kept : KeptBlobs} {lastUsed : ItemId → Option ℕ}
    {item : ItemId} {files : List (ContentHash × ℕ)} {whenShort : Storage.WhenShort}
    (h : kept.usage.totalBytes + kept.uncountedBytes files ≤ limit) :
    Storage.evictFor (some limit) kept lastUsed item files whenShort = ([], .made) := by
  have hplan : kept.evictions item (kept.uncountedBytes files) limit lastUsed = ⟨[], 0⟩ := by
    have hnone : kept.evictWhileOver limit (kept.candidates item lastUsed)
        (kept.tagCount, kept.usage.totalBytes + kept.uncountedBytes files) =
        ([], kept.usage.totalBytes + kept.uncountedBytes files) := by
      cases kept.candidates item lastUsed with
      | nil => rfl
      | cons next rest =>
        rw [KeptBlobs.evictWhileOver]
        exact if_pos h
    rw [KeptBlobs.evictions, hnone]
    exact congrArg _ (Nat.sub_eq_zero_of_le h)
  rw [Storage.evictFor, hplan]
  rfl

/-- **A keep that needs no bytes only tags** exactly when there is no limit, or all that is
kept once its files are tagged is within it. -/
theorem keep_unneeded_iff (limit : Option NonZeroU64) (lastUsed : ItemId → Option ℕ)
    (fetch : ContentHash → Except KeepError ℕ) (item : ItemId) (files : List (ContentHash × ℕ))
    (store : BlobStore) (hhere : ∀ file ∈ files, store.status file.1 = .complete file.2) :
    OnlyTagged item (Keeper.keep limit lastUsed fetch item .custody (some files) store) ↔
      ∀ bound ∈ limit, (store.tagged .custody item files).kept.usage.totalBytes ≤ bound := by
  have hneeded : (store.tagged .custody item files).kept.uncountedBytes files = 0 :=
    uncountedBytes_tagged hhere
  have hfetched : ∀ evicted : List ItemId,
      (evicted.foldl BlobStore.evict (store.tagged .custody item files)).status = store.status := by
    intro evicted
    induction evicted using List.reverseRecOn with
    | nil => rfl
    | append_singleton evicted last ih =>
      rw [List.foldl_append]
      exact ih
  constructor
  · rintro ⟨hanswer, hevicted, -⟩ bound hbound
    obtain rfl := hbound
    rw [Keeper.keep] at hanswer hevicted
    dsimp only at hanswer hevicted
    rcases hverdict : Storage.evictFor (some bound) (store.tagged .custody item files).kept lastUsed
      item files .evictNothing with ⟨gone, room⟩
    rw [if_pos rfl, hverdict] at hanswer hevicted
    cases room with
    | short shortBy => cases hanswer
    | made =>
      obtain rfl : gone = [] := hevicted
      have hfits := Words.fits_of_made hverdict
      rw [hneeded, KeptBlobs.totalBytes_without, KeptBlobs.tagsLeft_nil,
        ← KeptBlobs.usage_totalBytes] at hfits
      exact hfits
  · intro hwithin
    have hverdict : Storage.evictFor limit (store.tagged .custody item files).kept lastUsed item
        files .evictNothing = ([], .made) := by
      rcases limit with _ | bound
      · rfl
      · exact evictFor_none_of_le (by rw [hneeded]; exact hwithin bound rfl)
    have hkeep : Keeper.keep limit lastUsed fetch item .custody (some files) store =
        ⟨store.tagged .custody item files, [], .ok ()⟩ := by
      rw [Keeper.keep]
      dsimp only
      rw [if_pos rfl, hverdict]
      dsimp only [List.foldl_nil]
      rw [fetchMissing_of_here fetch (files.map Prod.fst) fun blob hblob => by
        obtain ⟨file, hfile, rfl⟩ := List.mem_map.mp hblob
        change (store.status file.1).isComplete = true
        rw [hhere file hfile]
        rfl]
    rw [hkeep]
    refine ⟨rfl, rfl, fun me world task availabilityChanged look hpin => ?_⟩
    rw [World.fetched, hpin]
    dsimp only
    rw [if_neg (by simp), World.fetchAgain]
    simp [World.restingPin, World.setPin, World.pin, Pins.set]

/-! A node over its limit with its own files. -/

section Over

/-- Item 1 is cached, a file of five bytes; item 2 is this node's own, twenty bytes. -/
def overLimit : BlobStore where
  tags := ((⟨[], List.nodup_nil⟩ : Tags).keep ⟨.cache, ⟨1⟩, ⟨1⟩⟩).keep ⟨.own, ⟨2⟩, ⟨2⟩⟩
  status := fun blob => if blob = ⟨1⟩ then .complete 5 else if blob = ⟨2⟩ then .complete 20 else .notFound

/-- Item 1 becomes this node's to keep, under a limit of ten bytes. -/
def keptOverLimit : Keeping :=
  Keeper.keep (some (Words.limitAt 10)) (fun _ => none) (fun _ => .error .stalled) ⟨1⟩ .custody
    (some [(⟨1⟩, 5)]) overLimit

/-- It is tagged and here, and yet short of room by what the node keeps of its own. -/
theorem keptOverLimit_waits :
    (∀ file ∈ [((⟨1⟩ : ContentHash), 5)], overLimit.status file.1 = .complete file.2) ∧
      ⟨.custody, ⟨1⟩, ⟨1⟩⟩ ∈ keptOverLimit.store.tags ∧
      keptOverLimit.answer = .error (.noRoom 15) ∧ ¬ OnlyTagged ⟨1⟩ keptOverLimit := by
  have hanswer : keptOverLimit.answer = .error (.noRoom 15) := by decide +kernel
  refine ⟨by decide, by decide +kernel, hanswer, fun honly => ?_⟩
  have hok := honly.1
  rw [hanswer] at hok
  cases hok

/-- With the limit at twenty-five bytes the keep does no more than tag. -/
theorem keep_unneeded_within :
    OnlyTagged ⟨1⟩ (Keeper.keep (some (Words.limitAt 25)) (fun _ => none)
      (fun _ => .error .stalled) ⟨1⟩ .custody (some [(⟨1⟩, 5)]) overLimit) :=
  (keep_unneeded_iff (some (Words.limitAt 25)) (fun _ => none) (fun _ => .error .stalled) ⟨1⟩
    [(⟨1⟩, 5)] overLimit (by decide)).mpr (by decide +kernel)

end Over

end Distlib
