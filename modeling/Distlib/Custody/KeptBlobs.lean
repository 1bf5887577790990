import Distlib.Custody.Keeping

/-!
# What the kept blobs take, and what to evict

Each blob a node keeps counts once, whatever the number of tags that keep it. When
space is short the cached items go, least recently used first, and a blob goes with
the last of its tags.

Eviction is planned on counts: how many tags each blob has left, and the bytes that
are still taken. Both are changed blob by blob as an item goes. `evictions_spec` says what the counts come to:
once the planned items are gone, what is taken is what the tags left over keep, plus
what is needed.

Bytes are natural numbers here, so every sum is the exact one; the program's are
`u64`.
-/

namespace Distlib

open OrdMap

/-- How strong a reason is: own first, the cache last. -/
def KeepReason.strength : KeepReason → ℕ
  | .own => 0
  | .custody => 1
  | .cache => 2

/-- The stronger of two reasons. -/
instance : Min KeepReason := ⟨fun a b => if a.strength ≤ b.strength then a else b⟩

/-- Every reason, strongest first. -/
def KeepReason.all : List KeepReason := [.own, .custody, .cache]

/-- A blob that is kept: its size, and why and for which item each of its tags keeps it. -/
structure KeptBlob where
  bytes : ℕ
  tags : List (KeepReason × ItemId)
  deriving DecidableEq

def KeptBlob.strongestReason (kept : KeptBlob) : Option KeepReason :=
  (kept.tags.map Prod.fst).min?

/-- The bytes a node keeps, by the strongest reason each blob is kept for. -/
structure StorageUse where
  ownBytes : ℕ
  custodyBytes : ℕ
  cacheBytes : ℕ
  deriving DecidableEq

namespace StorageUse

/-- What stays when space is short. -/
def mandatoryBytes (usage : StorageUse) : ℕ := usage.ownBytes + usage.custodyBytes

/-- Everything kept. -/
def totalBytes (usage : StorageUse) : ℕ := usage.mandatoryBytes + usage.cacheBytes

/-- Counts `bytes` under a reason. -/
def count (usage : StorageUse) (bytes : ℕ) : KeepReason → StorageUse
  | .own => { usage with ownBytes := usage.ownBytes + bytes }
  | .custody => { usage with custodyBytes := usage.custodyBytes + bytes }
  | .cache => { usage with cacheBytes := usage.cacheBytes + bytes }

@[simp] theorem totalBytes_count (usage : StorageUse) (bytes : ℕ) (reason : KeepReason) :
    (usage.count bytes reason).totalBytes = usage.totalBytes + bytes := by
  cases reason <;> simp only [count, totalBytes, mandatoryBytes] <;> omega

end StorageUse

/-- Each blob a node keeps, with its size and every tag that keeps it. -/
abbrev KeptBlobs := OrdMap ContentHash KeptBlob

/-- The cached items to let go of, and how many bytes are still over the limit once
they are gone. -/
structure Evictions where
  items : List ItemId
  shortBy : ℕ
  deriving DecidableEq

namespace KeptBlobs

/-- Adds the tag that keeps `blob` for `reason` and `item`. The size a blob was first
added with stands. -/
def add (kept : KeptBlobs) (reason : KeepReason) (item : ItemId) (blob : ContentHash) (bytes : ℕ) :
    KeptBlobs :=
  let entry := (kept[blob]?).getD ⟨bytes, []⟩
  kept.insert blob { entry with tags := entry.tags ++ [(reason, item)] }

/-- The bytes kept for each reason, each blob counted once. -/
def usage (kept : KeptBlobs) : StorageUse :=
  kept.toList.foldl (fun usage entry =>
    match entry.2.strongestReason with
    | none => usage
    | some reason => usage.count entry.2.bytes reason) ⟨0, 0, 0⟩

/-- How many bytes of `blobs` are not counted yet: those not kept, or kept before any
of their bytes arrived. -/
def uncountedBytes (kept : KeptBlobs) (blobs : List (ContentHash × ℕ)) : ℕ :=
  ((blobs.filter fun blob => !(kept[blob.1]?).any fun entry => 0 < entry.bytes).map Prod.snd).sum

/-- Each cached item with each blob that a cache tag keeps for it. -/
def cacheTags (kept : KeptBlobs) : List (ItemId × ContentHash) :=
  kept.toList.flatMap fun entry =>
    (entry.2.tags.filter fun tag => !tag.1.isMandatory).map fun tag => (tag.2, entry.1)

/-- The cached blobs of `item`. -/
def cached (kept : KeptBlobs) (item : ItemId) : List ContentHash :=
  (kept.cacheTags.filter fun tag => tag.1 = item).map Prod.snd

/-- The items an own or a custody tag keeps a blob of. -/
def mandatory (kept : KeptBlobs) : List ItemId :=
  kept.toList.flatMap fun entry => (entry.2.tags.filter fun tag => tag.1.isMandatory).map Prod.snd

/-- Whether `a` goes before `b`: the one used longer ago, one never stamped first, and
ties by item id. -/
def goesBefore (a b : Option ℕ × ItemId) : Bool :=
  ((compare a.1 b.1).then (compare a.2 b.2)).isLE

/-- The cached items that may go, in the order they go. -/
def candidates (kept : KeptBlobs) (keeping : ItemId) (lastUsed : ItemId → Option ℕ) :
    List ItemId :=
  ((((kept.cacheTags.map Prod.fst).dedup.filter fun item =>
    item ≠ keeping && item ∉ kept.mandatory).map fun item => (lastUsed item, item)).insertionSort
      fun a b => goesBefore a b = true).map Prod.snd

/-- The size a blob is kept with. -/
def bytesOf (kept : KeptBlobs) (blob : ContentHash) : ℕ := (kept[blob]?).elim 0 KeptBlob.bytes

/-- One tag of `blob` goes: with the last of them its bytes do. -/
def dropTag (kept : KeptBlobs) (left : (ContentHash → ℕ) × ℕ) (blob : ContentHash) :
    (ContentHash → ℕ) × ℕ :=
  let tags := left.1 blob - 1
  (Function.update left.1 blob tags, if tags = 0 then left.2 - kept.bytesOf blob else left.2)

/-- Lets items go while the total is over the limit. The total that is left comes with
the items. -/
def evictWhileOver (kept : KeptBlobs) (limit : ℕ) :
    List ItemId → (ContentHash → ℕ) × ℕ → List ItemId × ℕ
  | [], left => ([], left.2)
  | item :: rest, left =>
    if left.2 ≤ limit then ([], left.2)
    else
      let (items, total) := kept.evictWhileOver limit rest ((kept.cached item).foldl kept.dropTag left)
      (item :: items, total)

/-- How many tags keep a blob. -/
def tagCount (kept : KeptBlobs) (blob : ContentHash) : ℕ :=
  (kept[blob]?).elim 0 fun entry => entry.tags.length

/-- The cached items to let go of for `needed` more bytes to fit under `limit`, and no
more than that takes. Never `keeping`, the item room is made for, nor an item also kept
as own or custody. -/
def evictions (kept : KeptBlobs) (keeping : ItemId) (needed limit : ℕ)
    (lastUsed : ItemId → Option ℕ) : Evictions :=
  let (items, total) := kept.evictWhileOver limit (kept.candidates keeping lastUsed)
    (kept.tagCount, kept.usage.totalBytes + needed)
  ⟨items, total - limit⟩

/-! ## What a reading comes to -/

section Sums

variable {kept : KeptBlobs} {reason : KeepReason} {item : ItemId} {blob other : ContentHash}
  {bytes : ℕ}

theorem getElem?_add_self : (kept.add reason item blob bytes)[blob]? =
    some ⟨(kept[blob]?).elim bytes KeptBlob.bytes,
      (kept[blob]?).elim [] KeptBlob.tags ++ [(reason, item)]⟩ := by
  rw [add, Std.ExtTreeMap.getElem?_insert_self]
  cases kept[blob]? with
  | none => rfl
  | some entry => rfl

theorem getElem?_add_of_ne (h : other ≠ blob) :
    (kept.add reason item blob bytes)[other]? = kept[other]? := by
  rw [add, Std.ExtTreeMap.getElem?_insert, if_neg]
  rw [Std.LawfulEqCmp.compare_eq_iff_eq]
  exact Ne.symm h

theorem strongestReason_eq_none_iff {entry : KeptBlob} :
    entry.strongestReason = none ↔ entry.tags = [] := by
  rw [KeptBlob.strongestReason, List.min?_eq_none_iff, List.map_eq_nil_iff]

/-- What is still taken when `left b` tags of each blob `b` are left. -/
def taken (kept : KeptBlobs) (left : ContentHash → ℕ) : ℕ :=
  ∑ blob ∈ keySet kept, if left blob = 0 then 0 else kept.bytesOf blob

/-- Each blob with a tag is counted once. -/
theorem usage_totalBytes (kept : KeptBlobs) : kept.usage.totalBytes = kept.taken kept.tagCount := by
  have hfold : ∀ (entries : List (ContentHash × KeptBlob)) (usage : StorageUse),
      (entries.foldl (fun usage entry =>
        match entry.2.strongestReason with
        | none => usage
        | some reason => usage.count entry.2.bytes reason) usage).totalBytes =
      usage.totalBytes +
        (entries.map fun entry => if entry.2.tags.length = 0 then 0 else entry.2.bytes).sum := by
    intro entries
    induction entries with
    | nil => intro usage; simp
    | cons entry rest ih =>
      intro usage
      rw [List.foldl_cons, ih, List.map_cons, List.sum_cons]
      split
      · rename_i hnone
        rw [if_pos (List.length_eq_zero_iff.mpr (strongestReason_eq_none_iff.mp hnone)), Nat.zero_add]
      · rename_i reason hsome
        have htags : entry.2.tags.length ≠ 0 := fun hnil => by
          rw [strongestReason_eq_none_iff.mpr (List.length_eq_zero_iff.mp hnil)] at hsome
          cases hsome
        rw [if_neg htags, StorageUse.totalBytes_count]
        omega
  rw [usage, hfold, sum_toList kept fun _ entry => if entry.tags.length = 0 then 0 else entry.bytes]
  simp only [StorageUse.totalBytes, StorageUse.mandatoryBytes, Nat.zero_add, taken]
  refine Finset.sum_congr rfl fun blob _ => ?_
  rw [tagCount, bytesOf]
  cases kept[blob]? with
  | none => simp
  | some entry => rfl

end Sums

/-! ## What an eviction comes to -/

section Evict

variable {kept : KeptBlobs} {item : ItemId} {blob : ContentHash} {left : ContentHash → ℕ}
  {total needed limit : ℕ} {gone : List ItemId}

/-- Whether a tag stays once the cache tags of the items in `gone` are dropped. -/
def stays (gone : List ItemId) (tag : KeepReason × ItemId) : Bool :=
  tag.1.isMandatory || tag.2 ∉ gone

/-- How many tags of a blob are left by then. -/
def tagsLeft (kept : KeptBlobs) (gone : List ItemId) (blob : ContentHash) : ℕ :=
  (kept[blob]?).elim 0 fun entry => entry.tags.countP (stays gone)

theorem tagsLeft_nil : kept.tagsLeft [] = kept.tagCount := by
  funext blob
  rw [tagsLeft, tagCount]
  cases kept[blob]? with
  | none => rfl
  | some entry =>
    refine List.countP_eq_length.mpr fun tag _ => ?_
    simp [stays]

/-- A blob is as often among an item's cached blobs as cache tags of the item keep it. -/
theorem count_cached (kept : KeptBlobs) (item : ItemId) (blob : ContentHash) :
    (kept.cached item).count blob =
      (kept[blob]?).elim 0 fun entry => entry.tags.countP fun tag =>
        !tag.1.isMandatory && decide (tag.2 = item) := by
  have hentry : ∀ entry : ContentHash × KeptBlob,
      (((entry.2.tags.filter fun tag => !tag.1.isMandatory).map fun tag => (tag.2, entry.1)).countP
        fun tag => decide (tag.2 = blob) && decide (tag.1 = item)) =
      if entry.1 = blob then entry.2.tags.countP fun tag =>
        !tag.1.isMandatory && decide (tag.2 = item) else 0 := by
    rintro ⟨named, entry⟩
    rw [List.countP_map, List.countP_filter]
    split
    · rename_i heq
      obtain rfl : named = blob := heq
      refine List.countP_congr fun tag _ => ?_
      simp [and_comm]
    · rename_i hne
      refine List.countP_eq_zero.mpr fun tag _ => ?_
      simp [hne]
  rw [cached, List.count_eq_countP, List.countP_map, List.countP_filter, cacheTags,
    List.countP_flatMap]
  have hsum := sum_toList kept fun named entry => if named = blob then entry.tags.countP fun tag =>
    !tag.1.isMandatory && decide (tag.2 = item) else 0
  calc _ = (kept.toList.map fun entry => if entry.1 = blob then entry.2.tags.countP fun tag =>
        !tag.1.isMandatory && decide (tag.2 = item) else 0).sum := by
        congr 1
        refine List.map_congr_left fun entry _ => ?_
        rw [← hentry entry]
        rfl
    _ = _ := hsum
    _ = _ := by
      by_cases hkept : blob ∈ keySet kept
      · rw [Finset.sum_eq_single_of_mem blob hkept]
        · cases kept[blob]? <;> simp
        · intro other _ hne
          cases kept[other]? <;> simp [hne]
      · have hnone : kept[blob]? = none := by
          simpa using hkept
        rw [hnone]
        refine Finset.sum_eq_zero fun other hother => ?_
        have hne : other ≠ blob := fun heq => hkept (heq ▸ hother)
        cases kept[other]? <;> simp [hne]

theorem mem_of_mem_cached (h : blob ∈ kept.cached item) : blob ∈ keySet kept := by
  obtain ⟨⟨item', blob'⟩, hmem, rfl⟩ := List.mem_map.mp h
  obtain ⟨entry, hentry, htag⟩ := List.mem_flatMap.mp (List.mem_filter.mp hmem).1
  obtain ⟨tag, -, heq⟩ := List.mem_map.mp htag
  obtain ⟨-, rfl⟩ := Prod.mk.inj heq
  rw [mem_keySet, mem_iff_exists]
  exact ⟨entry.2, Std.ExtTreeMap.mem_toList_iff_getElem?_eq_some.mp hentry⟩

/-- What one blob takes is taken as long as a tag of it is left. -/
theorem taken_update (kept : KeptBlobs) (hkept : blob ∈ keySet kept) (hleft : left blob ≠ 0) (n : ℕ) :
    kept.taken left =
      kept.taken (Function.update left blob n) + if n = 0 then kept.bytesOf blob else 0 := by
  have hrest : ∑ other ∈ (keySet kept).erase blob,
      (if Function.update left blob n other = 0 then 0 else kept.bytesOf other) =
      ∑ other ∈ (keySet kept).erase blob, if left other = 0 then 0 else kept.bytesOf other := by
    refine Finset.sum_congr rfl fun other hother => ?_
    rw [Function.update_of_ne (Finset.ne_of_mem_erase hother)]
  rw [taken, taken, ← Finset.add_sum_erase _ _ hkept, ← Finset.add_sum_erase _ _ hkept, hrest,
    if_neg hleft, Function.update_self]
  split <;> omega

/-- Dropping some cached tags keeps the counts right. -/
theorem foldl_dropTag (needed : ℕ) (blobs : List ContentHash) :
    ∀ {left : ContentHash → ℕ} {total : ℕ}, (∀ blob, blobs.count blob ≤ left blob) →
      (∀ blob ∈ blobs, blob ∈ keySet kept) → total = needed + kept.taken left →
      (∀ blob, (blobs.foldl kept.dropTag (left, total)).1 blob = left blob - blobs.count blob) ∧
        (blobs.foldl kept.dropTag (left, total)).2 =
          needed + kept.taken (blobs.foldl kept.dropTag (left, total)).1 := by
  induction blobs with
  | nil =>
    intro left total _ _ htotal
    exact ⟨fun blob => by simp, htotal⟩
  | cons blob rest ih =>
    intro left total hcount hkept htotal
    have hleft : rest.count blob + 1 ≤ left blob := by simpa using hcount blob
    have hother : ∀ other, Function.update left blob (left blob - 1) other =
        left other - [blob].count other := by
      intro other
      by_cases heq : other = blob
      · obtain rfl := heq
        simp
      · rw [Function.update_of_ne heq, List.count_singleton, if_neg (by simpa using Ne.symm heq),
          Nat.sub_zero]
    have htaken := taken_update kept (hkept blob List.mem_cons_self)
      (show left blob ≠ 0 by omega) (left blob - 1)
    obtain ⟨hrest, hsum⟩ := @ih (Function.update left blob (left blob - 1))
      (if left blob - 1 = 0 then total - kept.bytesOf blob else total)
      (fun other => by
        have hall := hcount other
        rw [← List.singleton_append, List.count_append] at hall
        rw [hother]
        omega)
      (fun other hmem => hkept other (List.mem_cons_of_mem _ hmem))
      (by
        rw [htotal, htaken]
        split <;> omega)
    refine ⟨fun other => ?_, hsum⟩
    rw [List.foldl_cons, dropTag, hrest, hother, Nat.sub_sub, ← List.count_append,
      List.singleton_append]

/-- An item's cached tags are what its going takes. -/
theorem tagsLeft_cons (hnew : item ∉ gone) (blob : ContentHash) :
    (kept.cached item).count blob ≤ kept.tagsLeft gone blob ∧
      kept.tagsLeft (item :: gone) blob =
        kept.tagsLeft gone blob - (kept.cached item).count blob := by
  rw [count_cached, tagsLeft, tagsLeft]
  cases kept[blob]? with
  | none => simp
  | some entry =>
    simp only [Option.elim_some]
    have hsplit : entry.tags.countP (stays gone) = entry.tags.countP (stays (item :: gone)) +
        entry.tags.countP fun tag => !tag.1.isMandatory && decide (tag.2 = item) := by
      induction entry.tags with
      | nil => rfl
      | cons tag rest ih =>
        simp only [List.countP_cons, ih, stays, List.mem_cons]
        by_cases hmandatory : tag.1.isMandatory = true
        · simp [hmandatory]
          omega
        · by_cases hitem : tag.2 = item
          · simp [hmandatory, hitem, hnew]
            omega
          · simp [hmandatory, hitem]
            omega
    omega

/-- The order in which items go does not matter to what is left. -/
theorem tagsLeft_congr {gone' : List ItemId} (h : ∀ item, item ∈ gone ↔ item ∈ gone') :
    kept.tagsLeft gone = kept.tagsLeft gone' := by
  funext blob
  have hstays : stays gone = stays gone' := by
    funext tag
    simp [stays, h]
  rw [tagsLeft, tagsLeft, hstays]

/-- **One item goes**: the counts are those of what is left without it, and so is the total. -/
theorem foldl_dropTag_cached (kept : KeptBlobs) (hnew : item ∉ gone)
    (htotal : total = needed + kept.taken (kept.tagsLeft gone)) :
    (kept.cached item).foldl kept.dropTag (kept.tagsLeft gone, total) =
      (kept.tagsLeft (item :: gone), needed + kept.taken (kept.tagsLeft (item :: gone))) := by
  obtain ⟨hleft, hsum⟩ := foldl_dropTag needed (kept.cached item)
    (fun blob => (tagsLeft_cons hnew blob).1) (fun blob => mem_of_mem_cached) htotal
  have hgone : ((kept.cached item).foldl kept.dropTag (kept.tagsLeft gone, total)).1 =
      kept.tagsLeft (item :: gone) := by
    funext blob
    rw [hleft, (tagsLeft_cons hnew blob).2]
  rw [hgone] at hsum
  exact Prod.ext hgone hsum

/-- **The counts of an eviction are right**: as items go, the total stays what is needed
plus what the tags left over keep. -/
theorem evictWhileOver_spec (kept : KeptBlobs) (needed limit : ℕ) (items : List ItemId) :
    ∀ (gone : List ItemId) (total : ℕ), items.Nodup → (∀ item ∈ items, item ∉ gone) →
      total = needed + kept.taken (kept.tagsLeft gone) →
      (kept.evictWhileOver limit items (kept.tagsLeft gone, total)).2 =
        needed + kept.taken (kept.tagsLeft
          ((kept.evictWhileOver limit items (kept.tagsLeft gone, total)).1 ++ gone)) := by
  induction items with
  | nil => intro gone total _ _ htotal; exact htotal
  | cons item rest ih =>
    intro gone total hnodup hnew htotal
    rw [evictWhileOver]
    split
    · exact htotal
    · obtain ⟨hother, hnodup⟩ := List.nodup_cons.mp hnodup
      rw [foldl_dropTag_cached kept (hnew item List.mem_cons_self) htotal]
      have hlater := ih (item :: gone) _ hnodup (fun next hnext => by
        simp only [List.mem_cons, not_or]
        exact ⟨fun heq => hother (heq ▸ hnext), hnew next (List.mem_cons_of_mem _ hnext)⟩) rfl
      dsimp only
      rw [hlater]
      congr 2
      refine tagsLeft_congr fun other => ?_
      simp only [List.mem_append, List.mem_cons]
      tauto

theorem nodup_candidates (kept : KeptBlobs) (keeping : ItemId) (lastUsed : ItemId → Option ℕ) :
    (kept.candidates keeping lastUsed).Nodup := by
  have hperm := (((kept.cacheTags.map Prod.fst).dedup.filter fun item =>
    item ≠ keeping && item ∉ kept.mandatory).map fun item =>
      (lastUsed item, item)).perm_insertionSort (fun a b => goesBefore a b = true) |>.map Prod.snd
  rw [candidates, hperm.nodup_iff, List.map_map]
  refine List.Nodup.map_on ?_ ((List.nodup_dedup _).filter _)
  intro a _ b _ heq
  exact heq

/-- **A plan says what it leaves**: the bytes still over the limit once its items are
gone are those of what the other tags keep, plus what is needed. -/
theorem evictions_spec (kept : KeptBlobs) (keeping : ItemId) (needed limit : ℕ)
    (lastUsed : ItemId → Option ℕ) :
    (kept.evictions keeping needed limit lastUsed).shortBy =
      needed + kept.taken (kept.tagsLeft (kept.evictions keeping needed limit lastUsed).items) -
        limit := by
  have hspec := evictWhileOver_spec kept needed limit (kept.candidates keeping lastUsed) []
    (kept.usage.totalBytes + needed) (nodup_candidates kept keeping lastUsed)
    (fun _ _ => List.not_mem_nil) (by rw [tagsLeft_nil, usage_totalBytes, Nat.add_comm])
  rw [List.append_nil, tagsLeft_nil] at hspec
  rw [evictions]
  dsimp only
  rw [hspec]

end Evict

end KeptBlobs
end Distlib
