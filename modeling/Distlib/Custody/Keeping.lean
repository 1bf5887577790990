import Distlib.Lib.GuardedRun
import Distlib.Core.Id

/-!
# Why a node keeps a blob, and how it lets custody go

A blob store keeps a blob while any tag points at it, and garbage collection
deletes the rest. Each reason is its own tag, per item and blob. Letting go of an
item's custody moves its blobs into the cache one by one, the cache's tag first.

The tags are shared: fetches, downloads and evictions of other tasks write them
between any two steps of a release. `Tagging` is what those tasks do. They tag
for any reason, and they evict, which drops a cache tag of an item that no own or
custody tag keeps; an eviction is taken as one moment, its plan included. Nothing but
a release drops a custody tag.

A release awaits the store at every step, so each step may fail, and one that
failed may have been done all the same (`Await`). Its `Course` lists the tags at
every moment from its beginning to the move of the last blob. The stamp that
follows, `mark_used`, touches no tag. The main result is
`Keeper.release_keeps_tagged`: at all those moments, however the release ends and
whatever the other tasks do, each blob the item had custody of carries a custody
or a cache tag.
-/

namespace Distlib

open GuardedRun

/-- Why a node keeps one of an item's blobs, strongest first. -/
inductive KeepReason : Type where
  /-- this node added the item -/
  | own
  /-- this node is one of the item's custodians -/
  | custody
  /-- this node downloaded the item, or was its custodian -/
  | cache
  deriving DecidableEq

/-- Whether what is kept for this reason stays when space is short. -/
def KeepReason.isMandatory (reason : KeepReason) : Bool := reason ≠ .cache

/-- The tag that keeps `blob` of `item` for a reason. -/
structure Tag where
  reason : KeepReason
  item : ItemId
  blob : ContentHash
  deriving DecidableEq

/-! ## The tags of a blob store -/

/-- The tags that are set, each once. -/
structure Tags where
  list : List Tag
  nodup : list.Nodup
  deriving DecidableEq

namespace Tags

instance : Membership Tag Tags := ⟨fun tags tag => tag ∈ tags.list⟩

instance (tag : Tag) (tags : Tags) : Decidable (tag ∈ tags) :=
  inferInstanceAs (Decidable (tag ∈ tags.list))

/-- Keeps a blob for a reason, until that reason is released. -/
def keep (tags : Tags) (tag : Tag) : Tags := ⟨tags.list.insert tag, tags.nodup.insert⟩

/-- Stops keeping a blob for a reason. -/
def release (tags : Tags) (tag : Tag) : Tags := ⟨tags.list.erase tag, tags.nodup.erase tag⟩

/-- Every item and blob kept for `reason`. -/
def kept (tags : Tags) (reason : KeepReason) : List (ItemId × ContentHash) :=
  (tags.list.filter fun tag => tag.reason = reason).map fun tag => (tag.item, tag.blob)

/-- The blobs of `item` kept for `reason`. -/
def keptFor (tags : Tags) (reason : KeepReason) (item : ItemId) : List ContentHash :=
  (tags.list.filter fun tag => tag.reason = reason && tag.item = item).map Tag.blob

/-- Whether an own or a custody tag keeps some blob of `item`. -/
def isMandatory (tags : Tags) (item : ItemId) : Bool :=
  tags.list.any fun tag => tag.item = item && tag.reason.isMandatory

variable {tags : Tags} {tag other : Tag} {item : ItemId} {blob : ContentHash}

@[simp] theorem mem_keep : other ∈ tags.keep tag ↔ other = tag ∨ other ∈ tags :=
  List.mem_insert_iff

@[simp] theorem mem_release : other ∈ tags.release tag ↔ other ≠ tag ∧ other ∈ tags :=
  tags.nodup.mem_erase_iff

theorem mem_keptFor {reason : KeepReason} :
    blob ∈ tags.keptFor reason item ↔ ⟨reason, item, blob⟩ ∈ tags := by
  rw [keptFor, List.mem_map]
  constructor
  · rintro ⟨⟨r, i, b⟩, hmem, rfl⟩
    obtain ⟨hin, heq⟩ := List.mem_filter.mp hmem
    obtain ⟨rfl, rfl⟩ : r = reason ∧ i = item := by simpa using heq
    exact hin
  · intro hmem
    exact ⟨⟨reason, item, blob⟩, List.mem_filter.mpr ⟨hmem, by simp⟩, rfl⟩

theorem nodup_keptFor (tags : Tags) (reason : KeepReason) (item : ItemId) :
    (tags.keptFor reason item).Nodup := by
  refine List.Nodup.map_on ?_ (tags.nodup.filter _)
  rintro ⟨r, i, b⟩ ha ⟨r', i', b'⟩ hb rfl
  have ha' := (List.mem_filter.mp ha).2
  have hb' := (List.mem_filter.mp hb).2
  simp only [Bool.and_eq_true, decide_eq_true_eq] at ha' hb'
  rw [ha'.1, ha'.2, hb'.1, hb'.2]

theorem isMandatory_of_custody (h : ⟨.custody, item, blob⟩ ∈ tags) :
    tags.isMandatory item = true :=
  List.any_eq_true.mpr ⟨_, h, by simp [KeepReason.isMandatory]⟩

end Tags

/-! ## What other tasks do to them -/

/-- One thing another task does to the tags. -/
inductive Tagging : Type where
  /-- a fetch, a download or an add keeps a blob -/
  | keep (tag : Tag)
  /-- room is made: a cached blob of `item` is let go of -/
  | evict (item : ItemId) (blob : ContentHash)
  deriving DecidableEq

namespace Tags

/-- What another task did. Nothing kept as own or custody is evicted. -/
def after (tags : Tags) : Tagging → Tags
  | .keep tag => tags.keep tag
  | .evict item blob =>
    if tags.isMandatory item then tags else tags.release ⟨.cache, item, blob⟩

variable {tags : Tags} {item : ItemId} {blob held : ContentHash}

/-- No other task drops a custody tag. -/
theorem custody_after (op : Tagging) (h : ⟨.custody, item, blob⟩ ∈ tags) :
    ⟨.custody, item, blob⟩ ∈ tags.after op := by
  cases op with
  | keep tag => exact mem_keep.mpr (Or.inr h)
  | evict item' blob' =>
    rw [after]
    split
    · exact h
    · exact mem_release.mpr ⟨by simp, h⟩

/-- No other task drops a cache tag of an item there is custody of. -/
theorem cache_after (op : Tagging) (hheld : ⟨.custody, item, held⟩ ∈ tags)
    (h : ⟨.cache, item, blob⟩ ∈ tags) : ⟨.cache, item, blob⟩ ∈ tags.after op := by
  cases op with
  | keep tag => exact mem_keep.mpr (Or.inr h)
  | evict item' blob' =>
    rw [after]
    split
    · exact h
    · rename_i hnot
      refine mem_release.mpr ⟨?_, h⟩
      rintro heq
      obtain ⟨-, rfl, -⟩ := Tag.mk.inj heq
      exact hnot (isMandatory_of_custody hheld)

end Tags

/-! ## Awaiting the store -/

/-- How the store answered. A call that failed may have been done. -/
inductive Answer : Type where
  | ok
  | failed (done : Bool)
  deriving DecidableEq

/-- One await: what other tasks did before the call took its effect, and the
answer to it. -/
structure Await where
  meanwhile : List Tagging
  answer : Answer
  deriving DecidableEq

instance : Inhabited Await := ⟨⟨[], .ok⟩⟩

/-- A stretch of a release: the tags at every moment of it, the tags it left and
whether it went through. -/
structure Course where
  passed : List Tags
  tags : Tags
  ok : Bool
  deriving DecidableEq

/-- What a call comes to. -/
def Await.call (await : Await) (op : Tags → Tags) (tags : Tags) : Course :=
  let passed := await.meanwhile.scanl Tags.after tags
  let tags := exec Tags.after tags await.meanwhile
  match await.answer with
  | .ok => ⟨passed ++ [op tags], op tags, true⟩
  | .failed true => ⟨passed ++ [op tags], op tags, false⟩
  | .failed false => ⟨passed, tags, false⟩

/-- Going on, unless the call failed. -/
def Course.andThen (course : Course) (next : Tags → Course) : Course :=
  if course.ok then
    let rest := next course.tags
    ⟨course.passed ++ rest.passed, rest.tags, rest.ok⟩
  else course

/-! ## Releasing an item -/

/-- What each await of a release meets: reading the item's custody tags, the two
calls of each blob's move, and the stamp at the end. -/
structure Awaits where
  listing : Await
  moves : List (Await × Await)
  stamp : Await
  deriving DecidableEq, Inhabited

namespace Keeper

/-- Moves blobs from custody to the cache: the cache's tag first, so no collection
in between finds them unkept. -/
def moveToCache (item : ItemId) : List ContentHash → List (Await × Await) → Tags → Course
  | [], _, tags => ⟨[tags], tags, true⟩
  | blob :: blobs, moves, tags =>
    ((moves.headD default).1.call (·.keep ⟨.cache, item, blob⟩) tags).andThen fun tags =>
      ((moves.headD default).2.call (·.release ⟨.custody, item, blob⟩) tags).andThen
        (moveToCache item blobs moves.tail)

/-- Moves `item`'s blobs from custody to the cache. Arriving in the cache counts as
a use, so it is not the first to go. -/
def release (item : ItemId) (awaits : Awaits) (tags : Tags) : Course :=
  let course := (awaits.listing.call id tags).andThen fun tags =>
    moveToCache item (tags.keptFor .custody item) awaits.moves tags
  if course.ok then
    -- every blob is moved: what is left is to stamp the item as used
    let stamped := awaits.stamp.call id course.tags
    ⟨course.passed, stamped.tags, stamped.ok⟩
  else course

end Keeper

/-! ## What holds all along a release -/

/-- `P` holds at every moment of a course, and `Q` of what it leaves when it went
through. -/
structure Course.Keeps (course : Course) (P Q : Tags → Prop) : Prop where
  passed : ∀ tags ∈ course.passed, P tags
  left : P course.tags
  ended : course.ok = true → Q course.tags

section Courses

variable {P Q R : Tags → Prop}

/-- A call keeps what the other tasks keep and its own effect keeps. `S` is what
the other tasks keep; it may be more than what holds all along. -/
theorem Await.keeps_call {S : Tags → Prop} {op : Tags → Tags} {tags : Tags} (await : Await)
    (hstart : S tags) (hothers : ∀ tags tagging, S tags → S (tags.after tagging))
    (hall : ∀ tags, S tags → P tags) (hop : ∀ tags, S tags → P (op tags) ∧ Q (op tags)) :
    (await.call op tags).Keeps P Q := by
  have hmeanwhile : S (exec Tags.after tags await.meanwhile) :=
    exec_invariant hothers await.meanwhile hstart
  obtain ⟨hP, hQ⟩ := hop _ hmeanwhile
  have hpassed : ∀ seen ∈ await.meanwhile.scanl Tags.after tags, P seen :=
    fun seen hseen => hall _ (scanl_invariant hothers await.meanwhile hstart seen hseen)
  have hwith : ∀ seen ∈ await.meanwhile.scanl Tags.after tags ++
      [op (exec Tags.after tags await.meanwhile)], P seen := by
    intro seen hseen
    rcases List.mem_append.mp hseen with hbefore | hlast
    · exact hpassed seen hbefore
    · exact List.mem_singleton.mp hlast ▸ hP
  rw [Await.call]
  split
  · exact ⟨hwith, hP, fun _ => hQ⟩
  · exact ⟨hwith, hP, fun h => by cases h⟩
  · exact ⟨hpassed, hall _ hmeanwhile, fun h => by cases h⟩

theorem Course.Keeps.andThen {course : Course} {next : Tags → Course} (h : course.Keeps P Q)
    (hnext : ∀ tags, P tags → Q tags → (next tags).Keeps P R) :
    (course.andThen next).Keeps P R := by
  rw [Course.andThen]
  split
  · rename_i hok
    have hrest := hnext _ h.left (h.ended hok)
    refine ⟨fun tags hmem => ?_, hrest.left, hrest.ended⟩
    rcases List.mem_append.mp hmem with hbefore | hafter
    · exact h.passed tags hbefore
    · exact hrest.passed tags hafter
  · rename_i hnot
    exact ⟨h.passed, h.left, fun hok => absurd hok hnot⟩

end Courses

namespace Keeper

variable {item : ItemId} {had : ContentHash → Prop} {tags : Tags}

/-- Each blob of `item` in `had` carries a custody or a cache tag. -/
def Tagged (item : ItemId) (had : ContentHash → Prop) (tags : Tags) : Prop :=
  ∀ blob, had blob → ⟨.custody, item, blob⟩ ∈ tags ∨ ⟨.cache, item, blob⟩ ∈ tags

/-- While there is custody of one blob of the item, other tasks leave the others
tagged. -/
theorem Tagged.after {held : ContentHash} (h : Tagged item had tags)
    (hheld : ⟨.custody, item, held⟩ ∈ tags) (op : Tagging) : Tagged item had (tags.after op) := by
  intro blob hblob
  rcases h blob hblob with hcustody | hcache
  · exact Or.inl (Tags.custody_after op hcustody)
  · exact Or.inr (Tags.cache_after op hheld hcache)

/-- The move of the blobs still to be moved keeps all of them tagged. -/
theorem moveToCache_keeps (blobs : List ContentHash) :
    ∀ {moves : List (Await × Await)} {tags : Tags}, blobs.Nodup → Tagged item had tags →
      (∀ blob ∈ blobs, ⟨.custody, item, blob⟩ ∈ tags) →
      (moveToCache item blobs moves tags).Keeps (Tagged item had) (fun _ => True) := by
  induction blobs with
  | nil =>
    intro moves tags _ htagged _
    exact ⟨fun seen hseen => List.mem_singleton.mp hseen ▸ htagged, htagged, fun _ => trivial⟩
  | cons blob blobs ih =>
    intro moves tags hnodup htagged hall
    obtain ⟨hnew, hrest⟩ := List.nodup_cons.mp hnodup
    -- until it is dropped, the custody tag of `blob` keeps evictions off the item
    let Held : Tags → Prop := fun tags =>
      Tagged item had tags ∧ ∀ b ∈ blob :: blobs, ⟨.custody, item, b⟩ ∈ tags
    let Moving : Tags → Prop := fun tags => Held tags ∧ ⟨.cache, item, blob⟩ ∈ tags
    have hheld : ∀ tags op, Held tags → Held (tags.after op) := by
      rintro tags op ⟨ht, hc⟩
      exact ⟨ht.after (hc blob List.mem_cons_self) op,
        fun b hb => Tags.custody_after op (hc b hb)⟩
    have hmoving : ∀ tags op, Moving tags → Moving (tags.after op) := by
      rintro tags op ⟨hh, hcache⟩
      exact ⟨hheld tags op hh, Tags.cache_after op (hh.2 blob List.mem_cons_self) hcache⟩
    rw [moveToCache]
    refine Course.Keeps.andThen (Q := Moving) ?_ fun tags _ hm => ?_
    · refine Await.keeps_call _ (S := Held) ⟨htagged, hall⟩ hheld (fun _ h => h.1) ?_
      rintro tags ⟨ht, hc⟩
      have hkept : Tagged item had (tags.keep ⟨.cache, item, blob⟩) := fun b hb =>
        (ht b hb).imp (fun h => Tags.mem_keep.mpr (Or.inr h)) fun h => Tags.mem_keep.mpr (Or.inr h)
      exact ⟨hkept, ⟨hkept, fun b hb => Tags.mem_keep.mpr (Or.inr (hc b hb))⟩,
        Tags.mem_keep.mpr (Or.inl rfl)⟩
    · refine Course.Keeps.andThen
        (Q := fun tags => ∀ b ∈ blobs, ⟨.custody, item, b⟩ ∈ tags) ?_
        fun tags ht hc => ih hrest ht hc
      refine Await.keeps_call _ (S := Moving) hm hmoving (fun _ h => h.1.1) ?_
      rintro tags ⟨⟨ht, hc⟩, hcache⟩
      constructor
      · intro b hb
        by_cases heq : b = blob
        · exact Or.inr (Tags.mem_release.mpr ⟨by simp, heq ▸ hcache⟩)
        · exact (ht b hb).imp (fun h => Tags.mem_release.mpr ⟨by simp [heq], h⟩)
            fun h => Tags.mem_release.mpr ⟨by simp, h⟩
      · intro b hb
        have hne : b ≠ blob := fun heq => hnew (heq ▸ hb)
        exact Tags.mem_release.mpr ⟨by simp [hne], hc b (List.mem_cons_of_mem _ hb)⟩

/-- **A release leaves no blob untagged.** -/
theorem release_keeps_tagged (item : ItemId) (awaits : Awaits) (before : Tags) :
    ∀ tags ∈ (release item awaits before).passed,
      Tagged item (fun blob => ⟨.custody, item, blob⟩ ∈ before) tags := by
  -- until the tags are read, no custody tag goes at all
  let Whole : Tags → Prop := fun tags =>
    ∀ blob, ⟨.custody, item, blob⟩ ∈ before → ⟨.custody, item, blob⟩ ∈ tags
  have htagged : ∀ tags, Whole tags →
      Tagged item (fun blob => ⟨.custody, item, blob⟩ ∈ before) tags :=
    fun tags hwhole blob hblob => Or.inl (hwhole blob hblob)
  have hcourse : ((awaits.listing.call id before).andThen fun tags =>
      moveToCache item (tags.keptFor .custody item) awaits.moves tags).Keeps
        (Tagged item fun blob => ⟨.custody, item, blob⟩ ∈ before) (fun _ => True) := by
    refine Course.Keeps.andThen (Q := fun _ => True) ?_ fun tags ht _ => ?_
    · refine Await.keeps_call _ (S := Whole) (fun _ h => h) ?_ htagged fun tags h =>
        ⟨htagged tags h, trivial⟩
      intro tags op hwhole blob hblob
      exact Tags.custody_after op (hwhole blob hblob)
    · exact moveToCache_keeps _ (Tags.nodup_keptFor tags _ _) ht fun blob hblob =>
        Tags.mem_keptFor.mp hblob
  intro tags hmem
  rw [release] at hmem
  split at hmem
  · exact hcourse.passed tags hmem
  · exact hcourse.passed tags hmem

/-- The move of one item's blobs leaves every other custody tag. -/
theorem moveToCache_frame {tag : Tag} (hcustody : tag.reason = .custody) (hother : tag.item ≠ item)
    (blobs : List ContentHash) :
    ∀ {moves : List (Await × Await)} {tags : Tags}, tag ∈ tags →
      (moveToCache item blobs moves tags).Keeps (tag ∈ ·) (fun _ => True) := by
  obtain ⟨reason, item', held⟩ := tag
  subst hcustody
  induction blobs with
  | nil =>
    intro moves tags htag
    exact ⟨fun seen hseen => List.mem_singleton.mp hseen ▸ htag, htag, fun _ => trivial⟩
  | cons blob blobs ih =>
    intro moves tags htag
    rw [moveToCache]
    refine Course.Keeps.andThen (Q := fun _ => True) ?_ fun tags htag _ => ?_
    · exact Await.keeps_call _ htag (fun _ op h => Tags.custody_after op h) (fun _ h => h)
        fun tags h => ⟨Tags.mem_keep.mpr (Or.inr h), trivial⟩
    · refine Course.Keeps.andThen (Q := fun _ => True) ?_ fun tags htag _ => ih htag
      exact Await.keeps_call _ htag (fun _ op h => Tags.custody_after op h) (fun _ h => h)
        fun tags h => ⟨Tags.mem_release.mpr ⟨by simp [hother], h⟩, trivial⟩

/-- A release drops the custody tags of its own item only. -/
theorem release_frame {tag : Tag} (awaits : Awaits) (hcustody : tag.reason = .custody)
    (hother : tag.item ≠ item) (htag : tag ∈ tags) : tag ∈ (release item awaits tags).tags := by
  have hothers : ∀ (tags : Tags) (op : Tagging), tag ∈ tags → tag ∈ tags.after op := by
    obtain ⟨reason, item', blob⟩ := tag
    subst hcustody
    exact fun tags op h => Tags.custody_after op h
  have hcourse : ((awaits.listing.call id tags).andThen fun tags =>
      moveToCache item (tags.keptFor .custody item) awaits.moves tags).Keeps
        (tag ∈ ·) (fun _ => True) :=
    Course.Keeps.andThen (Q := fun _ => True)
      (Await.keeps_call _ htag hothers (fun _ h => h) fun _ h => ⟨h, trivial⟩)
      fun tags h _ => moveToCache_frame hcustody hother _ h
  rw [release]
  split
  · exact (Await.keeps_call (P := (tag ∈ ·)) (Q := fun _ => True) awaits.stamp hcourse.left hothers
      (fun _ h => h) fun _ h => ⟨h, trivial⟩).left
  · exact hcourse.left

end Keeper

end Distlib
