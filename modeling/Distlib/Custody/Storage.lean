import Distlib.Custody.KeptBlobs

/-!
# Room under the storage limit

Before a node fetches an item, room is made for it: a plan is worked out from what the
store already counts, and the cached items it names are let go of. All callers make
room under one lock, so no two plans are worked out at once.

The bytes arrive later, when the lock is released. Until the store knows a blob's size
the blob counts nothing, so what is still on its way to one keep is not seen by the
next: two keeps may both be given the same free space (`both_made_and_over`).

`World.step` is one move of one of any number of keeps; each await of the source is a
move of its own, so the tags are read reason by reason and the sizes blob by blob while
the other keeps go on. The main result is `limit_kept_when_promises_count`: if, whenever
a keep takes the lock, all that was promised before already counts, then the kept
blobs stay within the limit.
-/

namespace Distlib

open GuardedRun OrdMap

/-- What a blob store says of a blob. -/
inductive BlobStatus : Type where
  | notFound
  /-- some of it is here; its size may not be known yet -/
  | incomplete (size : Option ℕ)
  | complete (size : ℕ)
  deriving DecidableEq

namespace BlobStatus

/-- The size, once it is known. -/
def size : BlobStatus → Option ℕ
  | .notFound => none
  | .incomplete size => size
  | .complete size => some size

/-- What a kept blob counts: its whole size once that is known, and nothing before. -/
def bytes (status : BlobStatus) : ℕ := status.size.getD 0

def isComplete : BlobStatus → Bool
  | .complete _ => true
  | _ => false

end BlobStatus

namespace Storage

/-- Whether what is about to be kept fits. -/
inductive Room : Type where
  | made
  /-- over the limit by this many bytes, even with all that could go evicted -/
  | short (bytes : ℕ)
  deriving DecidableEq

/-- What one keep is about: the item, why it is kept, and its files with the sizes the
catalogue gives. An item names no file twice. -/
structure Keep where
  item : ItemId
  reason : KeepReason
  files : List (ContentHash × ℕ)
  nodup : (files.map Prod.fst).Nodup

/-- The files of a keep. -/
def Keep.hashes (keep : Keep) : List ContentHash := keep.files.map Prod.fst

/-- Where a keep stands. -/
inductive Phase : Type where
  /-- these files are still to be tagged -/
  | tagging (left : List ContentHash)
  /-- tagged, and about to make room -/
  | waiting
  /-- reading what is kept: the tags to be sized, and the reasons still to be listed -/
  | reading (named : List Tag) (reasons : List KeepReason) (kept : KeptBlobs)
  /-- evicting: the tags to be dropped, and the items still to go -/
  | evicting (leaving : List Tag) (items : List ItemId) (room : Room)
  /-- these files are still to be fetched -/
  | fetching (left : List ContentHash) (room : Room)
  /-- short of room, and not fetched -/
  | refused (shortBy : ℕ)

/-- Whether a keep holds the lock. -/
def Phase.locked : Phase → Bool
  | .reading .. | .evicting .. => true
  | _ => false

/-- Whether a keep was answered that room is made. -/
def Phase.made : Phase → Bool
  | .fetching _ .made => true
  | _ => false

/-- The store as the keeps share it, the lock, and where each keep stands. -/
structure World (ι : Type*) where
  tags : Tags
  status : ContentHash → BlobStatus
  makingRoom : Option ι
  phase : ι → Phase

/-- One thing that happens. -/
inductive Event (ι : Type*) : Type _ where
  /-- keep `i` goes on; if it plans now, these are the times items were last used -/
  | goesOn (i : ι) (lastUsed : ItemId → Option ℕ)
  /-- some bytes of the file keep `i` is fetching arrive, with its size or before it -/
  | arrives (i : ι) (sized : Bool)
  /-- a collection deletes a blob no tag keeps -/
  | collects (blob : ContentHash)

/-- What is kept, when it is read with nothing happening meanwhile. -/
def keptBlobs (tags : Tags) (status : ContentHash → BlobStatus) : KeptBlobs :=
  (KeepReason.all.flatMap fun reason => tags.list.filter fun tag => tag.reason = reason).foldl
    (fun kept tag => kept.add tag.reason tag.item tag.blob (status tag.blob).bytes) ∅

namespace World

variable {ι : Type*} [DecidableEq ι]

/-- The bytes of the blobs kept. -/
def total (world : World ι) : ℕ := (keptBlobs world.tags world.status).usage.totalBytes

/-- Keep `i` is now in `phase`. -/
def moved (world : World ι) (i : ι) (phase : Phase) : World ι :=
  { world with phase := Function.update world.phase i phase }

/-- The next move of keep `i`. `size` is the size each blob really has. -/
def goOn (limit : Option ℕ+) (size : ContentHash → ℕ) (keeps : ι → Keep) (world : World ι) (i : ι)
    (lastUsed : ItemId → Option ℕ) : World ι :=
  match world.phase i, limit with
  | .tagging [], _ => world.moved i .waiting
  | .tagging (blob :: left), _ =>
    { world with tags := world.tags.keep ⟨(keeps i).reason, (keeps i).item, blob⟩ }.moved i
      (.tagging left)
  | .waiting, none => world.moved i (.fetching (keeps i).hashes .made)
  | .waiting, some _ =>
    match world.makingRoom with
    | some _ => world
    | none => { world with makingRoom := some i }.moved i (.reading [] KeepReason.all ∅)
  | .reading (tag :: named) reasons kept, _ =>
    world.moved i (.reading named reasons
      (kept.add tag.reason tag.item tag.blob (world.status tag.blob).bytes))
  | .reading [] (reason :: reasons) kept, _ =>
    world.moved i (.reading (world.tags.list.filter fun tag => tag.reason = reason) reasons kept)
  | .reading [] [] _, none => world
  | .reading [] [] kept, some limit =>
    let plan := kept.evictions (keeps i).item (kept.uncountedBytes (keeps i).files) limit lastUsed
    if 0 < plan.shortBy ∧ (keeps i).reason = .custody then
      { world with makingRoom := none }.moved i (.refused plan.shortBy)
    else
      world.moved i (.evicting [] plan.items
        (if plan.shortBy = 0 then .made else .short plan.shortBy))
  | .evicting (tag :: leaving) items room, _ =>
    { world with tags := world.tags.release tag }.moved i (.evicting leaving items room)
  | .evicting [] (item :: items) room, _ =>
    world.moved i (.evicting
      (world.tags.list.filter fun tag => tag.reason = .cache && tag.item = item) items room)
  | .evicting [] [] room, _ =>
    { world with makingRoom := none }.moved i (.fetching (keeps i).hashes room)
  | .fetching (blob :: left) room, _ =>
    -- a file that is here is not fetched
    { world with status := if (world.status blob).isComplete then world.status
        else Function.update world.status blob (.complete (size blob)) }.moved i
      (.fetching left room)
  | .fetching [] _, _ | .refused _, _ => world

/-- Some bytes of a file are here; a size that is known stays known. -/
def arrived (size : ℕ) (sized : Bool) : BlobStatus → BlobStatus
  | .notFound | .incomplete none => .incomplete (if sized then some size else none)
  | status => status

/-- What has arrived leaves the size as it was, or makes it known. -/
theorem size_arrived (size : ℕ) (sized : Bool) (status : BlobStatus) :
    (arrived size sized status).size = status.size ∨
      (arrived size sized status).size = some size := by
  cases status with
  | notFound =>
    cases sized with
    | false => exact Or.inl rfl
    | true => exact Or.inr rfl
  | incomplete known =>
    cases known with
    | none =>
      cases sized with
      | false => exact Or.inl rfl
      | true => exact Or.inr rfl
    | some _ => exact Or.inl rfl
  | complete _ => exact Or.inl rfl

/-- One move of one keep, or a collection. -/
def step (limit : Option ℕ+) (size : ContentHash → ℕ) (keeps : ι → Keep) (world : World ι) :
    Event ι → World ι
  | .goesOn i lastUsed => world.goOn limit size keeps i lastUsed
  | .arrives i sized =>
    match world.phase i with
    | .fetching (blob :: _) _ =>
      { world with status :=
          Function.update world.status blob (arrived (size blob) sized (world.status blob)) }
    | _ => world
  | .collects blob =>
    if ∃ tag ∈ world.tags.list, tag.blob = blob then world
    else { world with status := Function.update world.status blob .notFound }

/-- Every file promised room before, other than one that keep `i` asks room for itself,
already counts as many bytes as it really has. -/
def PromisesCount (size : ContentHash → ℕ) (keeps : ι → Keep) (world : World ι) (i : ι) : Prop :=
  ∀ j, j ≠ i → (world.phase j).made = true → ∀ blob ∈ (keeps j).hashes,
    blob ∉ (keeps i).hashes → (world.status blob).bytes = size blob

/-- Whether the next move of keep `i` takes the lock. -/
def takesLock (world : World ι) (i : ι) : Bool :=
  match world.phase i, world.makingRoom with
  | .waiting, none => true
  | _, _ => false

/-- The condition of a move: a keep that takes the lock finds the promises counted. -/
def Counted (size : ContentHash → ℕ) (keeps : ι → Keep) (world : World ι) : Event ι → Prop
  | .goesOn i _ => world.takesLock i = true → world.PromisesCount size keeps i
  | .arrives _ _ | .collects _ => True

end World

/-! ## Reading what is kept -/

/-- `kept` was read from the tags in `seen`, each blob at a size that `P` allows. -/
structure Reads (seen : Tag → Prop) (P : ContentHash → ℕ → Prop) (kept : KeptBlobs) : Prop where
  tags : ∀ tag, seen tag ↔
    ∃ entry, kept[tag.blob]? = some entry ∧ (tag.reason, tag.item) ∈ entry.tags
  entries : ∀ blob entry, kept[blob]? = some entry → entry.tags ≠ [] ∧ P blob entry.bytes

/-- What the blobs of the tags that meet `p` weigh, each blob once. -/
def weigh (tags : Tags) (p : Tag → Bool) (weight : ContentHash → ℕ) : ℕ :=
  ∑ blob ∈ ((tags.list.filter p).map Tag.blob).toFinset, weight blob

section Readings

variable {seen seen' : Tag → Prop} {P : ContentHash → ℕ → Prop} {kept : KeptBlobs} {tags : Tags}
  {p q : Tag → Bool} {weight weight' : ContentHash → ℕ}

theorem Reads.empty (h : ∀ tag, ¬ seen tag) : Reads seen P ∅ :=
  ⟨fun tag => by simp [h tag], fun blob entry hget => by simp at hget⟩

theorem Reads.add (h : Reads seen P kept) {tag : Tag} {bytes : ℕ} (hP : P tag.blob bytes)
    (hseen : ∀ other, seen' other ↔ other = tag ∨ seen other) :
    Reads seen' P (kept.add tag.reason tag.item tag.blob bytes) := by
  refine ⟨fun other => ?_, fun blob entry hget => ?_⟩
  · rw [hseen, h.tags]
    by_cases hblob : other.blob = tag.blob
    · rw [hblob, KeptBlobs.getElem?_add_self]
      have hsame : other = tag ↔ (other.reason, other.item) = (tag.reason, tag.item) := by
        obtain ⟨reason, item, named⟩ := other
        obtain ⟨reason', item', named'⟩ := tag
        obtain rfl : named = named' := hblob
        simp
      rw [hsame]
      cases kept[tag.blob]? with
      | none => simp
      | some entry => simp [or_comm]
    · have hne : other ≠ tag := fun heq => hblob (heq ▸ rfl)
      rw [KeptBlobs.getElem?_add_of_ne hblob]
      simp [hne]
  · by_cases hblob : blob = tag.blob
    · obtain rfl := hblob
      rw [KeptBlobs.getElem?_add_self] at hget
      obtain rfl := Option.some.inj hget
      refine ⟨by simp, ?_⟩
      -- the size it was first read with stands
      cases hbefore : kept[tag.blob]? with
      | none => exact hP
      | some entry => exact (h.entries _ entry hbefore).2
    · rw [KeptBlobs.getElem?_add_of_ne hblob] at hget
      exact h.entries blob entry hget

theorem Reads.mono (h : Reads seen P kept) (hseen : ∀ tag, seen' tag ↔ seen tag) :
    Reads seen' P kept :=
  ⟨fun tag => (hseen tag).trans (h.tags tag), h.entries⟩

theorem Reads.foldl_add (status : ContentHash → BlobStatus) (list : List Tag) :
    ∀ {seen : Tag → Prop} {kept : KeptBlobs}, Reads seen P kept →
      (∀ blob, P blob (status blob).bytes) →
      Reads (fun tag => tag ∈ list ∨ seen tag) P (list.foldl
        (fun kept tag => kept.add tag.reason tag.item tag.blob (status tag.blob).bytes) kept) := by
  induction list with
  | nil => intro seen kept h _; exact h.mono fun tag => by simp
  | cons tag rest ih =>
    intro seen kept h hP
    have hnext : Reads (fun other => other = tag ∨ seen other) P _ :=
      h.add (hP tag.blob) fun _ => Iff.rfl
    refine (ih hnext hP).mono fun other => ?_
    rw [List.mem_cons]
    tauto

/-- What an undisturbed reading comes to. -/
theorem reads_keptBlobs (tags : Tags) (status : ContentHash → BlobStatus) :
    Reads (· ∈ tags) (fun blob bytes => bytes = (status blob).bytes) (keptBlobs tags status) := by
  have hempty : Reads (fun _ => False) (fun blob bytes => bytes = (status blob).bytes) ∅ :=
    Reads.empty fun _ h => h
  rw [keptBlobs]
  refine (hempty.foldl_add status _ fun _ => rfl).mono fun tag => ?_
  rw [or_false, List.mem_flatMap]
  constructor
  · intro hmem
    refine ⟨tag.reason, ?_, List.mem_filter.mpr ⟨hmem, by simp⟩⟩
    cases tag.reason <;> simp [KeepReason.all]
  · rintro ⟨reason, -, hmem⟩
    exact (List.mem_filter.mp hmem).1

theorem mem_weighed {blob : ContentHash} :
    blob ∈ ((tags.list.filter p).map Tag.blob).toFinset ↔
      ∃ tag ∈ tags, p tag = true ∧ tag.blob = blob := by
  simp only [List.mem_toFinset, List.mem_map, List.mem_filter, and_assoc]
  rfl

theorem weigh_le_of_mem {tags' : Tags}
    (hp : ∀ tag ∈ tags, p tag = true → tag ∈ tags' ∧ q tag = true) :
    weigh tags p weight ≤ weigh tags' q weight := by
  refine Finset.sum_le_sum_of_subset fun blob hblob => ?_
  obtain ⟨tag, htag, hq, rfl⟩ := mem_weighed.mp hblob
  obtain ⟨htag', hq'⟩ := hp tag htag hq
  exact mem_weighed.mpr ⟨tag, htag', hq', rfl⟩

theorem weigh_le (hp : ∀ tag ∈ tags, p tag = true → q tag = true)
    (hweight : ∀ tag ∈ tags, weight tag.blob ≤ weight' tag.blob) :
    weigh tags p weight ≤ weigh tags q weight' := by
  calc weigh tags p weight
      ≤ weigh tags p weight' := by
        refine Finset.sum_le_sum fun blob hblob => ?_
        obtain ⟨tag, htag, -, rfl⟩ := mem_weighed.mp hblob
        exact hweight tag htag
    _ ≤ weigh tags q weight' := weigh_le_of_mem fun tag htag hq => ⟨htag, hp tag htag hq⟩

/-- What is still taken once some items are gone is what the tags left over keep. -/
theorem Reads.taken_tagsLeft (h : Reads (· ∈ tags) P kept) (gone : List ItemId) :
    kept.taken (kept.tagsLeft gone) =
      weigh tags (fun tag => KeptBlobs.stays gone (tag.reason, tag.item)) kept.bytesOf := by
  have hset : ((tags.list.filter fun tag => KeptBlobs.stays gone (tag.reason, tag.item)).map
      Tag.blob).toFinset = (keySet kept).filter fun blob => kept.tagsLeft gone blob ≠ 0 := by
    ext blob
    rw [mem_weighed, Finset.mem_filter, mem_keySet, mem_iff_exists, KeptBlobs.tagsLeft]
    constructor
    · rintro ⟨tag, htag, hstays, rfl⟩
      obtain ⟨entry, hget, hmem⟩ := (h.tags tag).mp htag
      refine ⟨⟨entry, hget⟩, ?_⟩
      rw [hget, Option.elim_some]
      exact (List.countP_pos_iff.mpr ⟨_, hmem, hstays⟩).ne'
    · rintro ⟨⟨entry, hget⟩, hleft⟩
      rw [hget, Option.elim_some] at hleft
      obtain ⟨⟨reason, item⟩, hmem, hstays⟩ := List.countP_pos_iff.mp (Nat.pos_of_ne_zero hleft)
      exact ⟨⟨reason, item, blob⟩, (h.tags ⟨reason, item, blob⟩).mpr ⟨entry, hget, hmem⟩, hstays, rfl⟩
  rw [weigh, hset, Finset.sum_filter, KeptBlobs.taken]
  refine Finset.sum_congr rfl fun blob _ => ?_
  by_cases hzero : kept.tagsLeft gone blob = 0 <;> simp [hzero]

theorem Reads.bytesOf (h : Reads (· ∈ tags) P kept) {tag : Tag} (htag : tag ∈ tags) :
    P tag.blob (kept.bytesOf tag.blob) := by
  obtain ⟨entry, hget, -⟩ := (h.tags tag).mp htag
  rw [KeptBlobs.bytesOf, hget]
  exact (h.entries _ entry hget).2

end Readings

section Total

variable {ι : Type*} {world : World ι}

/-- Each blob a tag keeps counts what the store counts for it. -/
theorem World.total_eq (world : World ι) :
    world.total = weigh world.tags (fun _ => true) fun blob => (world.status blob).bytes := by
  have hreads := reads_keptBlobs world.tags world.status
  rw [World.total, KeptBlobs.usage_totalBytes, ← KeptBlobs.tagsLeft_nil, hreads.taken_tagsLeft]
  refine le_antisymm ?_ ?_
  · exact weigh_le (fun _ _ _ => rfl) fun tag htag => (hreads.bytesOf htag).le
  · exact weigh_le (fun tag _ _ => by simp [KeptBlobs.stays]) fun tag htag => (hreads.bytesOf htag).ge

end Total

/-! ## What holds while keeps go on -/

/-- The files a keep has not tagged yet. -/
def Phase.untagged : Phase → List ContentHash
  | .tagging left => left
  | _ => []

/-- The files a keep has still to tag, or to fetch. -/
def Phase.left : Phase → List ContentHash
  | .tagging left | .fetching left _ => left
  | _ => []

/-- A keep that holds the lock has no file left to tag or fetch, and no answer yet. -/
theorem Phase.of_locked {phase : Phase} (h : phase.locked = true) :
    phase.left = [] ∧ phase.untagged = [] ∧ phase.made = false := by
  cases phase with
  | reading named reasons kept => exact ⟨rfl, rfl, rfl⟩
  | evicting leaving items room => exact ⟨rfl, rfl, rfl⟩
  | _ => cases h

/-- What keep `i` knows under the lock, once every other keep has been answered. `due` is
what each blob weighs in the end: nobody tags any more, so the tags it reads are the ones
that stay, and every size it reads is the one due or that of its own file to come. -/
def RoundOk {ι : Type*} (size : ContentHash → ℕ) (keeps : ι → Keep) (limit : ℕ+)
    (due : ContentHash → ℕ) (tags : Tags) (status : ContentHash → BlobStatus) (i : ι) :
    Phase → Prop
  | .reading named reasons kept =>
    (∀ j, j ≠ i → ∀ blob ∈ (keeps j).hashes, blob ∉ (keeps i).hashes →
      (status blob).bytes = size blob) ∧
    reasons.Nodup ∧ named.Nodup ∧ (∀ tag ∈ named, tag ∈ tags ∧ tag.reason ∉ reasons) ∧
    Reads (fun tag => tag ∈ tags ∧ tag.reason ∉ reasons ∧ tag ∉ named)
      (fun blob bytes => bytes = due blob ∨ (blob ∈ (keeps i).hashes ∧ bytes = 0)) kept
  | .evicting leaving items room => room = .made →
    weigh tags (fun tag => KeptBlobs.stays items (tag.reason, tag.item) && tag ∉ leaving) due ≤ limit
  | _ => True

/-- It only asks that the files of other keeps count in full. -/
theorem RoundOk.of_status {ι : Type*} {size : ContentHash → ℕ} {keeps : ι → Keep} {limit : ℕ+}
    {due : ContentHash → ℕ} {tags : Tags} {status status' : ContentHash → BlobStatus} {i : ι}
    {phase : Phase} (h : RoundOk size keeps limit due tags status i phase)
    (hcounts : ∀ j, j ≠ i → ∀ blob ∈ (keeps j).hashes, blob ∉ (keeps i).hashes →
      (status blob).bytes = size blob → (status' blob).bytes = size blob) :
    RoundOk size keeps limit due tags status' i phase := by
  cases phase with
  | reading named reasons kept =>
    obtain ⟨hpromised, hrest⟩ := h
    exact ⟨fun j hj blob hblob hown =>
      hcounts j hj blob hblob hown (hpromised j hj blob hblob hown), hrest⟩
  | evicting leaving items room => exact h
  | tagging left => trivial
  | waiting => trivial
  | fetching left room => trivial
  | refused shortBy => trivial

/-- What holds at every moment, when promises count. -/
structure Inv {ι : Type*} (size : ContentHash → ℕ) (keeps : ι → Keep) (limit : ℕ+)
    (due : ContentHash → ℕ) (world : World ι) : Prop where
  real : ∀ blob bytes, (world.status blob).size = some bytes → bytes = size blob
  still : ∀ tag ∈ world.tags, (∀ i, tag.blob ∉ (keeps i).hashes) →
    (world.status tag.blob).bytes = due tag.blob
  own : ∀ i, ∀ blob ∈ (world.phase i).left, blob ∈ (keeps i).hashes
  tagged : ∀ i, ∀ blob ∈ (keeps i).hashes,
    blob ∈ (world.phase i).untagged ∨ ⟨.custody, (keeps i).item, blob⟩ ∈ world.tags
  lock : ∀ i, (world.phase i).locked = true → world.makingRoom = some i
  leaving : ∀ i leaving items room, world.phase i = .evicting leaving items room →
    ∀ tag ∈ leaving, tag.reason = .cache
  round : ∀ i, (world.phase i).locked = true → (∀ j, j ≠ i → (world.phase j).made = true) →
    RoundOk size keeps limit due world.tags world.status i (world.phase i)
  within : (∀ i, (world.phase i).made = true) → weigh world.tags (fun _ => true) due ≤ limit

namespace Inv

section Moves

variable {ι : Type*} [DecidableEq ι] {size : ContentHash → ℕ} {keeps : ι → Keep} {limit : ℕ+}
  {due : ContentHash → ℕ} {world : World ι} {i : ι} {next : Phase}

omit [DecidableEq ι] in
theorem bytes_eq (h : Inv size keeps limit due world) (blob : ContentHash) :
    (world.status blob).bytes = 0 ∨ (world.status blob).bytes = size blob := by
  rw [BlobStatus.bytes]
  cases hsize : (world.status blob).size with
  | none => exact Or.inl rfl
  | some bytes => exact Or.inr (h.real blob bytes hsize)

/-- A keep moves on and touches neither the tags nor the bytes. It comes to be answered
only from under the lock, and within the limit. -/
theorem moved (h : Inv size keeps limit due world) (lock : Option ι)
    (hown : ∀ blob ∈ next.left, blob ∈ (keeps i).hashes)
    (huntagged : ∀ blob ∈ (world.phase i).untagged, blob ∈ next.untagged)
    (hlock : next.locked = true → lock = some i)
    (hothers : ∀ j, j ≠ i → (world.phase j).locked = true → lock = some j)
    (hleaving : ∀ leaving items room, next = .evicting leaving items room →
      ∀ tag ∈ leaving, tag.reason = .cache)
    (hround : next.locked = true → (∀ j, j ≠ i → (world.phase j).made = true) →
      RoundOk size keeps limit due world.tags world.status i next)
    (hmade : next.made = true → (world.phase i).made = true ∨ ((world.phase i).locked = true ∧
      ((∀ j, j ≠ i → (world.phase j).made = true) →
        weigh world.tags (fun _ => true) due ≤ limit))) :
    Inv size keeps limit due ({ world with makingRoom := lock }.moved i next) where
  real := h.real
  still := h.still
  own j := by
    by_cases heq : j = i
    · obtain rfl := heq
      simpa [World.moved] using hown
    · simpa [World.moved, heq] using h.own j
  tagged j blob hblob := by
    rcases h.tagged j blob hblob with huntag | htag
    · left
      by_cases heq : j = i
      · obtain rfl := heq
        simpa [World.moved] using huntagged blob huntag
      · simpa [World.moved, heq] using huntag
    · exact Or.inr htag
  lock j hj := by
    by_cases heq : j = i
    · obtain rfl := heq
      exact hlock (by simpa [World.moved] using hj)
    · exact hothers j heq (by simpa [World.moved, heq] using hj)
  leaving j leaving items room hj := by
    by_cases heq : j = i
    · obtain rfl := heq
      exact hleaving leaving items room (by simpa [World.moved] using hj)
    · exact h.leaving j leaving items room (by simpa [World.moved, heq] using hj)
  round j hj hall := by
    by_cases heq : j = i
    · obtain rfl := heq
      have hnext : next.locked = true := by simpa [World.moved] using hj
      have hothersMade : ∀ k, k ≠ j → (world.phase k).made = true := fun k hk => by
        simpa [World.moved, hk] using hall k hk
      simpa [World.moved] using hround hnext hothersMade
    · have hj' : (world.phase j).locked = true := by simpa [World.moved, heq] using hj
      have hnext : next.made = true := by simpa [World.moved] using hall i (Ne.symm heq)
      rcases hmade hnext with hwas | ⟨hlocked, -⟩
      · have hall' : ∀ k, k ≠ j → (world.phase k).made = true := fun k hk => by
          by_cases hki : k = i
          · exact hki ▸ hwas
          · simpa [World.moved, hki] using hall k hk
        simpa [World.moved, heq] using h.round j hj' hall'
      · -- two keeps do not hold the lock at once
        have hboth := (h.lock i hlocked).symm.trans (h.lock j hj')
        exact absurd (Option.some.inj hboth).symm heq
  within hall := by
    have hnext : next.made = true := by simpa [World.moved] using hall i
    have hothersMade : ∀ k, k ≠ i → (world.phase k).made = true := fun k hk => by
      simpa [World.moved, hk] using hall k
    rcases hmade hnext with hwas | ⟨-, hwithin⟩
    · refine h.within fun k => ?_
      by_cases hki : k = i
      · exact hki ▸ hwas
      · exact hothersMade k hki
    · exact hwithin hothersMade

/-- A keep that has not been answered tags a file. -/
theorem tags_keep (h : Inv size keeps limit due world) {blob : ContentHash}
    {left : List ContentHash} (hphase : world.phase i = .tagging (blob :: left)) :
    Inv size keeps limit due ({ world with
      tags := world.tags.keep ⟨.custody, (keeps i).item, blob⟩ }.moved i (.tagging left)) where
  real := h.real
  still tag htag hnone := by
    rcases Tags.mem_keep.mp htag with rfl | hold
    · exact absurd (h.own i blob (by rw [hphase]; exact List.mem_cons_self)) (hnone i)
    · exact h.still tag hold hnone
  own j := by
    by_cases heq : j = i
    · obtain rfl := heq
      have hown := h.own j
      rw [hphase] at hown
      simpa [World.moved, Phase.left] using fun other hother =>
        hown other (List.mem_cons_of_mem _ hother)
    · simpa [World.moved, heq] using h.own j
  tagged j other hother := by
    rcases h.tagged j other hother with huntag | htag
    · by_cases heq : j = i
      · obtain rfl := heq
        rw [hphase] at huntag
        rcases List.mem_cons.mp huntag with rfl | hleft
        · exact Or.inr (Tags.mem_keep.mpr (Or.inl rfl))
        · exact Or.inl (by simpa [World.moved, Phase.untagged] using hleft)
      · exact Or.inl (by simpa [World.moved, heq] using huntag)
    · exact Or.inr (Tags.mem_keep.mpr (Or.inr htag))
  lock j hj := by
    by_cases heq : j = i
    · obtain rfl := heq
      simp [World.moved, Phase.locked] at hj
    · exact h.lock j (by simpa [World.moved, heq] using hj)
  leaving j leaving items room hj := by
    by_cases heq : j = i
    · obtain rfl := heq
      simp [World.moved] at hj
    · exact h.leaving j leaving items room (by simpa [World.moved, heq] using hj)
  round j hj hall := by
    by_cases heq : j = i
    · obtain rfl := heq
      simp [World.moved, Phase.locked] at hj
    · have hmade := hall i (Ne.symm heq)
      simp [World.moved, Phase.made] at hmade
  within hall := by
    have hmade := hall i
    simp [World.moved, Phase.made] at hmade

/-- A keep that holds the lock lets go of a cached blob. -/
theorem tags_release (h : Inv size keeps limit due world) {tag : Tag} {leaving : List Tag}
    {items : List ItemId} {room : Room}
    (hphase : world.phase i = .evicting (tag :: leaving) items room) :
    Inv size keeps limit due
      ({ world with tags := world.tags.release tag }.moved i (.evicting leaving items room)) := by
  have hcache : tag.reason = .cache := h.leaving i _ _ _ hphase tag List.mem_cons_self
  have hlocked : (world.phase i).locked = true := by rw [hphase]; rfl
  refine ⟨h.real, fun other hmem => h.still other (Tags.mem_release.mp hmem).2, ?_, ?_, ?_, ?_, ?_,
    ?_⟩
  · intro j
    by_cases heq : j = i
    · obtain rfl := heq
      simp [World.moved, Phase.left]
    · simpa [World.moved, heq] using h.own j
  · intro j blob hblob
    rcases h.tagged j blob hblob with huntag | htag
    · left
      by_cases heq : j = i
      · obtain rfl := heq
        simp [hphase, Phase.untagged] at huntag
      · simpa [World.moved, heq] using huntag
    · right
      refine Tags.mem_release.mpr ⟨?_, htag⟩
      rintro rfl
      cases hcache
  · intro j hj
    by_cases heq : j = i
    · exact heq ▸ h.lock i hlocked
    · exact h.lock j (by simpa [World.moved, heq] using hj)
  · intro j leaving' items' room' hj
    by_cases heq : j = i
    · obtain rfl := heq
      obtain ⟨rfl, rfl, rfl⟩ : leaving = leaving' ∧ items = items' ∧ room = room' := by
        simpa [World.moved] using hj
      exact fun other hmem => h.leaving j _ _ _ hphase other (List.mem_cons_of_mem _ hmem)
    · exact h.leaving j leaving' items' room' (by simpa [World.moved, heq] using hj)
  · intro j hj hall
    by_cases heq : j = i
    · obtain rfl := heq
      have hround := h.round j hlocked fun k hk => by simpa [World.moved, hk] using hall k hk
      rw [hphase] at hround
      simp only [World.moved, Function.update_self]
      intro hroom
      refine le_trans (weigh_le_of_mem fun other hmem hstays => ?_) (hround hroom)
      obtain ⟨hne, hmem⟩ := Tags.mem_release.mp hmem
      refine ⟨hmem, ?_⟩
      simpa [hne] using hstays
    · have hmade := hall i (Ne.symm heq)
      simp [World.moved, Phase.made] at hmade
  · intro hall
    have hmade := hall i
    simp [World.moved, Phase.made] at hmade

omit [DecidableEq ι] in
/-- Bytes of a file arrive, and count nothing or all that they should. -/
theorem update_status (h : Inv size keeps limit due world) {blob : ContentHash}
    {status : BlobStatus} (hblob : blob ∈ (keeps i).hashes)
    (hreal : ∀ bytes, status.size = some bytes → bytes = size blob)
    (hcounts : (world.status blob).bytes = size blob → status.bytes = size blob) :
    Inv size keeps limit due
      { world with status := Function.update world.status blob status } where
  real other bytes := by
    by_cases heq : other = blob
    · obtain rfl := heq
      simpa using hreal bytes
    · simpa [heq] using h.real other bytes
  still tag htag hnone := by
    have hne : tag.blob ≠ blob := by
      rintro rfl
      exact hnone i hblob
    simpa [hne] using h.still tag htag hnone
  own := h.own
  tagged := h.tagged
  lock := h.lock
  leaving := h.leaving
  round j hj hall := by
    refine (h.round j hj hall).of_status fun k hk other hother hown hbytes => ?_
    by_cases heq : other = blob
    · obtain rfl := heq
      simpa using hcounts hbytes
    · simpa [heq] using hbytes
  within := h.within

omit [DecidableEq ι] in
/-- A collection takes nothing that counts. -/
theorem collect (h : Inv size keeps limit due world) {blob : ContentHash}
    (huntagged : ¬ ∃ tag ∈ world.tags.list, tag.blob = blob) :
    Inv size keeps limit due
      { world with status := Function.update world.status blob .notFound } where
  real other bytes := by
    by_cases heq : other = blob
    · obtain rfl := heq
      simp [BlobStatus.size]
    · simpa [heq] using h.real other bytes
  still tag htag hnone := by
    have hne : tag.blob ≠ blob := fun heq => huntagged ⟨tag, htag, heq⟩
    simpa [hne] using h.still tag htag hnone
  own := h.own
  tagged := h.tagged
  lock := h.lock
  leaving := h.leaving
  round j hj hall := by
    refine (h.round j hj hall).of_status fun k hk other hother hown hbytes => ?_
    have hne : other ≠ blob := by
      rintro rfl
      -- a keep that was answered has tagged its files
      rcases h.tagged k other hother with huntag | htag
      · have hmade := hall k hk
        revert hmade huntag
        cases world.phase k <;> simp [Phase.untagged, Phase.made]
      · exact huntagged ⟨_, htag, rfl⟩
    simpa [hne] using hbytes
  within := h.within

end Moves

section Plan

variable {ι : Type*} {size : ContentHash → ℕ} {keeps : ι → Keep} {limit : ℕ+}
  {due : ContentHash → ℕ} {tags : Tags} {status : ContentHash → BlobStatus} {i : ι}
  {kept : KeptBlobs}

/-- **What is due is what was read, plus what the item's own files still need.** -/
theorem weigh_due_le (hread : Reads (· ∈ tags)
      (fun blob bytes => bytes = due blob ∨ (blob ∈ (keeps i).hashes ∧ bytes = 0)) kept)
    (hcatalogue : ∀ file ∈ (keeps i).files, file.2 = size file.1)
    (hdue : ∀ blob ∈ (keeps i).hashes, due blob = size blob) (p : Tag → Bool) :
    weigh tags p due ≤ kept.uncountedBytes (keeps i).files + weigh tags p kept.bytesOf := by
  let uncounted := (keeps i).files.filter fun file =>
    !(kept[file.1]?).any fun entry => 0 < entry.bytes
  have hnodup : (uncounted.map Prod.fst).Nodup := (keeps i).nodup.sublist (List.filter_sublist.map _)
  have hsum : ∑ blob ∈ (uncounted.map Prod.fst).toFinset, size blob =
      kept.uncountedBytes (keeps i).files := by
    rw [List.sum_toFinset _ hnodup, List.map_map, KeptBlobs.uncountedBytes]
    congr 1
    refine List.map_congr_left fun file hfile => ?_
    exact (hcatalogue file (List.mem_filter.mp hfile).1).symm
  have hblob : ∀ tag ∈ tags, due tag.blob ≤
      (if tag.blob ∈ (uncounted.map Prod.fst).toFinset then size tag.blob else 0) +
        kept.bytesOf tag.blob := by
    intro tag htag
    rcases hread.bytesOf htag with heq | ⟨hown, hzero⟩
    · omega
    · have huncounted : tag.blob ∈ (uncounted.map Prod.fst).toFinset := by
        obtain ⟨file, hfile, hname⟩ := List.mem_map.mp hown
        refine List.mem_toFinset.mpr (List.mem_map.mpr ⟨file, List.mem_filter.mpr ⟨hfile, ?_⟩, hname⟩)
        rw [KeptBlobs.bytesOf] at hzero
        rw [hname]
        revert hzero
        cases kept[tag.blob]? <;> simp
      rw [if_pos huncounted, hdue _ hown]
      omega
  calc weigh tags p due
      ≤ weigh tags p fun blob =>
          (if blob ∈ (uncounted.map Prod.fst).toFinset then size blob else 0) + kept.bytesOf blob :=
        weigh_le (fun _ _ h => h) hblob
    _ = (∑ blob ∈ ((tags.list.filter p).map Tag.blob).toFinset,
          if blob ∈ (uncounted.map Prod.fst).toFinset then size blob else 0) +
        weigh tags p kept.bytesOf := Finset.sum_add_distrib
    _ ≤ (∑ blob ∈ (uncounted.map Prod.fst).toFinset, size blob) + weigh tags p kept.bytesOf := by
        rw [← Finset.sum_filter]
        exact Nat.add_le_add_right
          (Finset.sum_le_sum_of_subset fun blob h => (Finset.mem_filter.mp h).2) _
    _ = kept.uncountedBytes (keeps i).files + weigh tags p kept.bytesOf := by rw [hsum]

/-- A plan that is not short leaves room for all that is due. -/
theorem plan_within (lastUsed : ItemId → Option ℕ)
    (hround : RoundOk size keeps limit due tags status i (.reading [] [] kept))
    (hcatalogue : ∀ file ∈ (keeps i).files, file.2 = size file.1)
    (hdue : ∀ blob ∈ (keeps i).hashes, due blob = size blob)
    (hfits : (kept.evictions (keeps i).item (kept.uncountedBytes (keeps i).files) limit
      lastUsed).shortBy = 0) :
    weigh tags (fun tag => KeptBlobs.stays (kept.evictions (keeps i).item
      (kept.uncountedBytes (keeps i).files) limit lastUsed).items (tag.reason, tag.item)) due ≤
      limit := by
  obtain ⟨-, -, -, -, hreads⟩ := hround
  have hread : Reads (· ∈ tags) _ kept := hreads.mono fun tag => by simp
  have hspec := KeptBlobs.evictions_spec kept (keeps i).item
    (kept.uncountedBytes (keeps i).files) limit lastUsed
  rw [hfits, hread.taken_tagsLeft] at hspec
  have hle := weigh_due_le hread hcatalogue hdue fun tag => KeptBlobs.stays (kept.evictions
    (keeps i).item (kept.uncountedBytes (keeps i).files) limit lastUsed).items (tag.reason, tag.item)
  omega

end Plan

section Step

variable {ι : Type*} [DecidableEq ι] {size : ContentHash → ℕ} {keeps : ι → Keep} {limit : ℕ+}
  {due : ContentHash → ℕ} {world : World ι}

/-- Under the lock a keep goes from one phase to another, and the lock stays taken. -/
theorem moved_locked {i : ι} {next : Phase} (h : Inv size keeps limit due world)
    (hlocked : (world.phase i).locked = true) (hnext : next.locked = true)
    (hleaving : ∀ leaving items room, next = .evicting leaving items room →
      ∀ tag ∈ leaving, tag.reason = .cache)
    (hround : RoundOk size keeps limit due world.tags world.status i (world.phase i) →
      RoundOk size keeps limit due world.tags world.status i next) :
    Inv size keeps limit due (world.moved i next) := by
  have hlock := h.lock i hlocked
  obtain ⟨hleft, -, hmade⟩ := Phase.of_locked hnext
  obtain ⟨-, huntagged, -⟩ := Phase.of_locked hlocked
  refine h.moved world.makingRoom ?_ ?_ (fun _ => hlock) (fun j _ hj => h.lock j hj)
    hleaving (fun _ hall => hround (h.round i hlocked hall)) ?_
  · rw [hleft]
    exact fun blob hblob => absurd hblob List.not_mem_nil
  · rw [huntagged]
    exact fun blob hblob => absurd hblob List.not_mem_nil
  · rw [hmade]
    exact fun hfalse => absurd hfalse Bool.false_ne_true

omit [DecidableEq ι] in
/-- A keep that holds the lock lets go of it: no other keep holds it. -/
theorem others_unlocked {i : ι} (h : Inv size keeps limit due world)
    (hlocked : (world.phase i).locked = true) (j : ι) (hj : j ≠ i)
    (hjlocked : (world.phase j).locked = true) : False :=
  hj (Option.some.inj ((h.lock i hlocked).symm.trans (h.lock j hjlocked))).symm

omit [DecidableEq ι] in
/-- Under the lock, one more tag is sized. What it counts now is what is due, unless the file
is this keep's own and yet to come. -/
theorem round_sized (h : Inv size keeps limit due world) {i : ι} {tag : Tag} {named : List Tag}
    {reasons : List KeepReason} {kept : KeptBlobs}
    (hdue : ∀ i, ∀ blob ∈ (keeps i).hashes, due blob = size blob)
    (hround : RoundOk size keeps limit due world.tags world.status i
      (.reading (tag :: named) reasons kept)) :
    RoundOk size keeps limit due world.tags world.status i (.reading named reasons
      (kept.add tag.reason tag.item tag.blob (world.status tag.blob).bytes)) := by
  obtain ⟨hpromised, hreasons, hnamed, hmem, hread⟩ := hround
  obtain ⟨hnew, hnamed⟩ := List.nodup_cons.mp hnamed
  obtain ⟨htag, hreason⟩ := hmem tag List.mem_cons_self
  refine ⟨hpromised, hreasons, hnamed, fun other hother => hmem other (List.mem_cons_of_mem _ hother),
    hread.add ?_ fun other => ?_⟩
  · by_cases hown : tag.blob ∈ (keeps i).hashes
    · rcases h.bytes_eq tag.blob with hzero | hall
      · exact Or.inr ⟨hown, hzero⟩
      · exact Or.inl (by rw [hall, hdue i _ hown])
    · left
      by_cases hsome : ∃ j, tag.blob ∈ (keeps j).hashes
      · obtain ⟨j, hj⟩ := hsome
        have hne : j ≠ i := by rintro rfl; exact hown hj
        rw [hpromised j hne _ hj hown, hdue j _ hj]
      · exact h.still tag htag fun j hj => hsome ⟨j, hj⟩
  · rw [List.mem_cons, not_or]
    constructor
    · rintro ⟨hin, hout, hnot⟩
      by_cases heq : other = tag
      · exact Or.inl heq
      · exact Or.inr ⟨hin, hout, heq, hnot⟩
    · rintro (rfl | ⟨hin, hout, -, hnot⟩)
      · exact ⟨htag, hreason, hnew⟩
      · exact ⟨hin, hout, hnot⟩

omit [DecidableEq ι] in
/-- With every tag sized, those of one more reason are listed. -/
theorem round_listed {i : ι} {reason : KeepReason} {reasons : List KeepReason} {kept : KeptBlobs}
    (hround : RoundOk size keeps limit due world.tags world.status i
      (.reading [] (reason :: reasons) kept)) :
    RoundOk size keeps limit due world.tags world.status i
      (.reading (world.tags.list.filter fun tag => tag.reason = reason) reasons kept) := by
  obtain ⟨hpromised, hreasons, -, -, hread⟩ := hround
  obtain ⟨hnew, hreasons⟩ := List.nodup_cons.mp hreasons
  refine ⟨hpromised, hreasons, world.tags.nodup.filter _, fun tag htag => ?_,
    hread.mono fun tag => ?_⟩
  · obtain ⟨hin, heq⟩ := List.mem_filter.mp htag
    exact ⟨hin, (of_decide_eq_true heq) ▸ hnew⟩
  · rw [List.mem_filter, List.mem_cons]
    constructor
    · rintro ⟨hin, hout, hnot⟩
      refine ⟨hin, ?_, List.not_mem_nil⟩
      rintro (heq | hmem)
      · exact hnot ⟨hin, by simp [heq]⟩
      · exact hout hmem
    · rintro ⟨hin, hout, -⟩
      refine ⟨hin, fun hmem => hout (Or.inr hmem), ?_⟩
      rintro ⟨-, heq⟩
      exact hout (Or.inl (of_decide_eq_true heq))

omit [DecidableEq ι] in
/-- With every tag of an item dropped, those of the next are listed. What stays is no more. -/
theorem round_evicted {i : ι} {item : ItemId} {items : List ItemId} {room : Room}
    (hround : RoundOk size keeps limit due world.tags world.status i
      (.evicting [] (item :: items) room)) :
    RoundOk size keeps limit due world.tags world.status i (.evicting
      (world.tags.list.filter fun tag => tag.reason = .cache && tag.item = item) items room) := by
  intro hroom
  refine le_trans (weigh_le_of_mem fun tag htag hstays => ⟨htag, ?_⟩) (hround hroom)
  simp only [KeptBlobs.stays, KeepReason.isMandatory, Bool.and_eq_true, Bool.or_eq_true,
    decide_eq_true_eq, List.mem_filter, not_and, List.mem_cons, not_or, List.not_mem_nil,
    not_false_eq_true, and_true] at hstays ⊢
  rcases hstays with ⟨hmandatory | hother, hnot⟩
  · exact Or.inl hmandatory
  · by_cases hcache : tag.reason = .cache
    · exact Or.inr ⟨fun heq => hnot htag hcache heq, hother⟩
    · exact Or.inl hcache

/-- A file of its own is fetched, if it is not here. -/
theorem fetched (h : Inv size keeps limit due world) {i : ι} {blob : ContentHash}
    {left : List ContentHash} {room : Room} (hphase : world.phase i = .fetching (blob :: left) room) :
    Inv size keeps limit due ({ world with status := if (world.status blob).isComplete
        then world.status else Function.update world.status blob (.complete (size blob)) }.moved i
      (.fetching left room)) := by
  have hown := h.own i
  rw [hphase] at hown
  have hfetched : Inv size keeps limit due
      { world with status := if (world.status blob).isComplete then world.status
          else Function.update world.status blob (.complete (size blob)) } := by
    split
    · exact h
    · refine h.update_status (hown blob List.mem_cons_self) (fun bytes heq => ?_) fun _ => rfl
      exact (Option.some.inj heq).symm
  refine hfetched.moved world.makingRoom
    (fun other hother => hown other (List.mem_cons_of_mem _ hother))
    (by simp [hphase, Phase.untagged]) (by simp [Phase.locked]) (fun j _ hj => h.lock j hj)
    (by simp) (by simp [Phase.locked]) fun hmade => Or.inl ?_
  revert hmade
  cases room <;> simp [hphase, Phase.made]

/-- **One move of one keep.** -/
theorem goOn (hcustody : ∀ i, (keeps i).reason = .custody)
    (hcatalogue : ∀ i, ∀ file ∈ (keeps i).files, file.2 = size file.1)
    (hdue : ∀ i, ∀ blob ∈ (keeps i).hashes, due blob = size blob)
    (h : Inv size keeps limit due world) (i : ι) (lastUsed : ItemId → Option ℕ)
    (hcounted : world.Counted size keeps (.goesOn i lastUsed)) :
    Inv size keeps limit due (world.goOn (some limit) size keeps i lastUsed) := by
  rw [World.goOn.eq_def]
  split
  case h_1 hphase =>
    refine h.moved world.makingRoom ?_ ?_ ?_ (fun j _ hj => h.lock j hj) ?_ ?_ ?_ <;>
      simp [hphase, Phase.left, Phase.untagged, Phase.locked, Phase.made]
  case h_2 blob left hphase =>
    rw [hcustody i]
    exact h.tags_keep hphase
  case h_3 hnone => cases hnone
  case h_4 hphase _ =>
    split
    · exact h
    · rename_i hfree
      have hpromised : world.PromisesCount size keeps i := by
        refine hcounted ?_
        rw [World.takesLock, hphase, hfree]
      refine h.moved (some i) (by simp [Phase.left]) (by simp [hphase, Phase.untagged])
        (fun _ => rfl) ?_ (by simp) (fun _ hall => ?_) (by simp [Phase.made])
      · -- the lock was free, so nobody held it
        intro j _ hj
        have hheld := h.lock j hj
        rw [hfree] at hheld
        cases hheld
      · refine ⟨fun j hj => hpromised j hj (hall j hj), by decide, List.nodup_nil, by simp,
          Reads.empty fun tag hseen => hseen.2.1 ?_⟩
        cases tag.reason <;> simp [KeepReason.all]
  case h_5 tag named reasons kept hphase =>
    have hlocked : (world.phase i).locked = true := by rw [hphase]; rfl
    exact h.moved_locked hlocked rfl (by simp) fun hround => h.round_sized hdue (hphase ▸ hround)
  case h_6 reason reasons kept hphase =>
    have hlocked : (world.phase i).locked = true := by rw [hphase]; rfl
    exact h.moved_locked hlocked rfl (by simp) fun hround => round_listed (hphase ▸ hround)
  case h_7 hnone => cases hnone
  case h_8 kept limit' hphase hsome =>
    obtain rfl := Option.some.inj hsome
    have hlocked : (world.phase i).locked = true := by rw [hphase]; rfl
    dsimp only
    split
    · refine h.moved none (by simp [Phase.left]) (by simp [hphase, Phase.untagged])
        (by simp [Phase.locked]) (fun j hj hjlocked => (h.others_unlocked hlocked j hj hjlocked).elim)
        (by simp) (by simp [Phase.locked]) (by simp [Phase.made])
    · refine h.moved_locked hlocked rfl (by rintro _ _ _ heq; cases heq; simp) fun hround => ?_
      rw [hphase] at hround
      intro hroom
      have hfits := plan_within lastUsed hround (hcatalogue i) (hdue i) (by
        by_contra hshort
        rw [if_neg hshort] at hroom
        cases hroom)
      simpa using hfits
  case h_9 tag leaving items room hphase => exact h.tags_release hphase
  case h_10 item items room hphase =>
    have hlocked : (world.phase i).locked = true := by rw [hphase]; rfl
    refine h.moved_locked hlocked rfl ?_ fun hround => round_evicted (hphase ▸ hround)
    rintro _ _ _ heq tag htag
    cases heq
    have hcached := (List.mem_filter.mp htag).2
    simp only [Bool.and_eq_true, decide_eq_true_eq] at hcached
    exact hcached.1
  case h_11 room hphase =>
    have hlocked : (world.phase i).locked = true := by rw [hphase]; rfl
    refine h.moved none (fun blob hblob => hblob) (by simp [hphase, Phase.untagged])
      (by simp [Phase.locked]) (fun j hj hjlocked => (h.others_unlocked hlocked j hj hjlocked).elim)
      (by simp) (by simp [Phase.locked]) fun hmade => Or.inr ⟨hlocked, fun hall => ?_⟩
    have hround := h.round i hlocked hall
    rw [hphase] at hround
    obtain rfl : room = .made := by
      cases room with
      | made => rfl
      | short bytes => simp [Phase.made] at hmade
    simpa [KeptBlobs.stays] using hround rfl
  case h_12 blob left room hphase => exact h.fetched hphase
  case h_13 => exact h
  case h_14 => exact h

/-- **One move.** -/
theorem step (hcustody : ∀ i, (keeps i).reason = .custody)
    (hcatalogue : ∀ i, ∀ file ∈ (keeps i).files, file.2 = size file.1)
    (hdue : ∀ i, ∀ blob ∈ (keeps i).hashes, due blob = size blob)
    (h : Inv size keeps limit due world) (event : Event ι)
    (hcounted : world.Counted size keeps event) :
    Inv size keeps limit due (world.step (some limit) size keeps event) := by
  cases event with
  | goesOn i lastUsed => exact h.goOn hcustody hcatalogue hdue i lastUsed hcounted
  | arrives i sized =>
    rw [World.step]
    split
    · rename_i blob rest room hphase
      have hown := h.own i
      rw [hphase] at hown
      have hsize := World.size_arrived (size blob) sized (world.status blob)
      refine h.update_status (hown blob List.mem_cons_self) ?_ ?_
      · intro bytes hbytes
        rcases hsize with hsame | hknown
        · rw [hsame] at hbytes
          exact h.real blob bytes hbytes
        · rw [hknown] at hbytes
          exact (Option.some.inj hbytes).symm
      · intro hcounts
        rcases hsize with hsame | hknown
        · rw [BlobStatus.bytes, hsame]
          exact hcounts
        · rw [BlobStatus.bytes, hknown, Option.getD_some]
    · exact h
  | collects blob =>
    rw [World.step]
    split
    · exact h
    · rename_i hnone
      exact h.collect hnone

end Step

section Ends

variable {ι : Type*} {size : ContentHash → ℕ} {keeps : ι → Keep} {limit : ℕ+}
  {due : ContentHash → ℕ} {world : World ι}

/-- What is kept never weighs more than it will in the end. -/
theorem total_le (hdue : ∀ i, ∀ blob ∈ (keeps i).hashes, due blob = size blob)
    (h : Inv size keeps limit due world) :
    world.total ≤ weigh world.tags (fun _ => true) due := by
  rw [World.total_eq]
  refine weigh_le (fun _ _ _ => rfl) fun tag htag => ?_
  by_cases hsome : ∃ i, tag.blob ∈ (keeps i).hashes
  · obtain ⟨i, hi⟩ := hsome
    rw [hdue i _ hi]
    rcases h.bytes_eq tag.blob with hzero | hall
    · omega
    · exact hall.le
  · exact (h.still tag htag fun i hi => hsome ⟨i, hi⟩).le

end Ends

end Inv

/-! ## The limit -/

/-- **The limit holds when promises count.** Any keeps, any interleaving: if a keep takes
the lock only once all that others were promised counts, then as soon as every keep has
been answered that room is made, the kept blobs are within the limit, and they stay so
while the files arrive. -/
theorem limit_kept_when_promises_count {ι : Type*} [DecidableEq ι] (limit : Option ℕ+)
    (size : ContentHash → ℕ) (keeps : ι → Keep) (world : World ι) (events : List (Event ι))
    (hcustody : ∀ i, (keeps i).reason = .custody)
    (hcatalogue : ∀ i, ∀ file ∈ (keeps i).files, file.2 = size file.1)
    (hreal : ∀ blob bytes, (world.status blob).size = some bytes → bytes = size blob)
    (hstart : ∀ i, world.phase i = .tagging (keeps i).hashes)
    (hwithin : ∀ most ∈ limit, world.total ≤ most)
    (hcounted : Along (World.step limit size keeps) (World.Counted size keeps) world events)
    (hmade : ∀ i, ((exec (World.step limit size keeps) world events).phase i).made = true) :
    ∀ most ∈ limit, (exec (World.step limit size keeps) world events).total ≤ most := by
  classical
  rintro most hmost
  obtain rfl : limit = some most := hmost
  -- a file some keep fetches weighs its size, and nothing else changes
  let due : ContentHash → ℕ := fun blob =>
    if ∃ i, blob ∈ (keeps i).hashes then size blob else (world.status blob).bytes
  have hdue : ∀ i, ∀ blob ∈ (keeps i).hashes, due blob = size blob := fun i blob hblob =>
    if_pos ⟨i, hblob⟩
  have hinit : Inv size keeps most due world :=
    { real := hreal
      still := fun tag _ hnone => (if_neg fun ⟨i, hi⟩ => hnone i hi).symm
      own := fun i => by simp [hstart i, Phase.left]
      tagged := fun i blob hblob => Or.inl (by simpa [hstart i, Phase.untagged] using hblob)
      lock := fun i hi => by simp [hstart i, Phase.locked] at hi
      leaving := fun i _ _ _ hi => by simp [hstart i] at hi
      round := fun i hi => by simp [hstart i, Phase.locked] at hi
      within := by
        intro hall
        rcases isEmpty_or_nonempty ι with hempty | ⟨⟨i⟩⟩
        · have hnow := hwithin most rfl
          rw [World.total_eq] at hnow
          refine le_trans (weigh_le (fun _ _ h => h) fun tag _ => ?_) hnow
          simp [due]
        · have hi := hall i
          simp [hstart i, Phase.made] at hi }
  have hend : Inv size keeps most due (exec (World.step (some most) size keeps) world events) :=
    hcounted.invariant (fun _ event h hok => h.step hcustody hcatalogue hdue event hok) hinit
  exact (hend.total_le hdue).trans (hend.within hmade)

/-! ## Two keeps of ten bytes each -/

section TwoKeeps

/-- Custody of two items, of one file of ten bytes each. -/
def twoKeeps (first : Bool) : Keep where
  item := if first then ⟨1⟩ else ⟨2⟩
  reason := .custody
  files := [(if first then ⟨11⟩ else ⟨12⟩, 10)]
  nodup := by simp

/-- Nothing is here yet. -/
def nothingHere : World Bool :=
  ⟨⟨[], List.nodup_nil⟩, fun _ => .notFound, none, fun i => .tagging (twoKeeps i).hashes⟩

/-- A keep makes this many moves. -/
def moves (i : Bool) (count : ℕ) : List (Event Bool) :=
  List.replicate count (.goesOn i fun _ => none)

/-- Each keep tags, makes room and fetches before the other begins. -/
def oneAfterTheOther : List (Event Bool) := moves true 11 ++ moves false 12

/-- Both keeps make room before either fetches. -/
def bothBeforeFetching : List (Event Bool) :=
  List.flatten [moves true 2, moves false 2, moves true 8, moves false 8, moves true 1, moves false 1]

instance (size : ContentHash → ℕ) (world : World Bool) : ∀ event : Event Bool,
    Decidable (world.Counted size twoKeeps event)
  | .goesOn i _ => inferInstanceAs (Decidable (world.takesLock i = true → ∀ j, j ≠ i →
      (world.phase j).made = true → ∀ blob ∈ (twoKeeps j).hashes, blob ∉ (twoKeeps i).hashes →
        (world.status blob).bytes = size blob))
  | .arrives _ _ | .collects _ => inferInstanceAs (Decidable True)

theorem nothingHere_real (blob : ContentHash) (bytes : ℕ)
    (h : (nothingHere.status blob).size = some bytes) : bytes = 10 := by
  cases h

/-- With room for both, each in its turn, twenty bytes are kept. -/
theorem limit_kept_one_after_the_other :
    (exec (World.step (some 20) (fun _ => 10) twoKeeps) nothingHere oneAfterTheOther).total ≤ 20 :=
  limit_kept_when_promises_count (some 20) (fun _ => 10) twoKeeps nothingHere oneAfterTheOther
    (fun _ => rfl) (by decide) nothingHere_real (fun _ => rfl)
    (by rintro most hmost; cases hmost; decide +kernel) (by decide +kernel) (by decide +kernel) 20 rfl

/-- **Two keeps are given the same free space.** The limit is ten bytes and each keep
needs ten: both are answered that room is made, and in the end twenty bytes are kept. -/
theorem both_made_and_over :
    ¬ ∀ (limit : Option ℕ+) (size : ContentHash → ℕ) (keeps : Bool → Keep) (world : World Bool)
      (events : List (Event Bool)),
      (∀ i, (keeps i).reason = .custody) →
      (∀ i, ∀ file ∈ (keeps i).files, file.2 = size file.1) →
      (∀ blob bytes, (world.status blob).size = some bytes → bytes = size blob) →
      world.makingRoom = none → (∀ i, world.phase i = .tagging (keeps i).hashes) →
      (∀ most ∈ limit, world.total ≤ most) →
      (∀ i, ((exec (World.step limit size keeps) world events).phase i).made = true ∧
        ((exec (World.step limit size keeps) world events).phase i).left = []) →
      ∀ most ∈ limit, (exec (World.step limit size keeps) world events).total ≤ most := by
  intro hclaim
  have hover := hclaim (some 10) (fun _ => 10) twoKeeps nothingHere bothBeforeFetching (fun _ => rfl)
    (by decide) nothingHere_real rfl (fun _ => rfl)
    (by rintro most hmost; cases hmost; decide +kernel) (by decide +kernel) 10 rfl
  have htotal : (exec (World.step (some 10) (fun _ => 10) twoKeeps) nothingHere
      bothBeforeFetching).total = 20 := by decide +kernel
  rw [htotal] at hover
  exact absurd hover (by decide)

end TwoKeeps

end Storage
end Distlib
