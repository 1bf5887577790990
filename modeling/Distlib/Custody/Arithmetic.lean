import Distlib.Custody.Evictions
import Distlib.Custody.Storage
import Distlib.Lib.Overflow

/-!
# Room, added up in 64 bits

What is kept, what is needed and what an add makes mandatory are sums of `u64`s that no
check bounds: the sizes are those of the catalogue, where every member writes its own. The
definitions of `KeptBlobs` sum exactly. Here they are again as they run, word by word, in a
program built with overflow checks and in one without.

What an item's files sum up to for custody saturates, and a saturated sum is still over
every limit. These sums do not: `evictFor_exact_iff` and `checkRoomFor_exact_iff` say that
each verdict is the exact one for every limit only as long as its largest sum fits.
-/

namespace Distlib

open OrdMap OverflowChecks

/-- A limit: 64 bits, and not zero. -/
abbrev NonZeroU64 := {limit : ℕ // 0 < limit ∧ limit < 2 ^ 64}

namespace KeptBlobs

/-- The sizes of the blobs that keeping `blobs` as own makes mandatory: those not kept as own
or custody already. -/
def growing (kept : KeptBlobs) (blobs : List (ContentHash × ℕ)) : List ℕ :=
  (blobs.filter fun blob => !((kept[blob.1]?).bind KeptBlob.strongestReason).any
    KeepReason.isMandatory).map Prod.snd

/-- How many bytes keeping `blobs` as this node's own adds to what stays when space is
short. -/
def mandatoryGrowth (kept : KeptBlobs) (blobs : List (ContentHash × ℕ)) : ℕ :=
  (kept.growing blobs).sum

end KeptBlobs

namespace Storage

/-- What to evict when even the whole cache is not room enough. -/
inductive WhenShort : Type where
  | evictAnyway
  | evictNothing
  deriving DecidableEq

/-- What a plan comes to: the items that are let go of, and the answer. -/
def verdict (whenShort : WhenShort) (plan : Evictions) : List ItemId × Room :=
  if 0 < plan.shortBy ∧ whenShort = .evictNothing then ([], .short plan.shortBy)
  else (plan.items, if plan.shortBy = 0 then .made else .short plan.shortBy)

/-- Evicts cached items until `files` of `item` fit, in exact arithmetic. -/
def evictFor (limit : Option NonZeroU64) (kept : KeptBlobs) (lastUsed : ItemId → Option ℕ)
    (item : ItemId) (files : List (ContentHash × ℕ)) (whenShort : WhenShort) :
    List ItemId × Room :=
  match limit with
  | none => ([], .made)
  | some limit => verdict whenShort (kept.evictions item (kept.uncountedBytes files) limit lastUsed)

/-- An add that makes own and custody `mandatory` bytes, `growth` of them new, is refused when
that is past the limit. One that grows them by nothing goes through. -/
def refuse (limit : NonZeroU64) (growth mandatory : ℕ) : Except String Unit :=
  if 0 < growth ∧ limit < mandatory then
    .error (s!"adding these files would keep {mandatory} bytes this node cannot free, own and " ++
      s!"custody, over its storage limit of {limit.val} bytes")
  else .ok ()

/-- Refuses files when keeping them as own would grow own and custody past the limit, in
exact arithmetic. -/
def checkRoomFor (limit : Option NonZeroU64) (kept : KeptBlobs) (files : List (ContentHash × ℕ)) :
    Except String Unit :=
  match limit with
  | none => .ok ()
  | some limit =>
    refuse limit (kept.mandatoryGrowth files)
      (kept.usage.mandatoryBytes + kept.mandatoryGrowth files)

end Storage

/-! ## As it runs -/

namespace Words

variable (checks : OverflowChecks)

/-- Counts `bytes` under a reason. -/
def count (usage : StorageUse) (bytes : ℕ) : KeepReason → Option StorageUse
  | .own => (checks.add 64 usage.ownBytes bytes).map fun sum => { usage with ownBytes := sum }
  | .custody =>
    (checks.add 64 usage.custodyBytes bytes).map fun sum => { usage with custodyBytes := sum }
  | .cache => (checks.add 64 usage.cacheBytes bytes).map fun sum => { usage with cacheBytes := sum }

/-- The bytes kept for each reason, each blob counted once. -/
def usage (kept : KeptBlobs) : Option StorageUse :=
  kept.toList.foldlM (fun usage entry =>
    entry.2.strongestReason.elim (some usage) (count checks usage entry.2.bytes)) ⟨0, 0, 0⟩

/-- What stays when space is short. -/
def mandatoryBytes (usage : StorageUse) : Option ℕ := checks.add 64 usage.ownBytes usage.custodyBytes

/-- Everything kept. -/
def totalBytes (usage : StorageUse) : Option ℕ :=
  (mandatoryBytes checks usage).bind fun mandatory => checks.add 64 mandatory usage.cacheBytes

def mandatoryGrowth (kept : KeptBlobs) (blobs : List (ContentHash × ℕ)) : Option ℕ :=
  checks.sum 64 (kept.growing blobs)

def uncountedBytes (kept : KeptBlobs) (blobs : List (ContentHash × ℕ)) : Option ℕ :=
  checks.sum 64
    ((blobs.filter fun blob => !(kept[blob.1]?).any fun entry => 0 < entry.bytes).map Prod.snd)

/-- One tag of `blob` goes: with the last of them its bytes do. The number of tags left is
that of the tags still to go or more, so taking one away never underflows. -/
def dropTag (kept : KeptBlobs) (left : (ContentHash → ℕ) × ℕ) (blob : ContentHash) :
    Option ((ContentHash → ℕ) × ℕ) :=
  let tags := left.1 blob - 1
  (if tags = 0 then checks.sub 64 left.2 (kept.bytesOf blob) else some left.2).map fun total =>
    (Function.update left.1 blob tags, total)

/-- Lets items go while the total is over the limit. -/
def evictWhileOver (kept : KeptBlobs) (limit : ℕ) :
    List ItemId → (ContentHash → ℕ) × ℕ → Option (List ItemId × ℕ)
  | [], left => some ([], left.2)
  | item :: rest, left =>
    if left.2 ≤ limit then some ([], left.2)
    else do
      let left ← (kept.cached item).foldlM (dropTag checks kept) left
      let (items, total) ← evictWhileOver kept limit rest left
      some (item :: items, total)

def evictions (kept : KeptBlobs) (keeping : ItemId) (needed limit : ℕ)
    (lastUsed : ItemId → Option ℕ) : Option Evictions := do
  let usage ← usage checks kept
  let total ← totalBytes checks usage
  let total ← checks.add 64 total needed
  let (items, total) ← evictWhileOver checks kept limit (kept.candidates keeping lastUsed)
    (kept.tagCount, total)
  -- this one subtraction of the source saturates
  some ⟨items, total - limit⟩

/-- Evicts cached items until `files` of `item` fit. -/
def evictFor (limit : Option NonZeroU64) (kept : KeptBlobs) (lastUsed : ItemId → Option ℕ)
    (item : ItemId) (files : List (ContentHash × ℕ)) (whenShort : Storage.WhenShort) :
    Option (List ItemId × Storage.Room) :=
  match limit with
  | none => some ([], .made)
  | some limit => do
    let needed ← uncountedBytes checks kept files
    let plan ← evictions checks kept item needed limit lastUsed
    some (Storage.verdict whenShort plan)

/-- Refuses files when keeping them as own would grow own and custody past the limit. -/
def checkRoomFor (limit : Option NonZeroU64) (kept : KeptBlobs) (files : List (ContentHash × ℕ)) :
    Option (Except String Unit) :=
  match limit with
  | none => some (.ok ())
  | some limit => do
    let growth ← mandatoryGrowth checks kept files
    let usage ← usage checks kept
    let mandatory ← mandatoryBytes checks usage
    let mandatory ← checks.add 64 mandatory growth
    some (Storage.refuse limit growth mandatory)

variable {checks}

/-- What the words have of exact counts. -/
def fitUse (checks : OverflowChecks) (usage : StorageUse) : Option StorageUse :=
  (checks.fit 64 usage.ownBytes).bind fun own => (checks.fit 64 usage.custodyBytes).bind fun custody =>
    (checks.fit 64 usage.cacheBytes).map fun cache => ⟨own, custody, cache⟩

theorem fitUse_bind_count (usage : StorageUse) (bytes : ℕ) (reason : KeepReason) :
    ((fitUse checks usage).bind fun words => count checks words bytes reason) =
      fitUse checks (usage.count bytes reason) := by
  obtain ⟨own, custody, cache⟩ := usage
  cases reason with
  | own =>
    simp only [fitUse, StorageUse.count, ← fit_bind_fit_add checks 64 own bytes]
    rcases checks.fit 64 custody with _ | custody <;> rcases checks.fit 64 cache with _ | cache <;>
      rcases checks.fit 64 own with _ | own <;> simp [count, add, Option.map_eq_bind]
  | custody =>
    simp only [fitUse, StorageUse.count, ← fit_bind_fit_add checks 64 custody bytes]
    rcases checks.fit 64 own with _ | own <;> rcases checks.fit 64 cache with _ | cache <;>
      rcases checks.fit 64 custody with _ | custody <;>
      simp [count, add, Option.map_eq_bind]
  | cache =>
    simp only [fitUse, StorageUse.count, ← fit_bind_fit_add checks 64 cache bytes]
    rcases checks.fit 64 own with _ | own <;> rcases checks.fit 64 custody with _ | custody <;>
      rcases checks.fit 64 cache with _ | cache <;> simp [count, add]

/-- A count that each entry adds to in words as it does exactly has what the words have of the
exact one. -/
theorem foldlM_eq_fitUse {E : Type} {next : StorageUse → E → Option StorageUse}
    {step : StorageUse → E → StorageUse}
    (h : ∀ usage entry, ((fitUse checks usage).bind fun words => next words entry) =
      fitUse checks (step usage entry)) (entries : List E) :
    entries.foldlM next ⟨0, 0, 0⟩ = fitUse checks (entries.foldl step ⟨0, 0, 0⟩) := by
  have hfold : ∀ start, ((fitUse checks start).bind fun words => entries.foldlM next words) =
      fitUse checks (entries.foldl step start) := by
    induction entries with
    | nil =>
      intro start
      simp
    | cons entry rest ih =>
      intro start
      rw [List.foldl_cons, ← ih, ← h, Option.bind_assoc]
      rfl
  have hall := hfold ⟨0, 0, 0⟩
  have hzero : fitUse checks ⟨0, 0, 0⟩ = some ⟨0, 0, 0⟩ := by
    simp [fitUse, fit]
  rw [hzero, Option.bind_some] at hall
  exact hall

/-- The counts of what is kept are what the words have of the exact ones. -/
theorem usage_eq (kept : KeptBlobs) : usage checks kept = fitUse checks kept.usage := by
  refine foldlM_eq_fitUse (fun usage entry => ?_) kept.toList
  rcases entry.2.strongestReason with _ | reason
  · exact Option.bind_fun_some _
  · exact fitUse_bind_count usage entry.2.bytes reason

theorem fitUse_bind_mandatoryBytes (checks : OverflowChecks) (usage : StorageUse) :
    ((fitUse checks usage).bind (mandatoryBytes checks)) =
      (checks.fit 64 usage.cacheBytes).bind fun _ => checks.fit 64 usage.mandatoryBytes := by
  rw [StorageUse.mandatoryBytes, ← fit_bind_fit_bind_add, fitUse]
  rcases checks.fit 64 usage.ownBytes with _ | own <;>
    rcases checks.fit 64 usage.custodyBytes with _ | custody <;>
    rcases checks.fit 64 usage.cacheBytes with _ | cache <;> simp [mandatoryBytes]

theorem fitUse_bind_totalBytes (usage : StorageUse) :
    ((fitUse checks usage).bind (totalBytes checks)) = checks.fit 64 usage.totalBytes := by
  rw [StorageUse.totalBytes, ← fit_bind_fit_bind_add, StorageUse.mandatoryBytes,
    ← fit_bind_fit_bind_add, fitUse]
  rcases checks.fit 64 usage.ownBytes with _ | own <;>
    rcases checks.fit 64 usage.custodyBytes with _ | custody <;>
    rcases checks.fit 64 usage.cacheBytes with _ | cache <;> simp [totalBytes, mandatoryBytes]

theorem uncountedBytes_eq (kept : KeptBlobs) (blobs : List (ContentHash × ℕ)) :
    uncountedBytes checks kept blobs = checks.fit 64 (kept.uncountedBytes blobs) :=
  sum_eq_fit checks 64 _

theorem mandatoryGrowth_eq (kept : KeptBlobs) (blobs : List (ContentHash × ℕ)) :
    mandatoryGrowth checks kept blobs = checks.fit 64 (kept.mandatoryGrowth blobs) :=
  sum_eq_fit checks 64 _

/-! ## Letting go -/

section Evict

variable {kept : KeptBlobs} {left : ContentHash → ℕ} {total needed limit : ℕ} {gone : List ItemId}
  {item : ItemId}

/-- As long as the total is what is needed and what is taken, taking from it does not
underflow. -/
theorem foldlM_dropTag (needed : ℕ) (blobs : List ContentHash) :
    ∀ {left : ContentHash → ℕ} {total : ℕ}, (∀ blob, blobs.count blob ≤ left blob) →
      (∀ blob ∈ blobs, blob ∈ keySet kept) → total = needed + kept.taken left →
      blobs.foldlM (dropTag checks kept) (left, total) =
        some (blobs.foldl kept.dropTag (left, total)) := by
  induction blobs with
  | nil =>
    intro left total _ _ _
    rfl
  | cons blob rest ih =>
    intro left total hcount hkept htotal
    have hleft : rest.count blob + 1 ≤ left blob := by simpa using hcount blob
    have htaken := KeptBlobs.taken_update kept (hkept blob List.mem_cons_self)
      (show left blob ≠ 0 by omega) (left blob - 1)
    have hstep : dropTag checks kept (left, total) blob = some (kept.dropTag (left, total) blob) := by
      rw [dropTag, KeptBlobs.dropTag]
      dsimp only
      by_cases hlast : left blob - 1 = 0
      · rw [if_pos hlast] at htaken
        rw [if_pos hlast, if_pos hlast, sub_of_le (by omega), Option.map_some]
      · rw [if_neg hlast, if_neg hlast, Option.map_some]
    have hone : ∀ other, [blob].count other ≤ left other := by
      intro other
      by_cases hother : other = blob
      · obtain rfl := hother
        rw [List.count_singleton_self]
        omega
      · rw [List.count_eq_zero.mpr (by simpa using hother)]
        exact Nat.zero_le _
    obtain ⟨hafter, hsum⟩ := KeptBlobs.foldl_dropTag needed [blob] hone
      (fun other hmem => hkept other (List.mem_singleton.mp hmem ▸ List.mem_cons_self)) htotal
    rw [List.foldlM_cons, hstep, List.foldl_cons]
    refine ih (fun other => ?_) (fun other hmem => hkept other (List.mem_cons_of_mem _ hmem)) hsum
    change rest.count other ≤ (kept.dropTag (left, total) blob).1 other
    have hall := hcount other
    rw [← List.singleton_append, List.count_append] at hall
    have hone : (kept.dropTag (left, total) blob).1 other = left other - [blob].count other :=
      hafter other
    omega

/-- A total that is right to start with stays so, and the items that go are the same. -/
theorem evictWhileOver_eq (checks : OverflowChecks) (kept : KeptBlobs) (needed limit : ℕ)
    (items : List ItemId) :
    ∀ (gone : List ItemId), items.Nodup → (∀ item ∈ items, item ∉ gone) →
      evictWhileOver checks kept limit items
          (kept.tagsLeft gone, needed + kept.taken (kept.tagsLeft gone)) =
        some (kept.evictWhileOver limit items
          (kept.tagsLeft gone, needed + kept.taken (kept.tagsLeft gone))) := by
  induction items with
  | nil =>
    intro gone _ _
    rfl
  | cons item rest ih =>
    intro gone hnodup hnew
    obtain ⟨hother, hnodup⟩ := List.nodup_cons.mp hnodup
    have hitem := hnew item List.mem_cons_self
    rw [evictWhileOver, KeptBlobs.evictWhileOver]
    dsimp only
    split
    · rfl
    · rw [foldlM_dropTag needed (kept.cached item)
        (fun blob => (KeptBlobs.tagsLeft_cons hitem blob).1)
        (fun blob => KeptBlobs.mem_of_mem_cached) rfl, KeptBlobs.foldl_dropTag_cached kept hitem rfl]
      have hlater := ih (item :: gone) hnodup fun next hnext => by
        simp only [List.mem_cons, not_or]
        exact ⟨fun heq => hother (heq ▸ hnext), hnew next (List.mem_cons_of_mem _ hnext)⟩
      change ((evictWhileOver checks kept limit rest _).bind fun plan => some (item :: plan.1, plan.2)) =
        _
      rw [hlater]
      rfl

/-- What a plan is made with, once it is known what is needed. -/
theorem evictions_fit (checks : OverflowChecks) (kept : KeptBlobs) (keeping : ItemId)
    (needed limit : ℕ) (lastUsed : ItemId → Option ℕ) :
    ((checks.fit 64 needed).bind fun words => evictions checks kept keeping words limit lastUsed) =
      (checks.fit 64 (kept.usage.totalBytes + needed)).bind fun total =>
        (evictWhileOver checks kept limit (kept.candidates keeping lastUsed)
          (kept.tagCount, total)).map fun plan => ⟨plan.1, plan.2 - limit⟩ := by
  have hplan : ∀ words, evictions checks kept keeping words limit lastUsed =
      (checks.fit 64 kept.usage.totalBytes).bind fun total => (checks.add 64 total words).bind
        fun total => (evictWhileOver checks kept limit (kept.candidates keeping lastUsed)
          (kept.tagCount, total)).map fun plan => ⟨plan.1, plan.2 - limit⟩ := by
    intro words
    rw [← fitUse_bind_totalBytes, ← usage_eq, Option.bind_assoc]
    simp only [Option.map_eq_bind, Function.comp_def]
    rfl
  rw [← fit_bind_fit_bind_add]
  simp only [hplan, Option.bind_assoc]
  rcases checks.fit 64 needed with _ | words <;>
    rcases checks.fit 64 kept.usage.totalBytes with _ | total <;> rfl

/-- While the exact total fits, so does everything the plan is made of. -/
theorem evictWhileOver_all (checks : OverflowChecks) (kept : KeptBlobs) (keeping : ItemId)
    (needed limit : ℕ) (lastUsed : ItemId → Option ℕ) :
    ((evictWhileOver checks kept limit (kept.candidates keeping lastUsed)
      (kept.tagCount, kept.usage.totalBytes + needed)).map fun plan =>
        (⟨plan.1, plan.2 - limit⟩ : Evictions)) =
      some (kept.evictions keeping needed limit lastUsed) := by
  have hall := evictWhileOver_eq checks kept needed limit
    (kept.candidates keeping lastUsed) []
    (KeptBlobs.nodup_candidates kept keeping lastUsed) (fun _ _ => List.not_mem_nil)
  rw [KeptBlobs.tagsLeft_nil, ← KeptBlobs.usage_totalBytes, Nat.add_comm needed] at hall
  rw [hall]
  rfl

/-- With room for anything, or with a total that fits already, nothing goes. -/
theorem evictWhileOver_of_le {words : ℕ} (items : List ItemId) (h : words ≤ limit) :
    evictWhileOver checks kept limit items (left, words) = some ([], words) := by
  cases items with
  | nil => rfl
  | cons item rest =>
    rw [evictWhileOver]
    exact if_pos h

end Evict

/-! ## The verdicts -/

section Verdicts

variable {kept : KeptBlobs} {item : ItemId} {files : List (ContentHash × ℕ)}
  {lastUsed : ItemId → Option ℕ} {whenShort : Storage.WhenShort}

theorem evictFor_eq (limit : NonZeroU64) :
    evictFor checks (some limit) kept lastUsed item files whenShort =
      (checks.fit 64 (kept.usage.totalBytes + kept.uncountedBytes files)).bind fun total =>
        (evictWhileOver checks kept limit (kept.candidates item lastUsed)
          (kept.tagCount, total)).map fun plan =>
            Storage.verdict whenShort ⟨plan.1, plan.2 - limit⟩ := by
  have hplan := evictions_fit checks kept item (kept.uncountedBytes files) limit lastUsed
  rw [← uncountedBytes_eq] at hplan
  change (uncountedBytes checks kept files).bind (fun needed =>
    (evictions checks kept item needed limit lastUsed).bind fun plan =>
      some (Storage.verdict whenShort plan)) = _
  rw [← Option.bind_assoc, hplan, Option.bind_assoc]
  simp only [Option.map_eq_bind, Option.bind_assoc, Option.bind_some, Function.comp_def]

/-- The limit a wrapped sum is within. -/
def limitAt (sum : ℕ) : NonZeroU64 :=
  ⟨max 1 (sum % 2 ^ 64), by omega, by omega⟩

/-- **The room made for a keep** is that of exact arithmetic, for every limit, exactly when
what is kept and what the keep needs add up to a 64-bit number. -/
theorem evictFor_exact_iff (checks : OverflowChecks) (kept : KeptBlobs)
    (lastUsed : ItemId → Option ℕ) (item : ItemId) (files : List (ContentHash × ℕ))
    (whenShort : Storage.WhenShort) :
    (∀ limit, evictFor checks limit kept lastUsed item files whenShort =
      some (Storage.evictFor limit kept lastUsed item files whenShort)) ↔
      kept.usage.totalBytes + kept.uncountedBytes files < 2 ^ 64 := by
  constructor
  · intro hexact
    by_contra hover
    have hsome := hexact (some (limitAt (kept.usage.totalBytes + kept.uncountedBytes files)))
    rw [evictFor_eq] at hsome
    cases checks with
    | on =>
      rw [fit_on_eq_none hover] at hsome
      cases hsome
    | off =>
      have hword : (kept.usage.totalBytes + kept.uncountedBytes files) % 2 ^ 64 ≤
          (limitAt (kept.usage.totalBytes + kept.uncountedBytes files)).val := Nat.le_max_right _ _
      rw [fit_off, Option.bind_some, evictWhileOver_of_le _ hword, Option.map_some] at hsome
      have hverdict := Option.some.inj hsome
      -- wrapped around, everything fits; the exact plan lets something go or is short
      have hshort := KeptBlobs.evictions_spec kept item (kept.uncountedBytes files)
        (limitAt (kept.usage.totalBytes + kept.uncountedBytes files)) lastUsed
      have hlimit : (limitAt (kept.usage.totalBytes + kept.uncountedBytes files)).val <
          kept.usage.totalBytes + kept.uncountedBytes files := by
        have hlt := (limitAt (kept.usage.totalBytes + kept.uncountedBytes files)).property.2
        omega
      rw [Nat.sub_eq_zero_of_le hword] at hverdict
      change ([], Storage.Room.made) = Storage.verdict whenShort _ at hverdict
      rw [Storage.verdict] at hverdict
      split at hverdict
      · cases hverdict
      · obtain ⟨hitems, hroom⟩ := Prod.mk.inj hverdict
        rw [← hitems, KeptBlobs.tagsLeft_nil, ← KeptBlobs.usage_totalBytes] at hshort
        rw [if_neg (by omega)] at hroom
        cases hroom
  · intro hfits limit
    rcases limit with _ | limit
    · rfl
    · rw [evictFor_eq, fit_of_lt hfits, Option.bind_some]
      have hplan := evictWhileOver_all checks kept item (kept.uncountedBytes files)
        limit lastUsed
      have hverdict := congrArg (Option.map (Storage.verdict whenShort)) hplan
      rw [Option.map_map, Option.map_some] at hverdict
      exact hverdict

theorem checkRoomFor_eq (limit : NonZeroU64) :
    checkRoomFor checks (some limit) kept files =
      (checks.fit 64 (kept.mandatoryGrowth files)).bind fun growth =>
        (checks.fit 64 kept.usage.cacheBytes).bind fun _ =>
          (checks.fit 64 kept.usage.mandatoryBytes).bind fun mandatory =>
            (checks.fit 64 (mandatory + growth)).map (Storage.refuse limit growth) := by
  have hboth := fitUse_bind_mandatoryBytes checks kept.usage
  rw [← usage_eq] at hboth
  change (mandatoryGrowth checks kept files).bind (fun growth => (usage checks kept).bind fun usage =>
    (mandatoryBytes checks usage).bind fun mandatory => (checks.add 64 mandatory growth).bind fun
      mandatory => some (Storage.refuse limit growth mandatory)) = _
  rw [mandatoryGrowth_eq]
  refine congrArg _ (funext fun growth => ?_)
  rw [← Option.bind_assoc, hboth, Option.bind_assoc]
  simp only [Option.map_eq_bind, Function.comp_def]
  rfl

/-- **The room check of an add** is that of exact arithmetic, for every limit, exactly when
own, custody and the growth add up to a 64-bit number; a program with overflow checks adds up
the cache as well, and one without may go wrong on an add that grows nothing. -/
theorem checkRoomFor_exact_iff (checks : OverflowChecks) (kept : KeptBlobs)
    (files : List (ContentHash × ℕ)) :
    (∀ limit, checkRoomFor checks limit kept files = some (Storage.checkRoomFor limit kept files)) ↔
      checks = off ∧ kept.mandatoryGrowth files = 0 ∨
        kept.usage.mandatoryBytes + kept.mandatoryGrowth files < 2 ^ 64 ∧
          (checks = on → kept.usage.cacheBytes < 2 ^ 64) := by
  constructor
  · intro hexact
    have hsome := hexact (some (limitAt (kept.usage.mandatoryBytes + kept.mandatoryGrowth files)))
    rw [checkRoomFor_eq] at hsome
    cases checks with
    | on =>
      refine Or.inr ⟨?_, fun _ => ?_⟩
      · by_contra hover
        by_cases hgrowth : kept.mandatoryGrowth files < 2 ^ 64
        · rw [fit_of_lt hgrowth, Option.bind_some] at hsome
          by_cases hmandatory : kept.usage.mandatoryBytes < 2 ^ 64
          · rw [fit_of_lt hmandatory, Option.bind_some, fit_on_eq_none hover] at hsome
            simp at hsome
          · simp [fit_on_eq_none hmandatory] at hsome
        · simp [fit_on_eq_none hgrowth] at hsome
      · by_contra hover
        simp [fit_on_eq_none hover] at hsome
    | off =>
      by_contra hcond
      simp only [true_and, reduceCtorEq, false_implies, and_true, not_or] at hcond
      obtain ⟨hgrows, hover⟩ := hcond
      have hlimit : (limitAt (kept.usage.mandatoryBytes + kept.mandatoryGrowth files)).val <
          kept.usage.mandatoryBytes + kept.mandatoryGrowth files := by
        have hword := (limitAt (kept.usage.mandatoryBytes + kept.mandatoryGrowth files)).property.2
        omega
      simp only [fit_off, Option.bind_some, Option.map_some, ← Nat.add_mod] at hsome
      change some (Storage.refuse _ _ _) = some (Storage.refuse _ _ _) at hsome
      rw [Storage.refuse, Storage.refuse,
        if_neg fun h => absurd (Nat.le_max_right 1 _) (not_le.mpr h.2),
        if_pos ⟨Nat.pos_of_ne_zero hgrows, hlimit⟩] at hsome
      cases Option.some.inj hsome
  · rintro (⟨rfl, hnothing⟩ | ⟨hfits, hcache⟩) limit
    · rcases limit with _ | limit
      · rfl
      · rw [checkRoomFor_eq, Storage.checkRoomFor, hnothing]
        simp [fit_off, Storage.refuse]
    · rcases limit with _ | limit
      · rfl
      · have hfit : ∃ word, checks.fit 64 kept.usage.cacheBytes = some word := by
          cases checks with
          | on => exact ⟨_, fit_of_lt (hcache rfl)⟩
          | off => exact ⟨_, fit_off 64 _⟩
        obtain ⟨word, hword⟩ := hfit
        rw [checkRoomFor_eq, Storage.checkRoomFor, fit_of_lt (by omega), Option.bind_some, hword,
          Option.bind_some, fit_of_lt (by omega), Option.bind_some, fit_of_lt hfits,
          Option.map_some]

/-- What an answer that room is made promises. -/
theorem fits_of_made {limit : NonZeroU64} {gone : List ItemId}
    (h : Storage.evictFor (some limit) kept lastUsed item files whenShort = (gone, .made)) :
    (kept.without gone).usage.totalBytes + kept.uncountedBytes files ≤ limit := by
  have hshort := KeptBlobs.evictions_spec kept item (kept.uncountedBytes files) limit lastUsed
  change Storage.verdict whenShort _ = _ at h
  rw [Storage.verdict] at h
  split at h
  · cases h
  · obtain ⟨rfl, hroom⟩ := Prod.mk.inj h
    rw [KeptBlobs.totalBytes_without]
    split at hroom
    · omega
    · cases hroom

/-- **Room arithmetic is exact** exactly while the largest sum fits 64 bits: for a keep, what is
kept and what the keep needs; for an add, own, custody and the growth. An exact answer that
room is made means what it says. -/
theorem room_exact_iff (checks : OverflowChecks) (kept : KeptBlobs) (lastUsed : ItemId → Option ℕ)
    (item : ItemId) (files : List (ContentHash × ℕ)) (whenShort : Storage.WhenShort) :
    ((∀ limit, evictFor checks limit kept lastUsed item files whenShort =
        some (Storage.evictFor limit kept lastUsed item files whenShort)) ↔
      kept.usage.totalBytes + kept.uncountedBytes files < 2 ^ 64) ∧
    ((∀ limit, checkRoomFor checks limit kept files =
        some (Storage.checkRoomFor limit kept files)) ↔
      checks = off ∧ kept.mandatoryGrowth files = 0 ∨
        kept.usage.mandatoryBytes + kept.mandatoryGrowth files < 2 ^ 64 ∧
          (checks = on → kept.usage.cacheBytes < 2 ^ 64)) ∧
    ∀ (limit : NonZeroU64) (gone : List ItemId),
      Storage.evictFor (some limit) kept lastUsed item files whenShort = (gone, .made) →
        (kept.without gone).usage.totalBytes + kept.uncountedBytes files ≤ limit :=
  ⟨evictFor_exact_iff checks kept lastUsed item files whenShort,
    checkRoomFor_exact_iff checks kept files, fun _ _ hmade => fits_of_made hmade⟩

end Verdicts

/-- Two files whose sizes add up to what a word cannot hold. -/
def absurdFiles : List (ContentHash × ℕ) := [(⟨1⟩, 2 ^ 64 - 1), (⟨2⟩, 1)]

/-- Under a limit of ten bytes they are short of room by all but ten of their bytes. A program
without overflow checks makes room for them by doing nothing, and one with them panics. -/
theorem room_made_for_absurd_files :
    Storage.evictFor (some (limitAt 10)) ∅ (fun _ => none) ⟨1⟩ absurdFiles .evictNothing =
        ([], .short (2 ^ 64 - 10)) ∧
      evictFor off (some (limitAt 10)) ∅ (fun _ => none) ⟨1⟩ absurdFiles .evictNothing =
        some ([], .made) ∧
      evictFor on (some (limitAt 10)) ∅ (fun _ => none) ⟨1⟩ absurdFiles .evictNothing = none := by
  decide +kernel

end Words
end Distlib
