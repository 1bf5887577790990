import Distlib.Custody.KeptBlobs

/-!
# What an eviction plan is exactly

The plan is made by letting cached items go one by one, least recently used first, while
what is taken and what is needed are over the limit. It carries a count of tags for each
blob and a running total.

`evictions_exact` says what comes of it without any of that. `without` is what is kept once
the cache tags of some items are dropped, and counting it again from scratch is the
reference: the plan is the shortest start of the order under which everything fits, and what
it says is still missing is what the count says.
-/

namespace Distlib

open OrdMap

namespace KeptBlobs

variable {kept : KeptBlobs} {keeping item : ItemId} {lastUsed : ItemId → Option ℕ} {gone : List ItemId}

/-! ## The order -/

/-- Of two items, `a` goes first: it has never been used and `b` has, or was used before `b`,
or at the same time and its id is the smaller. -/
def Precedes (lastUsed : ItemId → Option ℕ) (a b : ItemId) : Prop :=
  match lastUsed a, lastUsed b with
  | none, some _ => True
  | some _, none => False
  | none, none => compare a b = .lt
  | some s, some t => s < t ∨ s = t ∧ compare a b = .lt

/-- The order that the candidates are sorted in, as one comparison. -/
def evictionOrder : Option ℕ × ItemId → Option ℕ × ItemId → Ordering :=
  compareLex (compareOn Prod.fst) (compareOn Prod.snd)

instance : Std.TransCmp evictionOrder :=
  inferInstanceAs (Std.TransCmp (compareLex (compareOn Prod.fst) (compareOn Prod.snd)))

theorem goesBefore_eq (a b : Option ℕ × ItemId) : goesBefore a b = (evictionOrder a b).isLE := rfl

instance : Std.Total fun a b => goesBefore a b = true :=
  ⟨fun a b => by
    rw [goesBefore_eq, goesBefore_eq, @Std.OrientedCmp.eq_swap _ evictionOrder _ b a]
    cases evictionOrder a b <;> simp⟩

instance : IsTrans (Option ℕ × ItemId) fun a b => goesBefore a b = true :=
  ⟨fun _ _ _ hab hbc => @Std.TransCmp.isLE_trans _ evictionOrder _ _ _ _ hab hbc⟩

/-- Of two items, the one that goes before the other precedes it. -/
theorem precedes_of_goesBefore {a b : ItemId} (hne : a ≠ b)
    (h : goesBefore (lastUsed a, a) (lastUsed b, b) = true) : Precedes lastUsed a b := by
  have hid : (compare a b).isLE = true → compare a b = .lt := by
    rcases hcmp : compare a b with _ | _ | _
    · exact fun _ => rfl
    · exact absurd (Std.LawfulEqCmp.eq_of_compare hcmp) hne
    · exact fun hle => by cases hle
  change ((compare (lastUsed a) (lastUsed b)).then (compare a b)).isLE = true at h
  rw [Precedes]
  generalize lastUsed a = s at h ⊢
  generalize lastUsed b = t at h ⊢
  rcases s with _ | s <;> rcases t with _ | t
  · exact hid h
  · trivial
  · cases h
  · change ((compare s t).then (compare a b)).isLE = true at h
    rcases hcmp : compare s t with _ | _ | _ <;> rw [hcmp] at h
    · exact Or.inl (Nat.compare_eq_lt.mp hcmp)
    · exact Or.inr ⟨Nat.compare_eq_eq.mp hcmp, hid h⟩
    · cases h

/-- The candidates are in the order they are said to be in. -/
theorem pairwise_candidates (kept : KeptBlobs) (keeping : ItemId) (lastUsed : ItemId → Option ℕ) :
    (kept.candidates keeping lastUsed).Pairwise (Precedes lastUsed) := by
  have hnodup := nodup_candidates kept keeping lastUsed
  rw [candidates] at hnodup ⊢
  rw [List.pairwise_map]
  have hstamped : ∀ stamped ∈ ((((kept.cacheTags.map Prod.fst).dedup.filter fun item =>
      item ≠ keeping && item ∉ kept.mandatory).map fun item => (lastUsed item, item)).insertionSort
        fun a b => goesBefore a b = true), stamped.1 = lastUsed stamped.2 := by
    intro stamped hstamped
    obtain ⟨item, -, rfl⟩ := List.mem_map.mp ((List.mem_insertionSort _).mp hstamped)
    rfl
  refine List.Pairwise.imp_of_mem ?_
    ((List.pairwise_insertionSort (fun a b => goesBefore a b = true) _).and
      (List.pairwise_map.mp hnodup))
  rintro ⟨s, a⟩ ⟨t, b⟩ ha hb ⟨hbefore, hne⟩
  obtain rfl : s = lastUsed a := hstamped _ ha
  obtain rfl : t = lastUsed b := hstamped _ hb
  exact precedes_of_goesBefore hne hbefore

theorem mem_cacheTags_items :
    item ∈ kept.cacheTags.map Prod.fst ↔
      ∃ (blob : ContentHash) (entry : KeptBlob), kept[blob]? = some entry ∧ (.cache, item) ∈ entry.tags := by
  rw [List.mem_map]
  constructor
  · rintro ⟨⟨named, blob⟩, hmem, rfl⟩
    obtain ⟨⟨key, entry⟩, hentry, htag⟩ := List.mem_flatMap.mp hmem
    obtain ⟨⟨reason, other⟩, hleft, heq⟩ := List.mem_map.mp htag
    obtain ⟨rfl, rfl⟩ := Prod.mk.inj heq
    obtain ⟨htag, hreason⟩ := List.mem_filter.mp hleft
    refine ⟨key, entry, Std.ExtTreeMap.mem_toList_iff_getElem?_eq_some.mp hentry, ?_⟩
    cases reason with
    | cache => exact htag
    | own => cases hreason
    | custody => cases hreason
  · rintro ⟨blob, entry, hentry, htag⟩
    refine ⟨(item, blob), List.mem_flatMap.mpr ⟨(blob, entry), ?_, ?_⟩, rfl⟩
    · exact Std.ExtTreeMap.mem_toList_iff_getElem?_eq_some.mpr hentry
    · exact List.mem_map.mpr ⟨(.cache, item), List.mem_filter.mpr ⟨htag, rfl⟩, rfl⟩

theorem mem_mandatory :
    item ∈ kept.mandatory ↔
      ∃ (blob : ContentHash) (entry : KeptBlob) (reason : KeepReason), kept[blob]? = some entry ∧ (reason, item) ∈ entry.tags ∧
        reason.isMandatory = true := by
  rw [mandatory, List.mem_flatMap]
  constructor
  · rintro ⟨⟨key, entry⟩, hentry, htag⟩
    obtain ⟨⟨reason, other⟩, hleft, rfl⟩ := List.mem_map.mp htag
    obtain ⟨htag, hreason⟩ := List.mem_filter.mp hleft
    exact ⟨key, entry, reason, Std.ExtTreeMap.mem_toList_iff_getElem?_eq_some.mp hentry, htag, hreason⟩
  · rintro ⟨blob, entry, reason, hentry, htag, hreason⟩
    refine ⟨(blob, entry), Std.ExtTreeMap.mem_toList_iff_getElem?_eq_some.mpr hentry, ?_⟩
    exact List.mem_map.mpr ⟨(reason, item), List.mem_filter.mpr ⟨htag, hreason⟩, rfl⟩

/-- The items that may go: a cache tag keeps them, they are not the one room is made for, and
no own or custody tag keeps them. -/
def Evictable (kept : KeptBlobs) (keeping item : ItemId) : Prop :=
  (∃ (blob : ContentHash) (entry : KeptBlob), kept[blob]? = some entry ∧ (.cache, item) ∈ entry.tags) ∧ item ≠ keeping ∧
    ∀ (blob : ContentHash) (entry : KeptBlob) (reason : KeepReason), kept[blob]? = some entry → (reason, item) ∈ entry.tags →
      reason.isMandatory = false

theorem mem_candidates :
    item ∈ kept.candidates keeping lastUsed ↔ kept.Evictable keeping item := by
  have hsorted : item ∈ kept.candidates keeping lastUsed ↔
      item ∈ (kept.cacheTags.map Prod.fst).dedup.filter fun item =>
        item ≠ keeping && item ∉ kept.mandatory := by
    rw [candidates, List.mem_map]
    constructor
    · rintro ⟨stamped, hstamped, rfl⟩
      obtain ⟨other, hother, rfl⟩ := List.mem_map.mp ((List.mem_insertionSort _).mp hstamped)
      exact hother
    · intro hitem
      exact ⟨(lastUsed item, item),
        (List.mem_insertionSort _).mpr (List.mem_map.mpr ⟨item, hitem, rfl⟩), rfl⟩
  rw [hsorted, List.mem_filter, List.mem_dedup, mem_cacheTags_items, Evictable]
  simp only [Bool.and_eq_true, decide_eq_true_eq, mem_mandatory, not_exists, not_and,
    Bool.not_eq_true]

/-! ## What is left, counted again -/

/-- What is kept once the cache tags of the items in `gone` are dropped. -/
def without (kept : KeptBlobs) (gone : List ItemId) : KeptBlobs :=
  kept.map fun _ entry => { entry with tags := entry.tags.filter (stays gone) }

theorem getElem?_without (blob : ContentHash) :
    (kept.without gone)[blob]? =
      kept[blob]?.map fun entry => { entry with tags := entry.tags.filter (stays gone) } :=
  Std.ExtTreeMap.getElem?_map

/-- Counting what is left again comes to what the tags left over keep. -/
theorem totalBytes_without (kept : KeptBlobs) (gone : List ItemId) :
    (kept.without gone).usage.totalBytes = kept.taken (kept.tagsLeft gone) := by
  have hkeys : keySet (kept.without gone) = keySet kept := by
    ext blob
    simp only [mem_keySet, mem_iff_exists, getElem?_without, Option.map_eq_some_iff]
    constructor
    · rintro ⟨_, entry, hentry, -⟩
      exact ⟨entry, hentry⟩
    · rintro ⟨entry, hentry⟩
      exact ⟨_, entry, hentry, rfl⟩
  rw [usage_totalBytes, taken, taken, hkeys]
  refine Finset.sum_congr rfl fun blob _ => ?_
  rw [tagCount, bytesOf, getElem?_without, tagsLeft, bytesOf]
  rcases kept[blob]? with _ | entry
  · rfl
  · simp only [Option.map_some, Option.elim_some, List.countP_eq_length_filter]
    rfl

/-! ## The plan -/

/-- **The plan is the shortest start of its order**: it is one, whatever is shorter is over
the limit, and it is all of it when even that is not enough. -/
theorem evictWhileOver_minimal (kept : KeptBlobs) (needed limit : ℕ) (items : List ItemId) :
    ∀ (gone : List ItemId), items.Nodup → (∀ item ∈ items, item ∉ gone) →
      let plan := kept.evictWhileOver limit items
        (kept.tagsLeft gone, needed + kept.taken (kept.tagsLeft gone))
      plan.1 <+: items ∧
        (∀ k < plan.1.length, limit < needed + kept.taken (kept.tagsLeft (items.take k ++ gone))) ∧
        (limit < plan.2 → plan.1 = items) := by
  induction items with
  | nil =>
    intro gone _ _
    exact ⟨List.prefix_refl _, fun k hk => absurd hk (Nat.not_lt_zero k), fun _ => rfl⟩
  | cons item rest ih =>
    intro gone hnodup hnew
    obtain ⟨hother, hnodup⟩ := List.nodup_cons.mp hnodup
    rw [evictWhileOver]
    dsimp only
    split
    · rename_i hfits
      exact ⟨List.nil_prefix, fun k hk => absurd hk (Nat.not_lt_zero k),
        fun hover => absurd hfits (not_le.mpr hover)⟩
    · rename_i hover
      rw [foldl_dropTag_cached kept (hnew item List.mem_cons_self) rfl]
      obtain ⟨hstart, hshorter, hall⟩ := ih (item :: gone) hnodup (fun next hnext => by
        simp only [List.mem_cons, not_or]
        exact ⟨fun heq => hother (heq ▸ hnext), hnew next (List.mem_cons_of_mem _ hnext)⟩)
      refine ⟨List.cons_prefix_cons.mpr ⟨rfl, hstart⟩, ?_, ?_⟩
      · intro k hk
        rcases k with _ | k
        · rw [List.take_zero, List.nil_append]
          exact not_le.mp hover
        · have hlonger := hshorter k (Nat.lt_of_succ_lt_succ hk)
          have hsame : kept.tagsLeft (rest.take k ++ item :: gone) =
              kept.tagsLeft ((item :: rest).take (k + 1) ++ gone) := by
            refine tagsLeft_congr fun other => ?_
            rw [List.take_succ_cons]
            simp only [List.mem_append, List.mem_cons]
            tauto
          rw [hsame] at hlonger
          exact hlonger
      · intro hover
        rw [hall hover]

/-- **Eviction planning is exact**, for everything a node may keep, and whatever is to be
made room for: the order is that of the items that may go, by last use; the plan is a start
of it; what is left once exactly its items' cache tags are dropped, counted from scratch,
and what is needed are over the limit by what the plan says is missing; no shorter start would
have fitted; and a plan that says something is missing is the whole order. -/
theorem evictions_exact (kept : KeptBlobs) (keeping : ItemId) (needed limit : ℕ)
    (lastUsed : ItemId → Option ℕ) :
    let order := kept.candidates keeping lastUsed
    let plan := kept.evictions keeping needed limit lastUsed
    (∀ item, item ∈ order ↔ kept.Evictable keeping item) ∧
      order.Pairwise (Precedes lastUsed) ∧
      plan.items <+: order ∧
      plan.shortBy = (kept.without plan.items).usage.totalBytes + needed - limit ∧
      (∀ k < plan.items.length, limit < (kept.without (order.take k)).usage.totalBytes + needed) ∧
      (0 < plan.shortBy → plan.items = order) := by
  intro order plan
  obtain ⟨hstart, hshorter, hall⟩ := evictWhileOver_minimal kept needed limit order []
    (nodup_candidates kept keeping lastUsed) (fun _ _ => List.not_mem_nil)
  have hplan : (⟨plan.items, plan.shortBy⟩ : Evictions) =
      ⟨(kept.evictWhileOver limit order (kept.tagsLeft [], needed + kept.taken (kept.tagsLeft []))).1,
        (kept.evictWhileOver limit order
          (kept.tagsLeft [], needed + kept.taken (kept.tagsLeft []))).2 - limit⟩ := by
    rw [tagsLeft_nil, Nat.add_comm, ← usage_totalBytes]
    rfl
  obtain ⟨hitems, hshort⟩ := Evictions.mk.inj hplan
  rw [← hitems] at hstart hshorter hall
  refine ⟨fun item => mem_candidates, pairwise_candidates kept keeping lastUsed, hstart, ?_, ?_, ?_⟩
  · rw [totalBytes_without, Nat.add_comm]
    exact evictions_spec kept keeping needed limit lastUsed
  · intro k hk
    have hover := hshorter k hk
    rw [List.append_nil] at hover
    rw [totalBytes_without, Nat.add_comm]
    exact hover
  · intro hmissing
    rw [hshort] at hmissing
    exact hall (by omega)

end KeptBlobs

end Distlib
