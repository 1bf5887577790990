import Distlib.Custody.Evictions

/-!
# Evicting for nothing

The plan lets items go in the order they were last used, until enough is free. It never
takes an item that is also kept as own or custody, since that frees nothing. Whether an item
frees anything depends on who else keeps its blobs, though, and nothing looks at that: when
another item that stays keeps every one of them, an old item goes and no byte with it.

`TurnComes` says which items the plan takes without planning: those whose predecessors are
not enough. What an item meets at its turn is known then, since those that go before it have
gone: a blob of its own is freed by it if nothing else keeps it but their caches
(`FreesAtTurn`). If each item whose turn comes frees one, none goes for nothing
(`frees_when`). It can do without: a blob that an item shares with one that goes later is
freed by the last of them, whoever of them frees nothing at its own turn. Where no two items
that go share a blob there is no other way.
-/

namespace Distlib

open OrdMap

namespace KeptBlobs

variable {kept : KeptBlobs} {keeping item other : ItemId} {lastUsed : ItemId → Option ℕ}
  {needed limit : ℕ} {gone more : List ItemId}

/-! ## Whose turn comes -/

theorem Precedes.goesBefore {a b : ItemId} (h : Precedes lastUsed a b) :
    a ≠ b ∧ goesBefore (lastUsed a, a) (lastUsed b, b) = true := by
  have hirrefl : compare a a ≠ .lt := by
    rw [Std.compare_self]
    intro heq
    cases heq
  have hmet : compare (lastUsed a) (lastUsed b) = .lt ∨
      lastUsed a = lastUsed b ∧ compare a b = .lt := by
    rw [Precedes] at h
    generalize lastUsed a = s at h ⊢
    generalize lastUsed b = t at h ⊢
    rcases s with _ | s <;> rcases t with _ | t
    · exact Or.inr ⟨rfl, h⟩
    · exact Or.inl rfl
    · exact h.elim
    · rcases h with hlt | ⟨rfl, hid⟩
      · exact Or.inl (Nat.compare_eq_lt.mpr hlt)
      · exact Or.inr ⟨rfl, hid⟩
  constructor
  · rintro rfl
    rcases hmet with hlt | ⟨-, hlt⟩
    · rw [Std.compare_self] at hlt
      cases hlt
    · exact hirrefl hlt
  · change ((compare (lastUsed a) (lastUsed b)).then (compare a b)).isLE = true
    rcases hmet with hlt | ⟨heq, hlt⟩
    · rw [hlt]
      rfl
    · rw [heq, Std.compare_self, hlt]
      rfl

theorem precedes_iff {a b : ItemId} :
    Precedes lastUsed a b ↔ a ≠ b ∧ goesBefore (lastUsed a, a) (lastUsed b, b) = true :=
  ⟨Precedes.goesBefore, fun h => precedes_of_goesBefore h.1 h.2⟩

instance (lastUsed : ItemId → Option ℕ) (a b : ItemId) : Decidable (Precedes lastUsed a b) :=
  decidable_of_iff _ precedes_iff.symm

/-- No two items precede each other. -/
theorem Precedes.asymm {a b : ItemId} (h : Precedes lastUsed a b) : ¬ Precedes lastUsed b a := by
  intro hback
  obtain ⟨hne, hab⟩ := h.goesBefore
  obtain ⟨-, hba⟩ := hback.goesBefore
  rw [goesBefore_eq] at hab hba
  have heq : evictionOrder (lastUsed a, a) (lastUsed b, b) = .eq :=
    Std.OrientedCmp.isLE_antisymm hab hba
  change (compare (lastUsed a) (lastUsed b)).then (compare a b) = .eq at heq
  rw [Ordering.then_eq_eq] at heq
  exact hne (Std.LawfulEqCmp.eq_of_compare heq.2)

/-- The items that may go and are to go before `item`. -/
def earlier (kept : KeptBlobs) (keeping : ItemId) (lastUsed : ItemId → Option ℕ) (item : ItemId) :
    List ItemId :=
  (kept.candidates keeping lastUsed).filter fun other => Precedes lastUsed other item

theorem mem_earlier : other ∈ kept.earlier keeping lastUsed item ↔
    kept.Evictable keeping other ∧ Precedes lastUsed other item := by
  rw [earlier, List.mem_filter, mem_candidates, decide_eq_true_eq]

/-- An item's turn comes: it may go, and with all gone that are to go before it what is left
and what is needed are still over the limit. -/
def TurnComes (kept : KeptBlobs) (keeping : ItemId) (needed limit : ℕ) (lastUsed : ItemId → Option ℕ)
    (item : ItemId) : Prop :=
  kept.Evictable keeping item ∧
    limit < (kept.without (kept.earlier keeping lastUsed item)).usage.totalBytes + needed

/-- Of a list in a strict order, what comes before a member is what precedes it. -/
theorem mem_start_iff {α : Type*} {R : α → α → Prop} (hasymm : ∀ {a b}, R a b → ¬ R b a)
    {start rest : List α} {a b : α} (h : (start ++ a :: rest).Pairwise R) :
    b ∈ start ↔ b ∈ start ++ a :: rest ∧ R b a := by
  obtain ⟨-, hrest, hacross⟩ := List.pairwise_append.mp h
  constructor
  · intro hb
    exact ⟨List.mem_append_left _ hb, hacross b hb a List.mem_cons_self⟩
  · rintro ⟨hb, hba⟩
    rcases List.mem_append.mp hb with hb | hb
    · exact hb
    · rcases List.mem_cons.mp hb with rfl | hb
      · exact absurd hba (hasymm hba)
      · exact absurd hba (hasymm ((List.pairwise_cons.mp hrest).1 b hb))

/-- The more goes, the fewer tags are left. -/
theorem tagsLeft_anti (h : ∀ item ∈ gone, item ∈ more) (blob : ContentHash) :
    kept.tagsLeft more blob ≤ kept.tagsLeft gone blob := by
  rw [tagsLeft, tagsLeft]
  rcases kept[blob]? with _ | entry
  · exact le_refl _
  · refine List.countP_mono_left fun tag _ hstays => ?_
    simp only [stays, Bool.or_eq_true, decide_eq_true_eq] at hstays ⊢
    exact hstays.imp_right fun hmore hgone => hmore (h _ hgone)

/-- A blob that the fewer items leave nothing of, the more leave nothing of. -/
theorem bytesLeft_anti (h : ∀ item ∈ gone, item ∈ more) (blob : ContentHash) :
    (if kept.tagsLeft more blob = 0 then 0 else kept.bytesOf blob) ≤
      if kept.tagsLeft gone blob = 0 then 0 else kept.bytesOf blob := by
  have hle : kept.tagsLeft more blob ≤ kept.tagsLeft gone blob := tagsLeft_anti h blob
  by_cases hleft : kept.tagsLeft gone blob = 0
  · rw [if_pos hleft, if_pos (by omega)]
  · rw [if_neg hleft]
    split
    · exact Nat.zero_le _
    · exact le_refl _

/-- The more goes, the less is left. -/
theorem totalBytes_without_anti (h : ∀ item ∈ gone, item ∈ more) :
    (kept.without more).usage.totalBytes ≤ (kept.without gone).usage.totalBytes := by
  rw [totalBytes_without, totalBytes_without]
  exact Finset.sum_le_sum fun blob _ => bytesLeft_anti h blob

/-- What may go before an item of the plan is in the plan. -/
theorem earlier_subset_evictions
    (hitem : item ∈ (kept.evictions keeping needed limit lastUsed).items) :
    ∀ other ∈ kept.earlier keeping lastUsed item,
      other ∈ (kept.evictions keeping needed limit lastUsed).items := by
  intro other hother
  obtain ⟨hmay, hpair, ⟨rest, hrest⟩, -⟩ := evictions_exact kept keeping needed limit lastUsed
  obtain ⟨hevictable, hbefore⟩ := mem_earlier.mp hother
  have hmem := (hmay other).mpr hevictable
  rw [← hrest] at hmem hpair
  rcases List.mem_append.mp hmem with hplanned | hlater
  · exact hplanned
  · exact absurd hbefore ((List.pairwise_append.mp hpair).2.2 item hitem other hlater).asymm

/-- **What the plan takes** is what has its turn. -/
theorem mem_evictions_iff : item ∈ (kept.evictions keeping needed limit lastUsed).items ↔
    kept.TurnComes keeping needed limit lastUsed item := by
  obtain ⟨hmay, hpair, ⟨rest, hrest⟩, hshort, hover, hall⟩ :=
    evictions_exact kept keeping needed limit lastUsed
  constructor
  · intro hitem
    obtain ⟨start, later, hplan⟩ := List.append_of_mem hitem
    have horder : kept.candidates keeping lastUsed = start ++ item :: (later ++ rest) := by
      rw [← hrest, hplan, List.append_assoc, List.cons_append]
    have hsame : kept.tagsLeft (kept.earlier keeping lastUsed item) = kept.tagsLeft start := by
      refine tagsLeft_congr fun other => ?_
      rw [horder] at hpair hmay
      rw [mem_earlier, ← hmay, mem_start_iff Precedes.asymm hpair]
    have hstart := hover start.length (by rw [hplan]; simp)
    rw [horder, List.take_left, totalBytes_without, ← hsame, ← totalBytes_without] at hstart
    exact ⟨(hmay item).mp (by rw [horder]; simp), hstart⟩
  · rintro ⟨hitem, hturn⟩
    by_contra hout
    have hlater : item ∈ rest := by
      have hmem := (hmay item).mpr hitem
      rw [← hrest] at hmem
      exact (List.mem_append.mp hmem).resolve_left hout
    have hfits : (kept.evictions keeping needed limit lastUsed).shortBy = 0 := by
      by_contra hmissing
      exact hout (hall (Nat.pos_of_ne_zero hmissing) ▸ (hmay item).mpr hitem)
    have hless : (kept.without (kept.earlier keeping lastUsed item)).usage.totalBytes ≤
        (kept.without (kept.evictions keeping needed limit lastUsed).items).usage.totalBytes := by
      refine totalBytes_without_anti fun other hother => mem_earlier.mpr ⟨?_, ?_⟩
      · exact (hmay other).mp (hrest ▸ List.mem_append_left _ hother)
      · rw [← hrest] at hpair
        exact (List.pairwise_append.mp hpair).2.2 other hother item hlater
    omega

/-! ## What an item frees -/

/-- With the items in `gone` gone, a blob that `item` had cached is kept by no tag. -/
def Frees (kept : KeptBlobs) (gone : List ItemId) (item : ItemId) : Prop :=
  ∃ (blob : ContentHash) (entry : KeptBlob), kept[blob]? = some entry ∧
    (.cache, item) ∈ entry.tags ∧ ∀ tag ∈ entry.tags, stays gone tag = false

/-- Every blob kept has some bytes. -/
def Sized (kept : KeptBlobs) : Prop :=
  ∀ (blob : ContentHash) (entry : KeptBlob), kept[blob]? = some entry → 0 < entry.bytes

/-- Nothing goes for nothing: each item that goes frees a blob of its own, and so, with no
blob empty, more would be left if it stayed. -/
def EachFrees (kept : KeptBlobs) (gone : List ItemId) : Prop :=
  ∀ item ∈ gone, kept.Frees gone item ∧ (kept.Sized →
    (kept.without gone).usage.totalBytes <
      (kept.without (gone.filter fun other => other ≠ item)).usage.totalBytes)

theorem Frees.totalBytes_lt (h : kept.Frees gone item) (hsized : kept.Sized) :
    (kept.without gone).usage.totalBytes <
      (kept.without (gone.filter fun other => other ≠ item)).usage.totalBytes := by
  obtain ⟨blob, entry, hentry, htag, hgoes⟩ := h
  have hnone : kept.tagsLeft gone blob = 0 := by
    rw [tagsLeft, hentry]
    refine List.countP_eq_zero.mpr fun tag hmem => ?_
    rw [hgoes tag hmem]
    exact Bool.false_ne_true
  have hsome : kept.tagsLeft (gone.filter fun other => other ≠ item) blob ≠ 0 := by
    rw [tagsLeft, hentry]
    refine Nat.pos_iff_ne_zero.mp (List.countP_pos_iff.mpr ⟨_, htag, ?_⟩)
    simp [stays]
  have hbytes : 0 < kept.bytesOf blob := by
    rw [bytesOf, hentry]
    exact hsized blob entry hentry
  rw [totalBytes_without, totalBytes_without]
  refine Finset.sum_lt_sum (fun other _ => ?_) ⟨blob, ?_, ?_⟩
  · exact bytesLeft_anti (fun _ hmem => (List.mem_filter.mp hmem).1) other
  · rw [mem_keySet, mem_iff_exists]
    exact ⟨entry, hentry⟩
  · rw [if_pos hnone, if_neg hsome]
    exact hbytes

/-- What an item frees at its turn: a blob it has cached that nothing else keeps but the
caches of items that go before it. -/
def FreesAtTurn (kept : KeptBlobs) (keeping : ItemId) (lastUsed : ItemId → Option ℕ)
    (item : ItemId) : Prop :=
  ∃ (blob : ContentHash) (entry : KeptBlob), kept[blob]? = some entry ∧
    (.cache, item) ∈ entry.tags ∧ ∀ tag ∈ entry.tags,
      tag.1 = .cache ∧ (tag.2 = item ∨ tag.2 ∈ kept.earlier keeping lastUsed item)

/-- No two items whose turn comes have a blob in common. -/
def Unshared (kept : KeptBlobs) (keeping : ItemId) (needed limit : ℕ)
    (lastUsed : ItemId → Option ℕ) : Prop :=
  ∀ (blob : ContentHash) (entry : KeptBlob), kept[blob]? = some entry →
    ∀ item other, (.cache, item) ∈ entry.tags → (.cache, other) ∈ entry.tags →
      kept.TurnComes keeping needed limit lastUsed item →
      kept.TurnComes keeping needed limit lastUsed other → item = other

theorem stays_eq_false {tag : KeepReason × ItemId} :
    stays gone tag = false ↔ tag.1 = .cache ∧ tag.2 ∈ gone := by
  obtain ⟨reason, named⟩ := tag
  cases reason <;> simp [stays, KeepReason.isMandatory]

/-- **Nothing is evicted for nothing** if each item whose turn comes frees a blob then. And
where no two of them share a blob, only if. -/
theorem frees_when (kept : KeptBlobs) (keeping : ItemId) (needed limit : ℕ)
    (lastUsed : ItemId → Option ℕ) :
    ((∀ item, kept.TurnComes keeping needed limit lastUsed item →
        kept.FreesAtTurn keeping lastUsed item) →
      kept.EachFrees (kept.evictions keeping needed limit lastUsed).items) ∧
    (kept.Unshared keeping needed limit lastUsed →
      kept.EachFrees (kept.evictions keeping needed limit lastUsed).items →
      ∀ item, kept.TurnComes keeping needed limit lastUsed item →
        kept.FreesAtTurn keeping lastUsed item) := by
  refine ⟨fun hturns item hitem => ?_, fun hunshared heach item hturn => ?_⟩
  · obtain ⟨blob, entry, hentry, htag, hall⟩ := hturns item (mem_evictions_iff.mp hitem)
    have hfrees : kept.Frees (kept.evictions keeping needed limit lastUsed).items item := by
      refine ⟨blob, entry, hentry, htag, fun tag hmem => stays_eq_false.mpr ?_⟩
      obtain ⟨hcache, hwhose⟩ := hall tag hmem
      refine ⟨hcache, ?_⟩
      rcases hwhose with rfl | hbefore
      · exact hitem
      · exact earlier_subset_evictions hitem _ hbefore
    exact ⟨hfrees, hfrees.totalBytes_lt⟩
  · obtain ⟨blob, entry, hentry, htag, hall⟩ := (heach item (mem_evictions_iff.mpr hturn)).1
    refine ⟨blob, entry, hentry, htag, fun tag hmem => ?_⟩
    obtain ⟨hcache, hplanned⟩ := stays_eq_false.mp (hall tag hmem)
    refine ⟨hcache, Or.inl (hunshared blob entry hentry tag.2 item ?_ htag ?_ hturn)⟩
    · rw [← hcache]
      exact hmem
    · exact mem_evictions_iff.mp hplanned

/-- Two items in the cache: the first has a blob of its own, and one that the second has
too. -/
def sharedCache : KeptBlobs :=
  ((KeptBlobs.add ∅ .cache ⟨1⟩ ⟨1⟩ 10).add .cache ⟨1⟩ ⟨2⟩ 10).add .cache ⟨2⟩ ⟨2⟩ 10

/-- Both go, and each frees a blob when it does. -/
theorem sharedCache_each_frees :
    (sharedCache.evictions ⟨9⟩ 0 5 fun _ => none).items = [⟨1⟩, ⟨2⟩] ∧
      sharedCache.EachFrees (sharedCache.evictions ⟨9⟩ 0 5 fun _ => none).items := by
  have hplan : (sharedCache.evictions ⟨9⟩ 0 5 fun _ => none).items = [⟨1⟩, ⟨2⟩] := by
    decide +kernel
  refine ⟨hplan, (frees_when sharedCache ⟨9⟩ 0 5 fun _ => none).1 fun item hturn => ?_⟩
  have hitem := mem_evictions_iff.mpr hturn
  rw [hplan, List.mem_cons, List.mem_singleton] at hitem
  rcases hitem with rfl | rfl
  · exact ⟨⟨1⟩, ⟨10, [(.cache, ⟨1⟩)]⟩, by decide +kernel, by decide +kernel, by decide +kernel⟩
  · exact ⟨⟨2⟩, ⟨10, [(.cache, ⟨1⟩), (.cache, ⟨2⟩)]⟩, by decide +kernel, by decide +kernel,
      by decide +kernel⟩

/-- Two items of ten bytes each, one of them kept by a third item as its own too. -/
def sharedWithOwn : KeptBlobs :=
  ((KeptBlobs.add ∅ .cache ⟨1⟩ ⟨1⟩ 10).add .own ⟨2⟩ ⟨1⟩ 10).add .cache ⟨3⟩ ⟨2⟩ 10

/-- The one that frees nothing goes first, and then the one that would have done. -/
theorem sharedWithOwn_evicted_for_nothing :
    (sharedWithOwn.evictions ⟨9⟩ 0 10 fun _ => none).items = [⟨1⟩, ⟨3⟩] ∧
      (sharedWithOwn.without [⟨3⟩]).usage.totalBytes = 10 ∧
      ¬ sharedWithOwn.EachFrees (sharedWithOwn.evictions ⟨9⟩ 0 10 fun _ => none).items := by
  have hplan : (sharedWithOwn.evictions ⟨9⟩ 0 10 fun _ => none).items = [⟨1⟩, ⟨3⟩] := by
    decide +kernel
  refine ⟨hplan, by decide +kernel, fun heach => ?_⟩
  rw [hplan] at heach
  obtain ⟨blob, entry, hentry, htag, hgoes⟩ := (heach ⟨1⟩ List.mem_cons_self).1
  have hblobs : ∀ entry : ContentHash × KeptBlob, entry ∈ sharedWithOwn.toList →
      (.cache, ⟨1⟩) ∈ entry.2.tags → (.own, ⟨2⟩) ∈ entry.2.tags := by
    decide +kernel
  have hown := hgoes _ (hblobs (blob, entry)
    (Std.ExtTreeMap.mem_toList_iff_getElem?_eq_some.mpr hentry) htag)
  cases hown

end KeptBlobs

end Distlib
