import Mathlib

/-!
# Ordered maps

The finite ordered maps every projection in this development is made of. The
carrier is the standard library's extensional tree map: iteration follows the
key order, and two maps are equal as soon as they agree on every key, whatever
the order in which they were filled. What is added here is only what the
proofs about states made of such maps need and the library does not state:

* taking an entry out and putting it back is the identity (`insert_erase_self`),
  and so is erasing a key that is not there (`erase_eq_self`);
* the keys as a `Finset` (`keySet`), where counting arguments live;
* what the entries add up to, as a sum over the keys (`sum_toList`, `total_insert`);
* two maps whose entries name each other have as many entries
  (`length_filterMap_eq_size`);
* how a list of pairs folds into a map when it names a key twice
  (`mem_of_getElem?_ofList`, `size_ofList_eq_length_iff`).
-/

universe u v

/-- An ordered map from `K` to `V`. -/
abbrev OrdMap (K : Type u) (V : Type v) [Ord K] : Type (max u v) :=
  Std.ExtTreeMap K V compare

/-- A set of ordered keys. -/
abbrev OrdSet (K : Type u) [Ord K] : Type u := Std.ExtTreeSet K compare

namespace OrdMap

variable {K : Type u} {V : Type v} [Ord K] [Std.TransOrd K] [Std.LawfulEqOrd K]

omit [Std.LawfulEqOrd K] in
/-- A key of a map is one it has an entry for. -/
theorem mem_iff_exists {m : OrdMap K V} {k : K} : k ∈ m ↔ ∃ v, m[k]? = some v := by
  rw [Std.ExtTreeMap.mem_iff_isSome_getElem?, Option.isSome_iff_exists]

omit [Std.LawfulEqOrd K] in
theorem notMem_of_getElem?_eq_none {m : OrdMap K V} {k : K} (h : m[k]? = none) : k ∉ m := by
  rw [mem_iff_exists]
  rintro ⟨v, hv⟩
  rw [h] at hv
  cases hv

omit [Std.LawfulEqOrd K] in
/-- A map is empty when it has the keys of an empty set. -/
theorem isEmpty_iff_of_mem_iff {m : OrdMap K V} {s : Finset K} (h : ∀ k, k ∈ m ↔ k ∈ s) :
    m.isEmpty = true ↔ s = ∅ := by
  rw [Std.ExtTreeMap.isEmpty_iff, Std.ExtTreeMap.eq_empty_iff_forall_not_mem,
    Finset.eq_empty_iff_forall_notMem]
  simp only [h]

omit [Std.LawfulEqOrd K] in
theorem nonempty_of_mem_iff {m : OrdMap K V} {s : Finset K} (h : ∀ k, k ∈ m ↔ k ∈ s)
    (hm : (!m.isEmpty) = true) : s.Nonempty := by
  rw [Finset.nonempty_iff_ne_empty]
  intro hempty
  rw [(isEmpty_iff_of_mem_iff h).mpr hempty] at hm
  cases hm

/-- Erasing a key the map does not hold changes nothing. -/
theorem erase_eq_self {m : OrdMap K V} {k : K} (h : m[k]? = none) : m.erase k = m := by
  apply Std.ExtTreeMap.ext_getElem?
  intro a
  by_cases hk : k = a
  · subst hk
    simp [h]
  · simp [Std.ExtTreeMap.getElem?_erase, hk]

/-- Taking an entry out and putting it back restores the map. -/
theorem insert_erase_self {m : OrdMap K V} {k : K} {v : V} (h : m[k]? = some v) :
    (m.erase k).insert k v = m := by
  apply Std.ExtTreeMap.ext_getElem?
  intro a
  by_cases hk : k = a
  · subst hk
    simp [h]
  · simp [Std.ExtTreeMap.getElem?_insert, Std.ExtTreeMap.getElem?_erase, hk]

/-- Looking a key up in a filtered map. -/
theorem getElem?_filter_eq_some {m : OrdMap K V} {f : K → V → Bool} {k : K} {v : V} :
    (m.filter f)[k]? = some v ↔ m[k]? = some v ∧ f k v = true := by
  rw [Std.ExtTreeMap.getElem?_filter', Option.filter_eq_some_iff]

theorem filter_empty (f : K → V → Bool) : (∅ : OrdMap K V).filter f = ∅ := by
  apply Std.ExtTreeMap.ext_getElem?
  intro k
  simp [Std.ExtTreeMap.getElem?_filter]

/-! ## The keys as a finite set -/

section KeySet

variable [DecidableEq K]

/-- The keys of a map. -/
def keySet (m : OrdMap K V) : Finset K := m.keys.toFinset

@[simp] theorem mem_keySet {m : OrdMap K V} {k : K} : k ∈ keySet m ↔ k ∈ m := by
  simp [keySet]

omit [Std.LawfulEqOrd K] in
/-- A map has as many entries as keys. -/
theorem card_keySet (m : OrdMap K V) : (keySet m).card = m.size := by
  rw [keySet, List.toFinset_card_of_nodup Std.ExtTreeMap.nodup_keys,
    Std.ExtTreeMap.length_keys]

omit [Std.LawfulEqOrd K] in
theorem keySet_eq_empty_iff {m : OrdMap K V} : keySet m = ∅ ↔ m = ∅ := by
  rw [← Finset.card_eq_zero, card_keySet, Std.ExtTreeMap.eq_empty_iff_size_eq_zero]

theorem keySet_erase (m : OrdMap K V) (k : K) : keySet (m.erase k) = (keySet m).erase k := by
  ext a
  rw [mem_keySet, Std.ExtTreeMap.mem_erase, Finset.mem_erase, mem_keySet, ne_eq,
    Std.LawfulEqCmp.compare_eq_iff_eq, ne_comm]

omit [Std.LawfulEqOrd K] in
theorem keySet_nonempty_iff {m : OrdMap K V} : (keySet m).Nonempty ↔ m ≠ ∅ := by
  rw [← Finset.card_pos, card_keySet, Nat.pos_iff_ne_zero, ne_eq, ne_eq,
    Std.ExtTreeMap.eq_empty_iff_size_eq_zero]

/-- What the entries of a map add up to, over its keys. -/
theorem sum_toList {M : Type*} [AddCommMonoid M] (m : OrdMap K V) (f : K → V → M) :
    (m.toList.map fun entry => f entry.1 entry.2).sum =
      ∑ k ∈ keySet m, (m[k]?).elim 0 (f k) := by
  rw [keySet, List.sum_toFinset _ Std.ExtTreeMap.nodup_keys, ← Std.ExtTreeMap.map_fst_toList_eq_keys,
    List.map_map]
  congr 1
  refine List.map_congr_left ?_
  rintro ⟨k, v⟩ hentry
  have hget : m[k]? = some v := Std.ExtTreeMap.mem_toList_iff_getElem?_eq_some.mp hentry
  simp [hget]

/-! ## What the values of a map come to -/

section Total

variable {M : Type*} [AddCommMonoid M]

/-- The sum of what `f` makes of each value. -/
def total (m : OrdMap K V) (f : V → M) : M := ∑ k ∈ keySet m, (m[k]?).elim 0 f

omit [Std.LawfulEqOrd K] in
@[simp] theorem total_empty (f : V → M) : total (∅ : OrdMap K V) f = 0 := by
  rw [total, keySet_eq_empty_iff.mpr rfl, Finset.sum_empty]

/-- What is under a key, and what the other keys hold. -/
theorem total_eq_add (m : OrdMap K V) (f : V → M) (k : K) :
    total m f = (m[k]?).elim 0 f + ∑ other ∈ (keySet m).erase k, (m[other]?).elim 0 f := by
  by_cases hk : k ∈ keySet m
  · exact (Finset.add_sum_erase _ (fun other => (m[other]?).elim 0 f) hk).symm
  · have hnone : m[k]? = none := by simpa using hk
    rw [total, Finset.erase_eq_of_notMem hk, hnone, Option.elim_none, zero_add]

/-- Putting a value in adds it, in place of the one that was there. -/
theorem total_insert (m : OrdMap K V) (f : V → M) (k : K) (v : V) :
    total (m.insert k v) f + (m[k]?).elim 0 f = total m f + f v := by
  have hkeys : (keySet (m.insert k v)).erase k = (keySet m).erase k := by
    ext other
    simp only [Finset.mem_erase, mem_keySet, Std.ExtTreeMap.mem_insert,
      Std.LawfulEqCmp.compare_eq_iff_eq]
    constructor
    · rintro ⟨hne, heq | hmem⟩
      · exact absurd heq.symm hne
      · exact ⟨hne, hmem⟩
    · rintro ⟨hne, hmem⟩
      exact ⟨hne, Or.inr hmem⟩
  have hrest : ∑ other ∈ (keySet m).erase k, ((m.insert k v)[other]?).elim 0 f =
      ∑ other ∈ (keySet m).erase k, (m[other]?).elim 0 f := by
    refine Finset.sum_congr rfl fun other hother => ?_
    rw [Std.ExtTreeMap.getElem?_insert, if_neg]
    rw [Std.LawfulEqCmp.compare_eq_iff_eq]
    exact (Finset.ne_of_mem_erase hother).symm
  rw [total_eq_add (m.insert k v) f k, hkeys, hrest, total_eq_add m f k,
    Std.ExtTreeMap.getElem?_insert_self, Option.elim_some]
  abel

/-- Two maps whose values `f` does not tell apart, key by key, come to the same. -/
theorem total_congr {m n : OrdMap K V} {f : V → M}
    (h : ∀ k : K, (m[k]?).map f = (n[k]?).map f) : total m f = total n f := by
  have hkeys : keySet m = keySet n := by
    ext k
    rw [mem_keySet, mem_keySet, Std.ExtTreeMap.mem_iff_isSome_getElem?,
      Std.ExtTreeMap.mem_iff_isSome_getElem?, ← Option.isSome_map (f := f), h, Option.isSome_map]
  rw [total, total, hkeys]
  refine Finset.sum_congr rfl fun k _ => ?_
  have hk := h k
  cases hm : m[k]? <;> cases hn : n[k]? <;> simp_all

end Total

end KeySet

/-! ## Two maps that name each other -/

/-- If the entries of `m` name keys of `n`, and `n` leads back from each to the entry
that names it, as many entries of `m` name one as `n` has. -/
theorem length_filterMap_eq_size {T : Type*} [Ord T] [Std.TransOrd T] [Std.LawfulEqOrd T]
    [DecidableEq T] {m : OrdMap K V} {n : OrdMap T K} {f : V → Option T}
    (h : ∀ k t, m[k]?.bind f = some t ↔ n[t]? = some k) :
    (m.toList.filterMap fun entry => f entry.2).length = n.size := by
  have hmem : ∀ t, t ∈ (m.toList.filterMap fun entry => f entry.2) ↔ t ∈ n := by
    intro t
    rw [List.mem_filterMap, mem_iff_exists]
    constructor
    · rintro ⟨⟨k, v⟩, hentry, hname⟩
      have hget := Std.ExtTreeMap.mem_toList_iff_getElem?_eq_some.mp hentry
      exact ⟨k, (h k t).mp (by rw [hget]; exact hname)⟩
    · rintro ⟨k, hback⟩
      obtain ⟨v, hget, hname⟩ := Option.bind_eq_some_iff.mp ((h k t).mpr hback)
      exact ⟨(k, v), Std.ExtTreeMap.mem_toList_iff_getElem?_eq_some.mpr hget, hname⟩
  have hnodup : (m.toList.filterMap fun entry => f entry.2).Nodup := by
    refine List.pairwise_filterMap.mpr (Std.ExtTreeMap.distinct_keys_toList.imp_of_mem ?_)
    rintro ⟨k, v⟩ ⟨k', v'⟩ hentry hentry' hne t hname t' hname' rfl
    -- two entries that name one key are the entry it leads back to
    have hget := Std.ExtTreeMap.mem_toList_iff_getElem?_eq_some.mp hentry
    have hget' := Std.ExtTreeMap.mem_toList_iff_getElem?_eq_some.mp hentry'
    have hback := (h k t).mp (by rw [hget]; exact hname)
    have hback' := (h k' t).mp (by rw [hget']; exact hname')
    rw [hback] at hback'
    obtain rfl := Option.some.inj hback'
    exact hne Std.ReflCmp.compare_self
  have hset : (m.toList.filterMap fun entry => f entry.2).toFinset = keySet n := by
    ext t
    rw [List.mem_toFinset, hmem, mem_keySet]
  rw [← card_keySet, ← hset, List.toFinset_card_of_nodup hnodup]

/-! ## Folding a list of pairs -/

/-- What a fold of pairs over a starting map answers at a key comes from one
of the pairs or from the map it started with. -/
theorem getElem?_insertMany {l : List (K × V)} :
    ∀ {m : OrdMap K V} {k : K} {v : V},
      (m.insertMany l)[k]? = some v → (k, v) ∈ l ∨ m[k]? = some v := by
  induction l with
  | nil => intro m k v h; exact Or.inr (by simpa using h)
  | cons p rest ih =>
    obtain ⟨a, b⟩ := p
    intro m k v h
    rw [Std.ExtTreeMap.insertMany_cons] at h
    rcases ih h with hmem | hget
    · exact Or.inl (List.mem_cons_of_mem _ hmem)
    · rw [Std.ExtTreeMap.getElem?_insert] at hget
      by_cases hk : a = k
      · subst hk
        simp only [Std.ReflCmp.compare_self, if_true, Option.some.injEq] at hget
        subst hget
        exact Or.inl (List.mem_cons_self ..)
      · simp only [Std.LawfulEqCmp.compare_eq_iff_eq, hk, if_false] at hget
        exact Or.inr hget

/-- Giving one value to every key of a list that is not spared. -/
theorem getElem?_foldl_insert [DecidableEq K] (spared : Finset K) (v : V) (keys : List K) :
    ∀ (m : OrdMap K V) (k : K),
      (keys.foldl (fun m key => if key ∈ spared then m else m.insert key v) m)[k]? =
        if k ∈ keys ∧ k ∉ spared then some v else m[k]? := by
  induction keys with
  | nil => intro m k; simp
  | cons key keys ih =>
    intro m k
    rw [List.foldl_cons, ih]
    by_cases hlater : k ∈ keys ∧ k ∉ spared
    · rw [if_pos hlater, if_pos ⟨List.mem_cons_of_mem _ hlater.1, hlater.2⟩]
    · rw [if_neg hlater]
      by_cases hk : key = k
      · subst hk
        by_cases hspared : key ∈ spared
        · simp [hspared]
        · simp [hspared]
      · split <;> simp_all [Std.ExtTreeMap.getElem?_insert, Std.LawfulEqCmp.compare_eq_iff_eq, Ne.symm hk]

/-- An entry of a folded list of pairs is one of the pairs. -/
theorem mem_of_getElem?_ofList {l : List (K × V)} {k : K} {v : V}
    (h : (Std.ExtTreeMap.ofList l compare)[k]? = some v) : (k, v) ∈ l := by
  rw [Std.ExtTreeMap.ofList_eq_insertMany_empty] at h
  rcases getElem?_insertMany h with hmem | hnone
  · exact hmem
  · simp at hnone

/-- The entries of a map fold into that map. -/
theorem ofList_toList (m : OrdMap K V) : Std.ExtTreeMap.ofList m.toList compare = m := by
  refine Std.ExtTreeMap.ext_getElem? fun k => Option.ext fun v => ?_
  constructor
  · intro h
    exact Std.ExtTreeMap.mem_toList_iff_getElem?_eq_some.mp (mem_of_getElem?_ofList h)
  · intro h
    exact Std.ExtTreeMap.getElem?_ofList_of_mem Std.ReflCmp.compare_self
      Std.ExtTreeMap.distinct_keys_toList (Std.ExtTreeMap.mem_toList_iff_getElem?_eq_some.mpr h)

omit [Std.LawfulEqOrd K] in
/-- One pair more is one entry put in. -/
theorem ofList_concat (l : List (K × V)) (k : K) (v : V) :
    Std.ExtTreeMap.ofList (l ++ [(k, v)]) compare =
      (Std.ExtTreeMap.ofList l compare).insert k v := by
  rw [Std.ExtTreeMap.ofList_eq_insertMany_empty, Std.ExtTreeMap.ofList_eq_insertMany_empty,
    Std.ExtTreeMap.insertMany_append, Std.ExtTreeMap.insertMany_list_singleton]

/-- Putting an entry in, whatever is taken out of its place first. -/
theorem erase_insert (m : OrdMap K V) (k : K) (v : V) : (m.erase k).insert k v = m.insert k v := by
  apply Std.ExtTreeMap.ext_getElem?
  intro a
  by_cases hk : k = a
  · subst hk
    simp
  · simp [Std.ExtTreeMap.getElem?_insert, Std.ExtTreeMap.getElem?_erase, hk]

/-- Taking an entry out, whatever was put in its place before. -/
theorem insert_erase (m : OrdMap K V) (k : K) (v : V) : (m.insert k v).erase k = m.erase k := by
  apply Std.ExtTreeMap.ext_getElem?
  intro a
  by_cases hk : k = a
  · subst hk
    simp
  · simp [Std.ExtTreeMap.getElem?_insert, Std.ExtTreeMap.getElem?_erase, hk]

section OfList

variable [DecidableEq K]

/-- The pairs that name another key fold into the map without that key. -/
theorem ofList_filter_ne (l : List (K × V)) (k : K) :
    Std.ExtTreeMap.ofList (l.filter fun pair => pair.1 ≠ k) compare =
      (Std.ExtTreeMap.ofList l compare).erase k := by
  induction l using List.reverseRecOn with
  | nil => exact (erase_eq_self (by simp)).symm
  | append_singleton l pair ih =>
    obtain ⟨a, b⟩ := pair
    rw [List.filter_append, ofList_concat]
    by_cases hk : a = k
    · obtain rfl := hk
      simpa [insert_erase] using ih
    · rw [List.filter_cons_of_pos (by simpa using hk), List.filter_nil, ofList_concat, ih]
      apply Std.ExtTreeMap.ext_getElem?
      intro c
      by_cases hc : k = c
      · obtain rfl := hc
        simp [hk]
      · simp [Std.ExtTreeMap.getElem?_insert, Std.ExtTreeMap.getElem?_erase, hc]

theorem mem_ofList_iff {l : List (K × V)} {k : K} :
    k ∈ Std.ExtTreeMap.ofList l compare ↔ ∃ v, (k, v) ∈ l := by
  simp

theorem keySet_ofList (l : List (K × V)) :
    keySet (Std.ExtTreeMap.ofList l compare) = (l.map Prod.fst).toFinset := by
  ext k
  simp

/-- The fold of a list keeps its length exactly when the list names no key
twice. -/
theorem size_ofList_eq_length_iff {l : List (K × V)} :
    (Std.ExtTreeMap.ofList l compare).size = l.length ↔ (l.map Prod.fst).Nodup := by
  have hlen : l.length = Multiset.card (l.map Prod.fst : Multiset K) := by simp
  rw [← card_keySet, keySet_ofList, hlen]
  exact Multiset.toFinset_card_eq_card_iff_nodup

end OfList

/-! ## Gathering rows -/

section Gather

variable {Row : Type*} [DecidableEq K]

/-- Rows gathered under their keys, each added to what is there already. -/
def gather (key : Row → K) (add : V → Row → V) (empty : V) (rows : List Row) : OrdMap K V :=
  rows.foldl (fun m row => m.insert (key row) (add ((m[key row]?).getD empty) row)) ∅

/-- Under a key is what its own rows come to, whatever rows there are of others. -/
theorem getD_gather (key : Row → K) (add : V → Row → V) (empty : V) (rows : List Row) (k : K) :
    ((gather key add empty rows)[k]?).getD empty = (rows.filter (key · = k)).foldl add empty := by
  rw [gather]
  induction rows using List.reverseRecOn with
  | nil => simp
  | append_singleton rows row ih =>
    rw [List.foldl_append, List.foldl_cons, List.foldl_nil, List.filter_append, List.foldl_append,
      ← ih]
    by_cases hk : key row = k
    · subst hk
      simp
    · simp [Std.ExtTreeMap.getElem?_insert, hk]

omit [DecidableEq K] [Std.LawfulEqOrd K] in
theorem foldl_insert_eq_ofList (key : Row → K) (value : Row → V) (rows : List Row) :
    rows.foldl (fun m row => m.insert (key row) (value row)) (∅ : OrdMap K V) =
      Std.ExtTreeMap.ofList (rows.map fun row => (key row, value row)) compare := by
  induction rows using List.reverseRecOn with
  | nil => simp
  | append_singleton rows row ih =>
    rw [List.foldl_append, List.foldl_cons, List.foldl_nil, ih, List.map_append, List.map_singleton,
      ofList_concat]

/-- Pairs with a key each come to the sum of what they are. -/
theorem total_ofList {M : Type*} [AddCommMonoid M] (f : V → M) (l : List (K × V))
    (hkeys : (l.map Prod.fst).Nodup) :
    total (Std.ExtTreeMap.ofList l compare) f = (l.map fun pair => f pair.2).sum := by
  induction l using List.reverseRecOn with
  | nil => exact total_empty f
  | append_singleton l pair ih =>
    obtain ⟨k, v⟩ := pair
    rw [List.map_append, List.map_singleton, List.nodup_append] at hkeys
    obtain ⟨hl, -, hnew⟩ := hkeys
    have hnone : (Std.ExtTreeMap.ofList l compare)[k]? = none := by
      rw [Option.eq_none_iff_forall_ne_some]
      intro old hold
      exact hnew k (List.mem_map_of_mem (mem_of_getElem?_ofList hold)) k
        (List.mem_singleton_self _) rfl
    have hinsert := total_insert (Std.ExtTreeMap.ofList l compare) f k v
    rw [hnone, Option.elim_none, add_zero, ih hl] at hinsert
    rw [ofList_concat, hinsert, List.map_append, List.map_singleton, List.sum_append,
      List.sum_singleton]

end Gather

end OrdMap
