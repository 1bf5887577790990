import Mathlib

/-!
# The highest of a ranking

Keeping the `k` highest of a finite set is a matter of counting: `x` is kept
exactly when fewer than `k` others rank above it. Every way of computing the
kept ones (sorting and cutting, selecting and then sorting, counting rivals) is
judged against that count, and so is every question of what happens to the kept
ones when the set or the number changes.

* `above xs x` counts; `top k xs` keeps.
* `descending` is the sorted list, and `getElem?_descending` says that the
  position in it is the count.
* `Selection` is the contract of a selection algorithm that moves the `k`
  highest to the front in no particular order.
* `exists_displaced` and its companions say what one newcomer, or one slot
  fewer, can do.
* `top_insert_top` says that whoever keeps the highest only has them right.
* `sortByKey` sorts by a key that may not come, and `pairwise_insertionSort_stable` says what
  becomes of those that stand level.
-/

namespace Ranking

universe u v

variable {R : Type u} [LinearOrder R]

/-! ## Counting -/

/-- How many of `xs` rank above `x`. -/
def above (xs : Finset R) (x : R) : ℕ := (xs.filter (x < ·)).card

/-- The `k` highest of `xs`. -/
def top (k : ℕ) (xs : Finset R) : Finset R := xs.filter (above xs · < k)

theorem mem_top {k : ℕ} {xs : Finset R} {x : R} : x ∈ top k xs ↔ x ∈ xs ∧ above xs x < k :=
  Finset.mem_filter

/-- Fewer rivals, fewer above. -/
theorem above_le_above {xs ys : Finset R} {x y : R}
    (h : ∀ z ∈ ys, y < z → z ∈ xs ∧ x < z) : above ys y ≤ above xs x := by
  refine Finset.card_le_card fun z hz => ?_
  obtain ⟨hmem, hlt⟩ := Finset.mem_filter.mp hz
  exact Finset.mem_filter.mpr (h z hmem hlt)

/-- Ranking lower, at least one more is above. -/
theorem above_lt_above {xs : Finset R} {x y : R} (hy : y ∈ xs) (h : x < y) :
    above xs y < above xs x := by
  refine Finset.card_lt_card (Finset.ssubset_iff_of_subset ?_ |>.mpr ⟨y, ?_, ?_⟩)
  · intro z hz
    obtain ⟨hmem, hlt⟩ := Finset.mem_filter.mp hz
    exact Finset.mem_filter.mpr ⟨hmem, h.trans hlt⟩
  · exact Finset.mem_filter.mpr ⟨hy, h⟩
  · simp

/-- One newcomer puts at most one more above. -/
theorem above_le_succ {xs ys : Finset R} {m x : R} (h : ys ⊆ insert m xs) :
    above ys x ≤ above xs x + 1 := by
  have hsub : ys.filter (x < ·) ⊆ insert m (xs.filter (x < ·)) := by
    intro z hz
    obtain ⟨hmem, hlt⟩ := Finset.mem_filter.mp hz
    rcases Finset.mem_insert.mp (h hmem) with rfl | hxs
    · exact Finset.mem_insert_self _ _
    · exact Finset.mem_insert_of_mem (Finset.mem_filter.mpr ⟨hxs, hlt⟩)
  exact (Finset.card_le_card hsub).trans (Finset.card_insert_le _ _)

/-- Counting in a list of distinct values is counting in the set of them. -/
theorem length_filter_lt {xs : List R} (h : xs.Nodup) (x : R) :
    (xs.filter (x < ·)).length = above xs.toFinset x := by
  have hset : (xs.filter (x < ·)).toFinset = xs.toFinset.filter (x < ·) := by
    ext y
    simp
  rw [above, ← hset, List.toFinset_card_of_nodup (h.filter _)]

/-! ## What a change displaces -/

/-- Among fewer, with as many kept, whoever was kept still is. -/
theorem top_of_subset {k k' : ℕ} {xs ys : Finset R} {x : R} (hsub : ys ⊆ xs) (hk : k ≤ k')
    (hx : x ∈ top k xs) (hy : x ∈ ys) : x ∈ top k' ys := by
  obtain ⟨-, hlt⟩ := mem_top.mp hx
  have hle : above ys x ≤ above xs x := above_le_above fun z hz hz' => ⟨hsub hz, hz'⟩
  exact mem_top.mpr ⟨hy, by omega⟩

/-- Among the same or fewer, one slot fewer displaces only the last. -/
theorem last_of_fewer_slots {k k' : ℕ} {xs ys : Finset R} {x : R} (hsub : ys ⊆ xs)
    (hk : k ≤ k' + 1) (hx : x ∈ top k xs) (hy : x ∈ ys) (hlost : x ∉ top k' ys) :
    above xs x + 1 = k := by
  obtain ⟨-, hlt⟩ := mem_top.mp hx
  have hle : above ys x ≤ above xs x := above_le_above fun z hz hz' => ⟨hsub hz, hz'⟩
  have hnot : ¬above ys x < k' := fun h => hlost (mem_top.mpr ⟨hy, h⟩)
  omega

/-- One newcomer `m` displaces only the last, and only by being kept itself. -/
theorem exists_displaced {k : ℕ} {xs ys : Finset R} {m x : R} (hsub : ys ⊆ insert m xs)
    (hx : x ∈ top k xs) (hy : x ∈ ys) (hlost : x ∉ top k ys) :
    above xs x + 1 = k ∧ x < m ∧ m ∈ top k ys := by
  obtain ⟨-, hlt⟩ := mem_top.mp hx
  have hle : above ys x ≤ above xs x + 1 := above_le_succ hsub
  have hnot : ¬above ys x < k := fun h => hlost (mem_top.mpr ⟨hy, h⟩)
  -- somebody above `x` is new, and only `m` can be
  have hnew : m ∈ ys ∧ x < m := by
    by_contra hm
    have hfewer : above ys x ≤ above xs x := by
      refine above_le_above fun z hz hz' => ?_
      rcases Finset.mem_insert.mp (hsub hz) with rfl | hxs
      · exact absurd ⟨hz, hz'⟩ hm
      · exact ⟨hxs, hz'⟩
    omega
  have habove := above_lt_above hnew.1 hnew.2
  exact ⟨by omega, hnew.2, mem_top.mpr ⟨hnew.1, by omega⟩⟩

/-- Raising `m` to `m'` puts nobody new above those `m` was above already. -/
theorem above_le_of_raised {xs ys : Finset R} {m m' x : R} (hsub : ys ⊆ insert m' (xs.erase m))
    (hm : m ∈ xs) (hx : x < m) : above ys x ≤ above xs x := by
  have hfilter : ys.filter (x < ·) ⊆ insert m' ((xs.filter (x < ·)).erase m) := by
    intro z hz
    obtain ⟨hmem, hlt⟩ := Finset.mem_filter.mp hz
    rcases Finset.mem_insert.mp (hsub hmem) with rfl | hold
    · exact Finset.mem_insert_self _ _
    · obtain ⟨hne, hxs⟩ := Finset.mem_erase.mp hold
      exact Finset.mem_insert_of_mem
        (Finset.mem_erase.mpr ⟨hne, Finset.mem_filter.mpr ⟨hxs, hlt⟩⟩)
  have hcard := (Finset.card_le_card hfilter).trans (Finset.card_insert_le _ _)
  rwa [Finset.card_erase_add_one (Finset.mem_filter.mpr ⟨hm, hx⟩)] at hcard

/-- Whoever raising `m` displaces, `m` was not kept before. -/
theorem not_mem_top_of_raised {k : ℕ} {xs ys : Finset R} {m m' x : R}
    (hsub : ys ⊆ insert m' (xs.erase m)) (hx : x ∈ top k xs) (hy : x ∈ ys) (hne : x ≠ m)
    (hlost : x ∉ top k ys) : m ∉ top k xs := by
  intro hkept
  obtain ⟨hxs, hlt⟩ := mem_top.mp hx
  obtain ⟨hm, hmlt⟩ := mem_top.mp hkept
  rcases lt_or_gt_of_ne hne with hbelow | habove
  · have hle := above_le_of_raised hsub hm hbelow
    exact hlost (mem_top.mpr ⟨hy, by omega⟩)
  · -- `x` is last, so there is no room for anybody below it
    have hins : ys ⊆ insert m' xs :=
      hsub.trans (Finset.insert_subset_insert _ (Finset.erase_subset _ _))
    have hlast := (exists_displaced hins hx hy hlost).1
    have hmore := above_lt_above hxs habove
    omega

/-! ## Sorting -/

/-- `xs`, highest first. -/
def descending (xs : List R) : List R := xs.insertionSort (· ≥ ·)

theorem descending_perm (xs : List R) : (descending xs).Perm xs := List.perm_insertionSort _ _

theorem mem_descending {xs : List R} {x : R} : x ∈ descending xs ↔ x ∈ xs :=
  (descending_perm xs).mem_iff

theorem descending_sorted (xs : List R) : (descending xs).Pairwise (· ≥ ·) :=
  List.pairwise_insertionSort _ _

/-- Nothing else is `xs` highest first. -/
theorem eq_descending {xs l : List R} (hperm : l.Perm xs) (hsorted : l.Pairwise (· ≥ ·)) :
    l = descending xs :=
  (hperm.trans (descending_perm xs).symm).eq_of_pairwise' hsorted (descending_sorted xs)

/-- Distinct values are sorted strictly. -/
theorem descending_strict {xs : List R} (h : xs.Nodup) : (descending xs).Pairwise (· > ·) := by
  have hnodup : (descending xs).Pairwise (· ≠ ·) := (descending_perm xs).nodup_iff.mpr h
  refine ((descending_sorted xs).and hnodup).imp ?_
  rintro a b ⟨hge, hne⟩
  exact lt_of_le_of_ne hge hne.symm

/-- In a strictly sorted list, a value's position is the number of values
above it. -/
theorem getElem?_of_sorted {l : List R} (h : l.Pairwise (· > ·)) {i : ℕ} {x : R} :
    l[i]? = some x ↔ x ∈ l ∧ above l.toFinset x = i := by
  induction l generalizing i with
  | nil => simp
  | cons a l ih =>
    obtain ⟨hhead, htail⟩ := List.pairwise_cons.mp h
    have hnot : a ∉ l := fun hmem => lt_irrefl a (hhead a hmem)
    have habove : ∀ {y}, y < a → above (a :: l).toFinset y = above l.toFinset y + 1 := by
      intro y hlt
      have hfilter : (a :: l).toFinset.filter (y < ·) = insert a (l.toFinset.filter (y < ·)) := by
        rw [List.toFinset_cons, Finset.filter_insert, if_pos hlt]
      rw [above, hfilter, Finset.card_insert_of_notMem (by simp [hnot])]
      rfl
    have hfirst : above (a :: l).toFinset a = 0 := by
      refine Finset.card_eq_zero.mpr (Finset.filter_eq_empty_iff.mpr ?_)
      intro z hz
      rcases List.mem_cons.mp (List.mem_toFinset.mp hz) with rfl | hmem
      · exact lt_irrefl z
      · exact not_lt.mpr (hhead z hmem).le
    by_cases hxa : x = a
    · subst hxa
      rw [hfirst]
      rcases i with _ | i
      · simp
      · simp only [List.getElem?_cons_succ, List.mem_cons, true_or, true_and]
        refine ⟨fun hget => absurd (List.mem_of_getElem? hget) hnot, fun h0 => ?_⟩
        omega
    · rcases i with _ | i
      · simp only [List.getElem?_cons_zero, Option.some.injEq, List.mem_cons, hxa, false_or]
        refine ⟨fun heq => absurd heq.symm hxa, ?_⟩
        rintro ⟨hmem, hzero⟩
        rw [habove (hhead x hmem)] at hzero
        omega
      · rw [List.getElem?_cons_succ, ih htail, List.mem_cons]
        constructor
        · rintro ⟨hmem, hi⟩
          exact ⟨Or.inr hmem, by rw [habove (hhead x hmem), hi]⟩
        · rintro ⟨hmem, hi⟩
          have hmem' := hmem.resolve_left hxa
          rw [habove (hhead x hmem')] at hi
          exact ⟨hmem', by omega⟩

theorem getElem?_descending {xs : List R} (h : xs.Nodup) {i : ℕ} {x : R} :
    (descending xs)[i]? = some x ↔ x ∈ xs ∧ above xs.toFinset x = i := by
  rw [getElem?_of_sorted (descending_strict h), mem_descending,
    List.toFinset_eq_of_perm _ _ (descending_perm xs)]

/-- Cutting the sorted list keeps the highest. -/
theorem mem_take_descending {xs : List R} (h : xs.Nodup) {k : ℕ} {x : R} :
    x ∈ (descending xs).take k ↔ x ∈ top k xs.toFinset := by
  rw [mem_top, List.mem_toFinset, List.mem_iff_getElem?]
  constructor
  · rintro ⟨i, hget⟩
    rw [List.getElem?_take] at hget
    split at hget
    · rename_i hlt
      obtain ⟨hmem, hi⟩ := (getElem?_descending h).mp hget
      exact ⟨hmem, by omega⟩
    · cases hget
  · rintro ⟨hmem, hlt⟩
    refine ⟨above xs.toFinset x, ?_⟩
    rw [List.getElem?_take, if_pos hlt]
    exact (getElem?_descending h).mpr ⟨hmem, rfl⟩

/-- What is left after the cut. -/
theorem mem_drop_descending {xs : List R} (h : xs.Nodup) {k : ℕ} {x : R} :
    x ∈ (descending xs).drop k ↔ x ∈ xs ∧ x ∉ top k xs.toFinset := by
  rw [mem_top, List.mem_toFinset, List.mem_iff_getElem?]
  constructor
  · rintro ⟨i, hget⟩
    rw [List.getElem?_drop] at hget
    obtain ⟨hmem, hi⟩ := (getElem?_descending h).mp hget
    refine ⟨hmem, fun hkept => ?_⟩
    omega
  · rintro ⟨hmem, hnot⟩
    have hle : k ≤ above xs.toFinset x := not_lt.mp fun hlt => hnot ⟨hmem, hlt⟩
    refine ⟨above xs.toFinset x - k, ?_⟩
    rw [List.getElem?_drop, Nat.add_sub_cancel' hle]
    exact (getElem?_descending h).mpr ⟨hmem, rfl⟩

/-- Listed lowest first, those beyond the `k` highest come first. -/
theorem mem_take_ascending {l : List R} (h : l.Pairwise (· < ·)) {k : ℕ} {x : R} :
    x ∈ l.take (l.length - k) ↔ x ∈ l ∧ x ∉ top k l.toFinset := by
  have hsorted : l.reverse = descending l :=
    eq_descending (List.reverse_perm l) (List.pairwise_reverse.mpr (h.imp fun hlt => hlt.le))
  rw [← mem_drop_descending (h.imp fun hlt => hlt.ne), ← hsorted, List.drop_reverse,
    List.mem_reverse]

/-- The one with all but one of the slots above it is the last that is kept. -/
theorem getLast?_take_descending {xs : List R} (h : xs.Nodup) {k : ℕ} {x : R} (hx : x ∈ xs)
    (hk : above xs.toFinset x + 1 = k) : ((descending xs).take k).getLast? = some x := by
  have hget := (getElem?_descending h).mpr ⟨hx, rfl⟩
  subst hk
  rw [List.getLast?_take, if_neg (Nat.succ_ne_zero _), Nat.add_sub_cancel, hget]
  rfl

/-- The first of a strictly sorted list that is admitted is the highest
admitted. -/
theorem find?_of_sorted {l : List R} (h : l.Pairwise (· > ·)) {p : R → Bool} {x : R} :
    l.find? p = some x ↔ x ∈ l ∧ p x = true ∧ ∀ y ∈ l, p y = true → y ≤ x := by
  induction l with
  | nil => simp
  | cons a l ih =>
    obtain ⟨hhead, htail⟩ := List.pairwise_cons.mp h
    rcases hp : p a with _ | _
    · rw [List.find?_cons_of_neg (by simp [hp]), ih htail]
      constructor
      · rintro ⟨hmem, hx, hmax⟩
        refine ⟨List.mem_cons_of_mem _ hmem, hx, fun y hy hpy => ?_⟩
        rcases List.mem_cons.mp hy with rfl | hy
        · rw [hp] at hpy
          cases hpy
        · exact hmax y hy hpy
      · rintro ⟨hmem, hx, hmax⟩
        rcases List.mem_cons.mp hmem with rfl | hmem
        · rw [hp] at hx
          cases hx
        · exact ⟨hmem, hx, fun y hy hpy => hmax y (List.mem_cons_of_mem _ hy) hpy⟩
    · rw [List.find?_cons_of_pos hp]
      constructor
      · intro heq
        obtain rfl := Option.some.inj heq
        refine ⟨List.mem_cons_self, hp, fun y hy _ => ?_⟩
        rcases List.mem_cons.mp hy with rfl | hy
        · exact le_rfl
        · exact (hhead y hy).le
      · rintro ⟨hmem, hx, hmax⟩
        rcases List.mem_cons.mp hmem with rfl | hmem
        · rfl
        · exact absurd (hhead x hmem) (not_lt.mpr (hmax a List.mem_cons_self hp))

/-! ## Keeping no more than the highest -/

/-- As many are kept as there are, and `k` at most. -/
theorem card_top (k : ℕ) (xs : Finset R) : (top k xs).card = min k xs.card := by
  have hlist := fun x => @mem_take_descending R _ xs.toList xs.nodup_toList k x
  have hset : ((descending xs.toList).take k).toFinset = top k xs := by
    ext x
    rw [List.mem_toFinset, hlist, Finset.toList_toFinset]
  have hnodup : ((descending xs.toList).take k).Nodup :=
    ((descending_perm _).nodup_iff.mpr xs.nodup_toList).take
  rw [← hset, List.toFinset_card_of_nodup hnodup, List.length_take,
    (descending_perm _).length_eq, Finset.length_toList]

/-- Of the kept ones as many rank above anybody as of all, and `k` at most. -/
theorem above_top (k : ℕ) (xs : Finset R) (x : R) : above (top k xs) x = min k (above xs x) := by
  have hhigher : (top k xs).filter (x < ·) = top k (xs.filter (x < ·)) := by
    ext z
    rw [Finset.mem_filter, mem_top, mem_top, Finset.mem_filter]
    refine ⟨fun ⟨⟨hmem, hlt⟩, hz⟩ => ⟨⟨hmem, hz⟩, ?_⟩, fun ⟨⟨hmem, hz⟩, hlt⟩ => ⟨⟨hmem, ?_⟩, hz⟩⟩
    · exact lt_of_le_of_lt (above_le_above fun y hy hzy => ⟨(Finset.mem_filter.mp hy).1, hzy⟩) hlt
    · exact lt_of_le_of_lt (above_le_above fun y hy hzy =>
        ⟨Finset.mem_filter.mpr ⟨hy, hz.trans hzy⟩, hzy⟩) hlt
  rw [above, hhigher, card_top]
  rfl

theorem above_insert {xs : Finset R} {m : R} (hnew : m ∉ xs) (x : R) :
    above (insert m xs) x = above xs x + if x < m then 1 else 0 := by
  rw [above, Finset.filter_insert]
  split
  · rw [Finset.card_insert_of_notMem fun hmem => hnew (Finset.mem_filter.mp hmem).1]
    rfl
  · rfl

/-- **Keeping the highest needs no memory of the rest**: with one newcomer, the highest of
those kept so far are the highest of all. -/
theorem top_insert_top {k : ℕ} {xs : Finset R} {m : R} (hnew : m ∉ xs) :
    top k (insert m (top k xs)) = top k (insert m xs) := by
  have hkept : m ∉ top k xs := fun hmem => hnew (mem_top.mp hmem).1
  ext x
  rw [mem_top, mem_top, above_insert hkept, above_insert hnew, above_top, Finset.mem_insert,
    Finset.mem_insert, mem_top]
  constructor
  · rintro ⟨hmem, hlt⟩
    exact ⟨hmem.imp_right And.left, by omega⟩
  · rintro ⟨hmem, hlt⟩
    exact ⟨hmem.imp_right fun hxs => ⟨hxs, by omega⟩, by omega⟩

/-! ## Selecting -/

/-- A selection algorithm: it reorders a list longer than `k` so that the `k`
highest come first. Nothing is promised about the order on either side. -/
structure Selection (R : Type u) [LinearOrder R] where
  /-- the reordered list -/
  select : ℕ → List R → List R
  perm : ∀ k xs, (select k xs).Perm xs
  split : ∀ k xs, k < xs.length → ∀ a ∈ (select k xs).take k, ∀ b ∈ (select k xs).drop k, b ≤ a

/-- Sorting the selected front gives the front of the sorted list. -/
theorem Selection.descending_take (sel : Selection R) {k : ℕ} {xs : List R} (hk : k < xs.length) :
    descending ((sel.select k xs).take k) = (descending xs).take k := by
  have hwhole : descending ((sel.select k xs).take k) ++ descending ((sel.select k xs).drop k) =
      descending xs := by
    refine eq_descending ?_ (List.pairwise_append.mpr
      ⟨descending_sorted _, descending_sorted _, fun a ha b hb => ?_⟩)
    · have hparts := (descending_perm ((sel.select k xs).take k)).append
        (descending_perm ((sel.select k xs).drop k))
      rw [List.take_append_drop] at hparts
      exact hparts.trans (sel.perm k xs)
    · exact sel.split k xs hk a (mem_descending.mp ha) b (mem_descending.mp hb)
  have hlength : (descending ((sel.select k xs).take k)).length = k := by
    rw [(descending_perm _).length_eq, List.length_take, (sel.perm k xs).length_eq]
    omega
  rw [← hwhole, List.take_append_of_le_length hlength.ge, List.take_of_length_le hlength.le]

/-- Sorting is a selection. -/
def Selection.sorting : Selection R where
  select _ xs := descending xs
  perm _ xs := descending_perm xs
  split k xs _ a ha b hb := by
    have hsorted := descending_sorted xs
    rw [← List.take_append_drop k (descending xs)] at hsorted
    exact (List.pairwise_append.mp hsorted).2.2 a ha b hb

/-! ## A set in order -/

section Place

variable {α : Type u} (place : α → ℕ) (hplace : Function.Injective place)

include hplace in
/-- Sorting forgets the order a list came in. -/
theorem insertionSort_eq_of_perm {xs ys : List α} (h : xs.Perm ys) :
    (xs.insertionSort fun a b => place a ≤ place b) =
      ys.insertionSort fun a b => place a ≤ place b := by
  have total : Std.Total fun a b : α => place a ≤ place b := ⟨fun a b => Nat.le_total _ _⟩
  have trans : IsTrans α fun a b => place a ≤ place b := ⟨fun a b c => Nat.le_trans⟩
  have antisymm : Std.Antisymm fun a b : α => place a ≤ place b :=
    ⟨fun a b hab hba => hplace (Nat.le_antisymm hab hba)⟩
  have hsame : (xs.insertionSort fun a b => place a ≤ place b).Perm
      (ys.insertionSort fun a b => place a ≤ place b) :=
    (List.perm_insertionSort _ xs).trans (h.trans (List.perm_insertionSort _ ys).symm)
  exact hsame.eq_of_pairwise' (List.pairwise_insertionSort _ xs) (List.pairwise_insertionSort _ ys)

/-- The elements of a set, sorted by where each stands. -/
def sortedBy (xs : Finset α) : List α :=
  Quot.liftOn xs.val (·.insertionSort fun a b => place a ≤ place b) fun _ _ h =>
    insertionSort_eq_of_perm place hplace h

end Place

/-! ## Sorting by a key -/

/-- A sort that promises no order among elements that stand level. -/
structure Sorting {α : Type u} (before : α → α → Prop) where
  sort : List α → List α
  perm : ∀ xs, (sort xs).Perm xs
  sorted : ∀ xs, (sort xs).Pairwise before

/-- Insertion sort is one. -/
def Sorting.insertion {α : Type u} (before : α → α → Prop) [DecidableRel before]
    [Std.Total before] [IsTrans α before] : Sorting before where
  sort xs := xs.insertionSort before
  perm xs := List.perm_insertionSort before xs
  sorted xs := List.pairwise_insertionSort before xs

section Stable

variable {α : Type u} {before came : α → α → Prop} [DecidableRel before] [Std.Total before]
  [IsTrans α before]

/-- One element more, which came before the others: it goes before those it stands level with. -/
theorem pairwise_orderedInsert_stable (a : α) {xs : List α} (hfirst : ∀ b ∈ xs, came a b)
    (h : xs.Pairwise fun a b => before a b ∧ (before b a → came a b)) :
    (xs.orderedInsert before a).Pairwise fun a b => before a b ∧ (before b a → came a b) := by
  induction xs with
  | nil => exact List.pairwise_singleton _ _
  | cons b rest ih =>
    obtain ⟨hb, hrest⟩ := List.pairwise_cons.mp h
    by_cases hab : before a b
    · rw [List.orderedInsert_cons_of_le before rest hab]
      refine List.pairwise_cons.mpr ⟨fun c hc => ⟨?_, fun _ => hfirst c hc⟩, h⟩
      rcases List.mem_cons.mp hc with rfl | hc
      · exact hab
      · exact IsTrans.trans a b c hab (hb c hc).1
    · rw [List.orderedInsert_of_not_le before rest hab]
      refine List.pairwise_cons.mpr ⟨fun c hc => ?_,
        ih (fun c hc => hfirst c (List.mem_cons_of_mem b hc)) hrest⟩
      rcases (List.mem_orderedInsert before).mp hc with rfl | hc
      · exact ⟨(Std.Total.total c b).resolve_left hab, fun hback => absurd hback hab⟩
      · exact hb c hc

/-- **Insertion sort is stable**: elements that stand level stay in the order they came in. -/
theorem pairwise_insertionSort_stable {xs : List α} (h : xs.Pairwise came) :
    (xs.insertionSort before).Pairwise fun a b => before a b ∧ (before b a → came a b) := by
  induction xs with
  | nil => exact List.Pairwise.nil
  | cons a rest ih =>
    obtain ⟨ha, hrest⟩ := List.pairwise_cons.mp h
    exact pairwise_orderedInsert_stable a
      (fun b hb => ha b ((List.perm_insertionSort before rest).mem_iff.mp hb)) (ih hrest)

end Stable

section SortByKey

variable {α : Type u} {K : Type v} [LinearOrder K]

/-- A stable sort by a key that may not come: the key is worked out when elements are compared,
so a list of one is sorted without. -/
def sortByKey (key : α → Option K) (xs : List α) : Option (List α) :=
  if xs.length < 2 then some xs
  else (xs.mapM fun a => (key a).map fun k => (k, a)).map fun keyed =>
    (keyed.insertionSort fun a b => a.1 ≤ b.1).map Prod.snd

/-- Of two elements, either both have keys or none is sorted. -/
theorem sortByKey_eq_none {key : α → Option K} {xs : List α} (hmany : 2 ≤ xs.length)
    (hnone : ∃ a ∈ xs, key a = none) : sortByKey key xs = none := by
  obtain ⟨a, ha, hkey⟩ := hnone
  have hlost : (xs.mapM fun a => (key a).map fun k => (k, a)) = none := by
    clear hmany
    induction xs with
    | nil => cases ha
    | cons b rest ih =>
      rw [List.mapM_cons]
      rcases List.mem_cons.mp ha with rfl | hrest
      · rw [hkey]
        rfl
      · rw [ih hrest]
        rcases key b with _ | k <;> rfl
  rw [sortByKey, if_neg (by omega), hlost]
  rfl

/-- With a key for every element, the sort is by the keys. -/
theorem sortByKey_eq_some {key : α → Option K} {word : α → K} {xs : List α}
    (hkey : ∀ a ∈ xs, key a = some (word a)) :
    sortByKey key xs = some (xs.insertionSort fun a b => word a ≤ word b) := by
  rw [sortByKey]
  split
  · rename_i hfew
    rcases xs with _ | ⟨a, _ | ⟨b, rest⟩⟩
    · rfl
    · rfl
    · simp at hfew
  · rename_i hmany
    have hkeyed : (xs.mapM fun a => (key a).map fun k => (k, a)) =
        some (xs.map fun a => (word a, a)) := by
      clear hmany
      induction xs with
      | nil => rfl
      | cons b rest ih =>
        rw [List.mapM_cons, hkey b List.mem_cons_self,
          ih fun a ha => hkey a (List.mem_cons_of_mem b ha)]
        rfl
    have hsorted := List.map_insertionSort (fun a b => word a ≤ word b)
      (fun a b : K × α => a.1 ≤ b.1) (fun a => (word a, a)) xs fun _ _ _ _ => Iff.rfl
    rw [hkeyed, Option.map_some, ← hsorted, List.map_map]
    exact congrArg some (List.map_id _)

end SortByKey

end Ranking
