import Distlib.Lib.OrdMap

/-!
# A log kept as rows

A log is written at its end, cut off at its end when what stands there turns out not to be
wanted, and purged from its beginning when nobody needs what stands there. What is left of
it is a window: entries at consecutive indices from some `first` on. `Window` has them by
position, so that a window with a hole in it cannot be written down.

A database has rows under keys, and knows nothing of holes. `Represents` is what rows have
to do with a window, and each of the three changes is a change of the rows that keeps it:
rows put in past the end (`Represents.append`), rows taken out from an index on
(`Represents.truncate`), and rows taken out up to an index (`Represents.purge`). What is read
from the rows, in the order of their keys, is then what the window holds (`toList_eq`).
-/

universe u v

/-- What is left of a log: the entries at `first` and at every index after it. -/
structure Window (E : Type u) where
  first : ℕ
  entries : List E

namespace Window

variable {E : Type u} {F : Type v}

/-- The index the next entry gets. -/
def next (w : Window E) : ℕ := w.first + w.entries.length

def get? (w : Window E) (i : ℕ) : Option E :=
  if w.first ≤ i then w.entries[i - w.first]? else none

def append (w : Window E) (entries : List E) : Window E :=
  { w with entries := w.entries ++ entries }

/-- Without the entries at `i` and after it. -/
def truncate (w : Window E) (i : ℕ) : Window E :=
  { w with entries := w.entries.take (i - w.first) }

/-- Without the entries at `i` and before it. -/
def purge (w : Window E) (i : ℕ) : Window E :=
  ⟨max w.first (i + 1), w.entries.drop (i + 1 - w.first)⟩

def map (f : E → F) (w : Window E) : Window F := ⟨w.first, w.entries.map f⟩

/-- The entries, each at its index. -/
def indexed (w : Window E) : List (ℕ × E) :=
  (List.range' w.first w.entries.length).zip w.entries

/-- From its first index on a window is the list of its entries. -/
theorem get?_of_le {w : Window E} {i : ℕ} (h : w.first ≤ i) :
    w.get? i = w.entries[i - w.first]? := if_pos h

/-- Before its first index a window has nothing. -/
theorem get?_of_lt {w : Window E} {i : ℕ} (h : i < w.first) : w.get? i = none :=
  if_neg (not_le.mpr h)

/-- And nothing past its last. -/
theorem get?_eq_none {w : Window E} {i : ℕ} (h : w.next ≤ i) : w.get? i = none := by
  rw [next] at h
  rw [get?_of_le (by omega), List.getElem?_eq_none (by omega)]

/-- Entries are appended behind the last one, and the others stay where they are. -/
@[simp] theorem get?_append (w : Window E) (entries : List E) (i : ℕ) :
    (w.append entries).get? i = if w.next ≤ i then entries[i - w.next]? else w.get? i := by
  rcases lt_or_ge i w.first with hlt | hge
  · have hnext : ¬ w.next ≤ i := by
      rw [next]
      omega
    rw [if_neg hnext, get?_of_lt hlt]
    exact get?_of_lt hlt
  · rw [get?_of_le (w := w) hge]
    refine (get?_of_le (w := w.append entries) hge).trans ?_
    simp only [append]
    by_cases hnext : w.next ≤ i
    · rw [if_pos hnext]
      rw [next] at hnext ⊢
      rw [List.getElem?_append_right (by omega), Nat.sub_sub]
    · rw [if_neg hnext]
      rw [next] at hnext
      exact List.getElem?_append_left (by omega)

/-- Truncating takes away what is at an index or behind it. -/
@[simp] theorem get?_truncate (w : Window E) (n i : ℕ) :
    (w.truncate n).get? i = if i < n then w.get? i else none := by
  rcases lt_or_ge i w.first with hlt | hge
  · rw [get?_of_lt hlt, ite_self]
    exact get?_of_lt hlt
  · rw [get?_of_le (w := w) hge]
    refine (get?_of_le (w := w.truncate n) hge).trans ?_
    simp only [truncate, List.getElem?_take]
    exact if_congr (by omega) rfl rfl

/-- Purging takes away what is at an index or before it. -/
@[simp] theorem get?_purge (w : Window E) (n i : ℕ) :
    (w.purge n).get? i = if n < i then w.get? i else none := by
  rcases lt_or_ge i (w.purge n).first with hlt | hge
  · rw [get?_of_lt hlt]
    split
    · refine (get?_of_lt ?_).symm
      simp only [purge] at hlt
      omega
    · rfl
  · have hfirst : w.first ≤ i ∧ n < i := by
      simp only [purge] at hge
      omega
    rw [get?_of_le hge, if_pos hfirst.2, get?_of_le hfirst.1]
    simp only [purge, List.getElem?_drop]
    congr 1
    omega

/-- Entries that are read otherwise are where they were. -/
@[simp] theorem get?_map (f : E → F) (w : Window E) (i : ℕ) :
    (w.map f).get? i = (w.get? i).map f := by
  rcases lt_or_ge i w.first with hlt | hge
  · rw [get?_of_lt hlt]
    exact get?_of_lt hlt
  · rw [get?_of_le hge]
    exact (get?_of_le (w := w.map f) hge).trans (List.getElem?_map ..)

/-- What is read of an entry is read of each, so reading goes through all that is done to a
window. -/
theorem map_append (f : E → F) (w : Window E) (entries : List E) :
    (w.append entries).map f = (w.map f).append (entries.map f) := by
  simp [map, append]

theorem map_truncate (f : E → F) (w : Window E) (i : ℕ) :
    (w.truncate i).map f = (w.map f).truncate i := by
  simp [map, truncate]

theorem map_purge (f : E → F) (w : Window E) (i : ℕ) :
    (w.purge i).map f = (w.map f).purge i := by
  simp [map, purge]

@[simp] theorem next_map (f : E → F) (w : Window E) : (w.map f).next = w.next := by
  simp [map, next]

/-- A window's entries with their indexes are what it has. -/
theorem mem_indexed {w : Window E} {i : ℕ} {e : E} :
    (i, e) ∈ w.indexed ↔ w.get? i = some e := by
  rw [indexed, List.mem_iff_getElem?]
  simp only [List.getElem?_zip_eq_some]
  constructor
  · rintro ⟨n, hindex, hentry⟩
    obtain ⟨hlt, rfl⟩ := List.getElem?_eq_some_iff.mp hindex
    rw [List.getElem_range', one_mul, get?_of_le (Nat.le_add_right ..), Nat.add_sub_cancel_left]
    exact hentry
  · intro h
    rcases lt_or_ge i w.first with hlt | hge
    · rw [get?_of_lt hlt] at h
      cases h
    · rw [get?_of_le hge] at h
      have hlt := (List.getElem?_eq_some_iff.mp h).1
      refine ⟨i - w.first, ?_, h⟩
      rw [List.getElem?_range' hlt]
      congr 1
      omega

theorem mem_entries {w : Window E} {entry : ℕ × E} (h : entry ∈ w.indexed) :
    entry.2 ∈ w.entries := (List.of_mem_zip h).2

theorem fst_indexed (w : Window E) :
    w.indexed.map Prod.fst = List.range' w.first w.entries.length :=
  List.map_fst_zip (by rw [List.length_range'])

/-- Their indexes ascend. -/
theorem ascending_indexed (w : Window E) : w.indexed.Pairwise fun a b => a.1 < b.1 := by
  refine List.pairwise_map.mp (?_ : (w.indexed.map Prod.fst).Pairwise (· < ·))
  rw [fst_indexed]
  exact List.pairwise_lt_range'

/-- Entries that know their own index, and stand at it. -/
theorem indexed_eq_map {w : Window E} {index : E → ℕ}
    (hplaced : w.entries.map index = List.range' w.first w.entries.length) :
    w.indexed = w.entries.map fun e => (index e, e) := by
  rw [indexed, ← hplaced, List.zip_map_left, List.zip_eq_zipWith, List.zipWith_self, List.map_map]
  rfl

/-- A range within the window is taken whole. -/
theorem filter_range' {first count lo hi : ℕ} (hlo : first ≤ lo) (hhi : hi < first + count) :
    (List.range' first count).filter (fun i => lo ≤ i && i ≤ hi) =
      List.range' lo (hi + 1 - lo) := by
  have hleft : ((List.range' first count).filter fun i => lo ≤ i && i ≤ hi).Pairwise (· < ·) :=
    List.Pairwise.filter _ List.pairwise_lt_range'
  have hright : (List.range' lo (hi + 1 - lo)).Pairwise (· < ·) := List.pairwise_lt_range'
  have hperm : ((List.range' first count).filter fun i => lo ≤ i && i ≤ hi).Perm
      (List.range' lo (hi + 1 - lo)) := by
    refine (List.perm_ext_iff_of_nodup (hleft.imp ne_of_lt) (hright.imp ne_of_lt)).mpr ?_
    intro i
    simp only [List.mem_filter, List.mem_range'_1, Bool.and_eq_true, decide_eq_true_eq]
    omega
  exact hperm.eq_of_pairwise (fun _ _ _ _ hlt hgt => absurd hgt (lt_asymm hlt)) hleft hright

/-- An entry that is read otherwise keeps its index. -/
theorem indexed_map (f : E → F) (w : Window E) :
    (w.map f).indexed = w.indexed.map fun entry => (entry.1, f entry.2) := by
  rw [indexed, indexed, map, List.length_map, List.zip_map_right]
  rfl

/-! ## Rows -/

/-- The rows are the entries, each under its index, and no others. -/
def Represents (rows : OrdMap ℕ E) (w : Window E) : Prop := ∀ i, rows[i]? = w.get? i

variable {rows : OrdMap ℕ E} {w : Window E}

/-- No rows are an empty window, wherever it begins. -/
theorem represents_nil (first : ℕ) : Represents (∅ : OrdMap ℕ E) ⟨first, []⟩ := by
  intro i
  rw [Std.ExtTreeMap.getElem?_empty, get?]
  simp

/-- Rows put in under the indices that come next. -/
theorem Represents.append (h : Represents rows w) (added : List (ℕ × E))
    (hnext : added.map Prod.fst = List.range' w.next added.length) :
    Represents (rows.insertMany added) (w.append (added.map Prod.snd)) := by
  intro i
  rw [get?_append]
  by_cases hin : w.next ≤ i ∧ i - w.next < added.length
  · -- one of those put in: they are under different keys, so none is written over
    obtain ⟨hle, hlt⟩ := hin
    have hdistinct : added.Pairwise fun a b => ¬ compare a.1 b.1 = .eq := by
      have hkeys : (added.map Prod.fst).Pairwise (· < ·) := by
        rw [hnext]
        exact List.pairwise_lt_range'
      exact (List.pairwise_map.mp hkeys).imp fun hab heq =>
        absurd (Nat.compare_eq_eq.mp heq) hab.ne
    have hkey : added[i - w.next].1 = i := by
      have hget : (added.map Prod.fst)[i - w.next]? =
          (List.range' w.next added.length)[i - w.next]? := congrArg (·[i - w.next]?) hnext
      rw [List.getElem?_map, List.getElem?_eq_getElem hlt, List.getElem?_range' hlt] at hget
      have := Option.some.inj hget
      omega
    rw [if_pos hle, List.getElem?_map, List.getElem?_eq_getElem hlt]
    exact Std.ExtTreeMap.getElem?_insertMany_list_of_mem (Nat.compare_eq_eq.mpr hkey) hdistinct
      (List.getElem_mem hlt)
  · have hnot : (added.map Prod.fst).contains i = false := by
      rw [hnext, ← Bool.not_eq_true, List.contains_iff_mem, List.mem_range'_1]
      omega
    rw [Std.ExtTreeMap.getElem?_insertMany_list_of_contains_eq_false hnot, h i]
    split
    · rename_i hle
      rw [get?_eq_none hle, List.getElem?_eq_none (by rw [List.length_map]; omega)]
    · rfl

/-- The rows that are kept by their index are the window's entries there. -/
theorem Represents.filter (h : Represents rows w) {keep : ℕ → Prop} [DecidablePred keep] (i : ℕ) :
    (rows.filter fun i _ => keep i)[i]? = if keep i then w.get? i else none := by
  rw [Std.ExtTreeMap.getElem?_filter', h i]
  by_cases hkeep : keep i <;> cases w.get? i <;> simp [hkeep]

/-- Rows taken out from an index on. -/
theorem Represents.truncate (h : Represents rows w) (n : ℕ) :
    Represents (rows.filter fun i _ => i < n) (w.truncate n) := by
  intro i
  rw [get?_truncate, h.filter]

/-- Rows taken out up to an index. -/
theorem Represents.purge (h : Represents rows w) (n : ℕ) :
    Represents (rows.filter fun i _ => n < i) (w.purge n) := by
  intro i
  rw [get?_purge, h.filter]

/-- What is read from the rows, in the order of their keys. -/
theorem Represents.toList_eq (h : Represents rows w) : rows.toList = w.indexed := by
  have hrows : rows.toList.Pairwise fun a b => a.1 < b.1 :=
    (Std.ExtTreeMap.ordered_keys_toList (t := rows)).imp fun hlt => Nat.compare_eq_lt.mp hlt
  have hnodup : ∀ l : List (ℕ × E), (l.Pairwise fun a b => a.1 < b.1) → l.Nodup := by
    intro l hl
    refine hl.imp ?_
    rintro a b hlt rfl
    exact lt_irrefl _ hlt
  have hperm : rows.toList.Perm w.indexed := by
    refine (List.perm_ext_iff_of_nodup (hnodup _ hrows) (hnodup _ w.ascending_indexed)).mpr ?_
    rintro ⟨i, e⟩
    rw [Std.ExtTreeMap.mem_toList_iff_getElem?_eq_some, h i, mem_indexed]
  exact hperm.eq_of_pairwise (fun _ _ _ _ hlt hgt => absurd hgt (lt_asymm hlt)) hrows
    w.ascending_indexed

end Window
