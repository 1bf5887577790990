import Distlib.Custody.Dated
import Distlib.Lib.Double

/-!
# The size of an item, worked out twice

Custody needs of an item its creators and its size. An update reads the whole item and
adds its files up, and the sum saturates. The pass over all of them does not read them:
it has the database add the sizes up, with a function that adds doubles, so that one
absurd size does not make it fail.

A double has 53 bits, and so has what comes out. The two sizes are the same where nothing
is rounded, up to the first sum past what a size can be (`Unrounded`, `sizes_agree_when`).
A file of 2^53 + 1 bytes is enough for a byte to go missing; it can come back only with
another file, whose size or whose sum is rounded the other way.

The tables are rows, and a write of an item replaces the rows of that item, all or
none. A size, a duration or a time has to fit a signed 64-bit number. Which row the
database comes to first is its own affair.
-/

namespace Distlib

open OrdMap GuardedRun Ranking Double

/-- A row of `item_files`. -/
structure FileRow where
  item : ItemId
  blob : ContentHash
  file : FileRecord
  deriving DecidableEq

/-- A row of `file_authors`. -/
structure AuthorRow where
  item : ItemId
  blob : ContentHash
  member : MemberId
  deriving DecidableEq

/-- The read model's rows, as far as items go. -/
structure Database where
  /-- the items, with their ratings and reviews, and without files or their authors -/
  items : OrdMap ItemId StoredItem
  files : List FileRow
  authors : List AuthorRow

/-- The rows in the order a query comes to them. -/
structure Visit where
  rows : List FileRow → List FileRow
  perm : ∀ table, (rows table).Perm table

namespace Database

def empty : Database := ⟨∅, [], []⟩

/-! ## Writing -/

/-- The database's only integer is signed. -/
def fits (n : ℕ) : Bool := n < 2 ^ 63

/-- Every number of an item has room. -/
def allFit (stored : StoredItem) : Bool :=
  fits stored.lastModified && stored.item.files.toList.all fun entry =>
    fits entry.2.size.toNat && entry.2.duration.all fun duration => fits duration.toNat

/-- Deletes the rows of a key, then puts in these. -/
def replace {Row : Type} (key : Row → ItemId) (table : List Row) (id : ItemId) (rows : List Row) :
    List Row :=
  table.filter (key · ≠ id) ++ rows

/-- Writes an item over whatever its rows held before, or nothing. -/
def upsertItem (db : Database) (stored : StoredItem) : Option Database :=
  let id := stored.item.id
  if allFit stored then
    some
      { items := db.items.insert id
          { stored with item := { stored.item with files := ∅ }, fileAuthors := ∅ }
        files := replace FileRow.item db.files id
          (stored.item.files.toList.map fun entry => ⟨id, entry.1, entry.2⟩)
        authors := replace AuthorRow.item db.authors id
          (stored.fileAuthors.toList.flatMap fun entry =>
            (sortedBy MemberId.place MemberId.place_injective entry.2).map fun author =>
              ⟨id, entry.1, author⟩) }
  else none

/-- A write that fails leaves the rows as they were. -/
def write (db : Database) (stored : StoredItem) : Database := (db.upsertItem stored).getD db

/-! ## Reading -/

/-- Every file row, or just one item's, by item. -/
def filesOf (db : Database) (only : Option ItemId) : OrdMap ItemId (OrdMap ContentHash FileRecord) :=
  gather FileRow.item (fun files row => files.insert row.blob row.file) ∅
    (db.files.filter fun row => only.all (row.item = ·))

/-- Every file key's authors, or just one item's, by item, then blob. -/
def fileAuthorsOf (db : Database) (only : Option ItemId) :
    OrdMap ItemId (OrdMap ContentHash (Finset MemberId)) :=
  gather AuthorRow.item
    (fun authors row => authors.insert row.blob (insert row.member ((authors[row.blob]?).getD ∅))) ∅
    (db.authors.filter fun row => only.all (row.item = ·))

/-- One item, if there is one. -/
def item (db : Database) (id : ItemId) : Option StoredItem :=
  (db.items[id]?).map fun stored =>
    { stored with
      item := { stored.item with files := ((db.filesOf (some id))[id]?).getD ∅ }
      fileAuthors := ((db.fileAuthorsOf (some id))[id]?).getD ∅ }

/-- A sum of integers, as doubles: 0 of none. -/
def total (sizes : List ℕ) : ℕ := sumFrom 53 0 sizes

/-- A double as a size. -/
def asU64 (double : ℕ) : ℕ := min double (2 ^ 64 - 1)

/-- The sizes of an item's files, in the order a query comes to them. -/
def sizes (db : Database) (visit : Visit) (id : ItemId) : List ℕ :=
  (visit.rows (db.files.filter (·.item = id))).map (·.file.size.toNat)

def creatorsOf (fileAuthors : OrdMap ContentHash (Finset MemberId)) : List MemberId :=
  sortedBy MemberId.place MemberId.place_injective
    (fileAuthors.toList.foldl (fun all entry => all ∪ entry.2) ∅)

/-- Every item as custody sees it, without reading the rest of each item. -/
def custodyItems (db : Database) (visit : Visit) : List CustodyItem :=
  db.items.keys.map fun id =>
    { item := id
      creators := ((db.fileAuthorsOf none)[id]?).elim [] creatorsOf
      sizeBytes := asU64 (total (db.sizes visit id)) }

/-- The same, of the items read back whole. -/
def custodyItemsRead (db : Database) : List CustodyItem :=
  db.items.keys.filterMap fun id => (db.item id).map StoredItem.custodyItem

/-! ## The rows of an item -/

section Agree

variable {db : Database} {id : ItemId} {stored : StoredItem}

/-- What the rows keep to: an item is under its id, has one row for each blob, and no size
is beyond the database's integers. -/
structure Keyed (db : Database) : Prop where
  ids : ∀ (id : ItemId) (stored : StoredItem), db.items[id]? = some stored → stored.item.id = id
  blobs : ∀ id : ItemId, ((db.files.filter (·.item = id)).map (·.blob)).Nodup
  bounded : ∀ row ∈ db.files, row.file.size.toNat < 2 ^ 63

theorem keyed_empty : Keyed Database.empty where
  ids id stored h := by
    rw [Database.empty, Std.ExtTreeMap.getElem?_empty] at h
    cases h
  blobs _ := List.nodup_nil
  bounded _ h := absurd h List.not_mem_nil

/-- Replacing an item's rows is seen at that item only. -/
theorem filter_replace {Row : Type} (key : Row → ItemId) (table rows : List Row) (id other : ItemId)
    (hrows : ∀ row ∈ rows, key row = id) :
    (replace key table id rows).filter (key · = other) =
      if id = other then rows else table.filter (key · = other) := by
  rw [replace, List.filter_append, List.filter_filter]
  by_cases hid : id = other
  · subst hid
    have hgone : (table.filter fun row => decide (key row = id) && decide (key row ≠ id)) = [] :=
      List.filter_eq_nil_iff.mpr fun row _ h => by simp at h
    have hall : rows.filter (key · = id) = rows :=
      List.filter_eq_self.mpr fun row hrow => decide_eq_true (hrows row hrow)
    rw [hgone, hall, List.nil_append, if_pos rfl]
  · have hnone : rows.filter (key · = other) = [] := by
      refine List.filter_eq_nil_iff.mpr fun row hrow h => hid ?_
      rw [← hrows row hrow]
      exact of_decide_eq_true h
    have hothers : (table.filter fun row => decide (key row = other) && decide (key row ≠ id)) =
        table.filter (key · = other) := by
      refine List.filter_congr fun row _ => ?_
      by_cases hrow : key row = other
      · simp [hrow, Ne.symm hid]
      · simp [hrow]
    rw [hnone, hothers, List.append_nil, if_neg hid]

theorem Keyed.write (h : Keyed db) (stored : StoredItem) : Keyed (db.write stored) := by
  rw [Database.write, upsertItem]
  split
  · rename_i hfit
    refine ⟨fun id found hfound => ?_, fun id => ?_, fun row hrow => ?_⟩
    · rw [Option.getD_some, Std.ExtTreeMap.getElem?_insert] at hfound
      split at hfound
      · rename_i hid
        obtain rfl := Option.some.inj hfound
        exact Std.LawfulEqCmp.compare_eq_iff_eq.mp hid
      · exact h.ids id found hfound
    · rw [Option.getD_some, filter_replace]
      · split
        · rw [List.map_map]
          have hkeys := Std.ExtTreeMap.nodup_keys (t := stored.item.files)
          rw [← Std.ExtTreeMap.map_fst_toList_eq_keys] at hkeys
          exact hkeys
        · exact h.blobs id
      · intro row hrow
        obtain ⟨entry, -, rfl⟩ := List.mem_map.mp hrow
        rfl
    · rw [Option.getD_some, replace] at hrow
      rcases List.mem_append.mp hrow with hold | hnew
      · exact h.bounded row (List.mem_filter.mp hold).1
      · obtain ⟨entry, hentry, rfl⟩ := List.mem_map.mp hnew
        rw [allFit, Bool.and_eq_true, List.all_eq_true] at hfit
        have hsize := (Bool.and_eq_true _ _ ▸ hfit.2 entry hentry).1
        exact of_decide_eq_true hsize
  · exact h

/-! ## The two sizes -/

/-- A saturating sum is the sum, saturated. -/
theorem saturating_sum (entries : List (ContentHash × FileRecord)) :
    ∀ start ≤ 2 ^ 64 - 1,
      entries.foldl (fun total file => min (total + file.2.size.toNat) (2 ^ 64 - 1)) start =
        min (start + (entries.map fun file => file.2.size.toNat).sum) (2 ^ 64 - 1) := by
  induction entries with
  | nil => intro start hstart; simpa using hstart
  | cons file rest ih =>
    intro start _
    rw [List.foldl_cons, ih _ (min_le_right _ _), List.map_cons, List.sum_cons]
    omega

theorem custodyItem_eq (stored : StoredItem) :
    stored.custodyItem =
      { item := stored.item.id
        creators := creatorsOf stored.fileAuthors
        sizeBytes := asU64 (OrdMap.total stored.item.files fun file => file.size.toNat) } := by
  have hsum := OrdMap.sum_toList stored.item.files fun _ file => file.size.toNat
  rw [StoredItem.custodyItem, saturating_sum _ 0 (Nat.zero_le _), Nat.zero_add, hsum]
  rfl

/-- The files read back are the rows of the item. -/
theorem getD_filesOf (db : Database) (id : ItemId) :
    ((db.filesOf (some id))[id]?).getD ∅ = Std.ExtTreeMap.ofList
      ((db.files.filter (·.item = id)).map fun row => (row.blob, row.file)) compare := by
  rw [filesOf, getD_gather, List.filter_filter, foldl_insert_eq_ofList]
  simp

theorem getD_fileAuthorsOf (db : Database) (id : ItemId) :
    ((db.fileAuthorsOf (some id))[id]?).getD ∅ = ((db.fileAuthorsOf none)[id]?).getD ∅ := by
  rw [fileAuthorsOf, fileAuthorsOf, getD_gather, getD_gather, List.filter_filter, List.filter_filter]
  simp

theorem creators_eq (db : Database) (id : ItemId) :
    ((db.fileAuthorsOf none)[id]?).elim [] creatorsOf =
      creatorsOf (((db.fileAuthorsOf none)[id]?).getD ∅) := by
  rcases (db.fileAuthorsOf none)[id]? with _ | authors
  · rfl
  · rfl

/-- The item read back, as custody sees it. -/
theorem Keyed.item_custodyItem (h : Keyed db) (visit : Visit) (hid : id ∈ db.items) :
    (db.item id).map StoredItem.custodyItem = some
      { item := id
        creators := ((db.fileAuthorsOf none)[id]?).elim [] creatorsOf
        sizeBytes := asU64 (db.sizes visit id).sum } := by
  obtain ⟨stored, hstored⟩ := OrdMap.mem_iff_exists.mp hid
  have hsum : (db.sizes visit id).sum = OrdMap.total (Std.ExtTreeMap.ofList
      ((db.files.filter (·.item = id)).map fun row => (row.blob, row.file)) compare)
        fun file => file.size.toNat := by
    rw [OrdMap.total_ofList, sizes, List.map_map]
    · exact ((visit.perm _).map _).sum_eq
    · rw [List.map_map]
      exact h.blobs id
  rw [item, hstored, creators_eq, ← getD_fileAuthorsOf, getD_filesOf, hsum, Option.map_some,
    Option.map_some, custodyItem_eq, h.ids id stored hstored]

/-- Adding the sizes up as doubles, in their order, rounds nothing until a sum reaches what a
size can be at most. -/
def Unrounded (sizes : List ℕ) : Prop := ExactTo 53 (2 ^ 64 - 1) 0 sizes

instance (sizes : List ℕ) : Decidable (Unrounded sizes) :=
  inferInstanceAs (Decidable (ExactTo 53 (2 ^ 64 - 1) 0 sizes))

/-- Files of eight petabytes together are none too large. -/
theorem unrounded_of_sum_le {sizes : List ℕ} (h : sizes.sum ≤ 2 ^ 53) : Unrounded sizes :=
  exactTo_of_sum_le (by decide) _ sizes (by omega)

/-- What is past the largest size is not rounded back below it. -/
theorem maxSize_le_round {n : ℕ} (h : 2 ^ 64 - 1 ≤ n) : 2 ^ 64 - 1 ≤ round 53 n := by
  rcases Nat.lt_or_eq_of_le h with hlt | rfl
  · exact (Nat.sub_le ..).trans (two_pow_le_round (by decide) (by omega))
  · decide

theorem asU64_total {sizes : List ℕ} (h : Unrounded sizes) :
    asU64 (total sizes) = asU64 sizes.sum := by
  have hsum := min_sumFrom (fun _ => maxSize_le_round) sizes h
  rw [round_of_le (by decide) (Nat.zero_le _), Nat.zero_add] at hsum
  exact hsum

/-- With one file there is nothing that could make up for a rounding. -/
theorem unrounded_of_asU64_total {size : ℕ} (hsize : size < 2 ^ 63)
    (h : asU64 (total [size]) = asU64 [size].sum) : Unrounded [size] := by
  have htotal : total [size] = round 53 size := by
    rw [total, sumFrom, List.foldl_cons, List.foldl_nil, Nat.zero_add, round_round (by decide)]
  rw [htotal, List.sum_singleton, asU64, asU64] at h
  have hexact : round 53 size = size := by omega
  refine Or.inr ⟨round_of_le (by decide) (Nat.zero_le _), hexact, Or.inr ?_⟩
  rw [Nat.zero_add, hexact]

/-- With two there can be: the second size is rounded down, and the sum up. -/
example : asU64 (total [2 ^ 53 - 1, 2 ^ 53 + 1]) = asU64 [2 ^ 53 - 1, 2 ^ 53 + 1].sum ∧
    ¬Unrounded [2 ^ 53 - 1, 2 ^ 53 + 1] := by decide

theorem Keyed.custodyItems_eq_iff (h : Keyed db) (visit : Visit) :
    db.custodyItems visit = db.custodyItemsRead ↔
      ∀ id ∈ db.items, asU64 (total (db.sizes visit id)) = asU64 (db.sizes visit id).sum := by
  have hread : db.custodyItemsRead = db.items.keys.map fun id =>
      { item := id
        creators := ((db.fileAuthorsOf none)[id]?).elim [] creatorsOf
        sizeBytes := asU64 (db.sizes visit id).sum } := by
    rw [custodyItemsRead, ← List.filterMap_eq_map]
    exact List.filterMap_congr fun id hid =>
      h.item_custodyItem visit (Std.ExtTreeMap.mem_keys.mp hid)
  rw [hread, custodyItems, List.map_inj_left]
  constructor
  · intro hsame id hid
    have hitem := hsame id (Std.ExtTreeMap.mem_keys.mpr hid)
    rw [CustodyItem.mk.injEq] at hitem
    exact hitem.2.2
  · intro hsame id hid
    rw [hsame id (Std.ExtTreeMap.mem_keys.mp hid)]

/-- The size of every stored file fits. -/
theorem Keyed.sizes_lt (h : Keyed db) (visit : Visit) {size : ℕ}
    (hsize : size ∈ db.sizes visit id) : size < 2 ^ 63 := by
  obtain ⟨row, hrow, rfl⟩ := List.mem_map.mp hsize
  exact h.bounded row (List.mem_filter.mp ((visit.perm _).mem_iff.mp hrow)).1

/-- **When the two sizes agree**: after any writes, whatever order the database comes to
its rows in, the items as its sums give them are exactly those of the items read back,
sizes and creators, if for every item nothing is rounded on the way to the sum, or to the
first sum past what a size can be. And where an item has one file, only if. -/
theorem sizes_agree_when (writes : List StoredItem) (visit : Visit) :
    let db := exec Database.write Database.empty writes
    ((∀ id ∈ db.items, Unrounded (db.sizes visit id)) →
      db.custodyItems visit = db.custodyItemsRead) ∧
    (db.custodyItems visit = db.custodyItemsRead →
      ∀ id ∈ db.items, ∀ size, db.sizes visit id = [size] → Unrounded [size]) := by
  intro db
  have hkeyed : Keyed db :=
    exec_invariant (I := Keyed) (fun _ stored h => h.write stored) writes keyed_empty
  refine ⟨fun hunrounded => ?_, fun hsame id hid size hsize => ?_⟩
  · exact (hkeyed.custodyItems_eq_iff visit).mpr fun id hid => asU64_total (hunrounded id hid)
  · have hitem := (hkeyed.custodyItems_eq_iff visit).mp hsame id hid
    rw [hsize] at hitem
    have hmem : size ∈ db.sizes visit id := by
      rw [hsize]
      exact List.mem_singleton_self size
    exact unrounded_of_asU64_total (hkeyed.sizes_lt visit hmem) hitem

/-- An item with two files: an exbibyte, and 16 pebibytes. -/
def exbibyte : StoredItem where
  item := { Item.new ⟨1⟩ with
    files := Std.ExtTreeMap.ofList
      [(⟨2⟩, ⟨.content, "iso", 1152921504606846976, "all.iso", none, none, none, none⟩),
        (⟨4⟩, ⟨.content, "iso", 18014398509481984, "more.iso", none, none, none, none⟩)] compare }
  ratings := ∅
  reviews := ∅
  fileAuthors := Std.ExtTreeMap.ofList [(⟨2⟩, {⟨3⟩})] compare
  lastModified := 0

/-- Far beyond 2^53 bytes, and not one is missing. -/
theorem sizes_agree_exbibyte :
    let db := exec Database.write Database.empty [exbibyte]
    let visit : Visit := ⟨fun table => table, fun _ => List.Perm.refl _⟩
    db.custodyItems visit = db.custodyItemsRead ∧
      db.custodyItems visit = [⟨⟨1⟩, [⟨3⟩], 1170935903116328960⟩] := by
  have hunrounded : ∀ id ∈ (exec Database.write Database.empty [exbibyte]).items.keys,
      Unrounded ((exec Database.write Database.empty [exbibyte]).sizes
        ⟨fun table => table, fun _ => List.Perm.refl _⟩ id) := by decide +kernel
  refine ⟨?_, by decide +kernel⟩
  exact (sizes_agree_when [exbibyte] ⟨fun table => table, fun _ => List.Perm.refl _⟩).1
    fun id hid => hunrounded id (Std.ExtTreeMap.mem_keys.mpr hid)

/-- An item with one file, of 2^53 + 1 bytes. -/
def oneByteTooMany : StoredItem where
  item := { Item.new ⟨1⟩ with
    files := Std.ExtTreeMap.ofList [(⟨2⟩, ⟨.content, "iso", 9007199254740993, "all.iso", none, none,
      none, none⟩)] compare }
  ratings := ∅
  reviews := ∅
  fileAuthors := Std.ExtTreeMap.ofList [(⟨2⟩, {⟨3⟩})] compare
  lastModified := 0

/-- The database's sum of one size is a byte short. -/
theorem sizes_disagree :
    let db := exec Database.write Database.empty [oneByteTooMany]
    let visit : Visit := ⟨fun table => table, fun _ => List.Perm.refl _⟩
    db.custodyItems visit ≠ db.custodyItemsRead ∧
      db.custodyItems visit = [⟨⟨1⟩, [⟨3⟩], 9007199254740992⟩] ∧
      db.custodyItemsRead = [⟨⟨1⟩, [⟨3⟩], 9007199254740993⟩] := by
  decide +kernel

end Agree

end Database

end Distlib
