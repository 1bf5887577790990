import Distlib.Sync.Statement

/-!
# Who holds what, by the beats a node has heard

The receiving side: one inverted map from items to the members that hold them,
and for each member where this node is with its holdings.

A beat's change replaces the last one, it never adds to it. So the last change
is undone in place before the new one is applied, which needs no copy of the
base; and while the base a beat names is being fetched, nothing is said about
the member at all.

The index is proved about through the set of items it attributes to a member
(`Index.heldBy`): putting on and taking off are insertion and removal there, for
that member alone, and `shift` returns the size it leaves (`shift_spec`).
-/

namespace Distlib

/-- Takes out the element at `i` by putting the last in its place. -/
def swapRemove {α : Type} (l : List α) (i : ℕ) : List α :=
  match l.getLast? with
  | none => []
  | some last => (l.set i last).dropLast

/-- The last one takes the place of the one removed, so of the order nothing is kept and of
the members nothing is lost. -/
theorem swapRemove_perm {α : Type} {l : List α} {i : ℕ} (h : i < l.length) :
    (swapRemove l i).Perm (l.eraseIdx i) := by
  rcases List.eq_nil_or_concat l with rfl | ⟨init, last, rfl⟩
  · cases h
  · simp only [List.concat_eq_append, List.length_append, List.length_singleton] at h
    simp only [swapRemove, List.concat_eq_append, List.getLast?_append, List.getLast?_singleton,
      Option.some_or]
    rcases Nat.lt_succ_iff_lt_or_eq.mp h with hlt | rfl
    · rw [List.set_append_left _ _ hlt, List.dropLast_concat, List.eraseIdx_append_of_lt_length hlt]
      exact (List.set_perm_cons_eraseIdx hlt last).trans (List.perm_append_singleton _ _).symm
    · rw [List.set_append_right _ _ le_rfl, List.eraseIdx_append_of_length_le le_rfl]
      simp

/-! ## The index -/

/-- The members holding each item. Nobody is listed twice, and an item nobody
holds is not listed. -/
structure Index where
  map : OrdMap ItemId (List MemberId)
  sound : ∀ (item : ItemId) (members : List MemberId), map[item]? = some members →
    members.Nodup ∧ members ≠ []

namespace Index

variable {index : Index} {member other : MemberId} {item it : ItemId}

def empty : Index := ⟨∅, by simp⟩

def holders (index : Index) (item : ItemId) : List MemberId := index.map[item]?.getD []

/-- Nobody is counted twice for an item. -/
theorem holders_nodup (index : Index) (item : ItemId) : (index.holders item).Nodup := by
  rw [holders]
  rcases h : index.map[item]? with _ | members
  · exact List.nodup_nil
  · exact (index.sound item members h).1

/-- The index with `members` for `item`. -/
def put (index : Index) (item : ItemId) (members : List MemberId)
    (h : members.Nodup ∧ members ≠ []) : Index where
  map := index.map.insert item members
  sound := by
    intro other others hget
    simp only [Std.ExtTreeMap.getElem?_insert, Std.LawfulEqCmp.compare_eq_iff_eq] at hget
    split at hget
    · exact Option.some.inj hget ▸ h
    · exact index.sound other others hget

/-- The index without `item`. -/
def drop (index : Index) (item : ItemId) : Index where
  map := index.map.erase item
  sound := by
    intro other others hget
    simp only [Std.ExtTreeMap.getElem?_erase, Std.LawfulEqCmp.compare_eq_iff_eq] at hget
    split at hget
    · cases hget
    · exact index.sound other others hget

/-- Puts `member` on `item`; whether it was new. -/
def add (index : Index) (member : MemberId) (item : ItemId) : Bool × Index :=
  if h : member ∈ index.holders item then (false, index)
  else
    (true, index.put item (index.holders item ++ [member])
      ⟨List.nodup_append.mpr ⟨index.holders_nodup item, List.nodup_singleton _, by
        rintro a ha b hb rfl
        exact h (List.mem_singleton.mp hb ▸ ha)⟩, by simp⟩)

/-- And nobody is after one of them has gone. -/
theorem nodup_swapRemove {members : List MemberId} {place : ℕ} (h : members.Nodup)
    (hplace : place < members.length) : (swapRemove members place).Nodup :=
  (swapRemove_perm hplace).nodup_iff.mpr (h.sublist (List.eraseIdx_sublist _ _))

/-- Takes `member` off `item`; whether it was there. -/
def remove (index : Index) (member : MemberId) (item : ItemId) : Bool × Index :=
  match hplace : (index.holders item).idxOf? member with
  | none => (false, index)
  | some place =>
    let members := swapRemove (index.holders item) place
    if h : members = [] then (true, index.drop item)
    else
      (true, index.put item members
        ⟨nodup_swapRemove (index.holders_nodup item) (List.idxOf?_eq_some_iff.mp hplace).1, h⟩)

/-- Keeps only the members `keep` admits, and the items they hold. -/
def retain (index : Index) (keep : MemberId → Bool) : Index where
  map := index.map.filterMap fun _ members =>
    let kept := members.filter keep
    if kept = [] then none else some kept
  sound := by
    intro item members hget
    rw [Std.ExtTreeMap.getElem?_filterMap', Option.bind_eq_some_iff] at hget
    obtain ⟨all, hall, hkept⟩ := hget
    simp only [Option.ite_none_left_eq_some, Option.some.injEq] at hkept
    obtain ⟨hne, rfl⟩ := hkept
    exact ⟨(index.sound item all hall).1.filter _, hne⟩

def clear (index : Index) (member : MemberId) : Index := index.retain fun held => held ≠ member

/-- Puts `member` on every item of a list; how many were new. -/
def addAll (member : MemberId) : Index → List ItemId → ℕ × Index
  | index, [] => (0, index)
  | index, item :: coming =>
    let added := index.add member item
    let rest := addAll member added.2 coming
    (added.1.toNat + rest.1, rest.2)

/-- Takes `member` off every item of a list; how many were there. -/
def removeAll (member : MemberId) : Index → List ItemId → ℕ × Index
  | index, [] => (0, index)
  | index, item :: going =>
    let removed := index.remove member item
    let rest := removeAll member removed.2 going
    (removed.1.toNat + rest.1, rest.2)

/-- Puts `member` on every item `coming` and takes it off every item `going`; how
many items it holds after, given `held` before. -/
def shift (index : Index) (member : MemberId) (held : ℕ) (coming going : List ItemId) : ℕ × Index :=
  let came := addAll member index coming
  let went := removeAll member came.2 going
  (held + came.1 - went.1, went.2)

/-! ### What the index attributes to a member -/

/-- The items `member` is listed on. -/
def heldBy (index : Index) (member : MemberId) : Finset ItemId :=
  (index.map.keys.filter fun item => member ∈ index.holders item).toFinset

/-- What a member holds and who holds an item are one relation, kept once. -/
theorem mem_heldBy : item ∈ index.heldBy member ↔ member ∈ index.holders item := by
  simp only [heldBy, List.mem_toFinset, List.mem_filter, decide_eq_true_eq,
    Std.ExtTreeMap.mem_keys, and_iff_right_iff_imp]
  intro hmem
  rcases hget : index.map[item]? with _ | members
  · simp [holders, hget] at hmem
  · exact Std.ExtTreeMap.mem_iff_isSome_getElem?.mpr (by rw [hget]; rfl)

/-- The list of an item is replaced, and the others stay. -/
theorem holders_put {members : List MemberId} (h : members.Nodup ∧ members ≠ []) :
    (index.put item members h).holders it = if item = it then members else index.holders it := by
  simp only [holders, put, Std.ExtTreeMap.getElem?_insert, Std.LawfulEqCmp.compare_eq_iff_eq]
  split <;> rfl

/-- An item nobody holds has no list. -/
theorem holders_drop :
    (index.drop item).holders it = if item = it then [] else index.holders it := by
  simp only [holders, drop, Std.ExtTreeMap.getElem?_erase, Std.LawfulEqCmp.compare_eq_iff_eq]
  split <;> rfl

/-- `member` is put on `item`, and nobody else is moved. -/
theorem mem_holders_add :
    other ∈ (index.add member item).2.holders it ↔
      other ∈ index.holders it ∨ (other = member ∧ it = item) := by
  rw [add]
  split
  · rename_i hmem
    refine ⟨Or.inl, ?_⟩
    rintro (h | ⟨rfl, rfl⟩)
    · exact h
    · exact hmem
  · rw [holders_put]
    split
    · rename_i heq
      subst heq
      simp
    · rename_i hne
      simp [Ne.symm hne]

/-- Whether an addition was one is whether it was missing. -/
theorem add_new : (index.add member item).1 = true ↔ item ∉ index.heldBy member := by
  rw [mem_heldBy]
  rw [add]
  split
  · rename_i hmem
    simp [hmem]
  · rename_i hmem
    simp [hmem]

/-- `member` is taken off `item`, and nobody else is moved. -/
theorem mem_holders_remove :
    other ∈ (index.remove member item).2.holders it ↔
      other ∈ index.holders it ∧ ¬(other = member ∧ it = item) := by
  have hnodup := index.holders_nodup item
  rw [remove]
  split
  · rename_i hnone
    rw [List.idxOf?_eq_none_iff] at hnone
    refine ⟨fun h => ⟨h, ?_⟩, And.left⟩
    rintro ⟨rfl, rfl⟩
    exact hnone h
  · rename_i place hplace
    -- what is left is the list without `member`
    have hleft : ∀ a, a ∈ swapRemove (index.holders item) place ↔
        a ∈ index.holders item ∧ a ≠ member := by
      intro a
      have herase : (index.holders item).erase member = (index.holders item).eraseIdx place := by
        rw [List.erase_eq_eraseIdx, hplace]
      rw [(swapRemove_perm (List.idxOf?_eq_some_iff.mp hplace).1).mem_iff, ← herase,
        hnodup.mem_erase_iff, and_comm]
    have hcases : other ∈ (if item = it then swapRemove (index.holders item) place
        else index.holders it) ↔ other ∈ index.holders it ∧ ¬(other = member ∧ it = item) := by
      split
      · rename_i heq
        subst heq
        simp [hleft]
      · rename_i hne
        simp [Ne.symm hne]
    simp only
    split
    · rename_i hempty
      rw [holders_drop]
      rwa [hempty] at hcases
    · rw [holders_put]
      exact hcases

/-- Whether a removal was one is whether it was there. -/
theorem remove_there : (index.remove member item).1 = true ↔ item ∈ index.heldBy member := by
  rw [mem_heldBy]
  rw [remove]
  split
  · rename_i hnone
    rw [List.idxOf?_eq_none_iff] at hnone
    simp [hnone]
  · rename_i place hplace
    have hmem : member ∈ index.holders item := by
      obtain ⟨hlt, heq, -⟩ := List.idxOf?_eq_some_iff.mp hplace
      exact heq ▸ List.getElem_mem hlt
    simp only
    split <;> simp [hmem]

/-- Of every item the members that are kept stay, and nobody else. -/
theorem mem_holders_retain {keep : MemberId → Bool} :
    other ∈ (index.retain keep).holders it ↔ other ∈ index.holders it ∧ keep other = true := by
  simp only [holders, retain, Std.ExtTreeMap.getElem?_filterMap']
  rcases index.map[it]? with _ | members
  · simp
  · simp only [Option.bind_some]
    split
    · rename_i hnil
      rw [List.filter_eq_nil_iff] at hnil
      simp only [Option.getD_none, List.not_mem_nil, Option.getD_some, false_iff, not_and]
      exact fun hmem => hnil other hmem
    · simp

/-! ### The same, as sets of items -/

/-- An item is added for one member. -/
theorem heldBy_add : (index.add member item).2.heldBy member = insert item (index.heldBy member) := by
  ext it
  rw [mem_heldBy, mem_holders_add, Finset.mem_insert, mem_heldBy]
  tauto

/-- What the others hold is left as it is. -/
theorem heldBy_add_of_ne (h : other ≠ member) :
    (index.add member item).2.heldBy other = index.heldBy other := by
  ext it
  rw [mem_heldBy, mem_holders_add, mem_heldBy]
  tauto

/-- An item is removed from one member. -/
theorem heldBy_remove : (index.remove member item).2.heldBy member = (index.heldBy member).erase item := by
  ext it
  rw [mem_heldBy, mem_holders_remove, Finset.mem_erase, mem_heldBy]
  tauto

/-- And so is what they hold when one is removed. -/
theorem heldBy_remove_of_ne (h : other ≠ member) :
    (index.remove member item).2.heldBy other = index.heldBy other := by
  ext it
  rw [mem_heldBy, mem_holders_remove, mem_heldBy]
  tauto

/-- A member that is not kept holds nothing. -/
theorem heldBy_retain {keep : MemberId → Bool} :
    (index.retain keep).heldBy member = if keep member then index.heldBy member else ∅ := by
  ext it
  rw [mem_heldBy, mem_holders_retain]
  split
  · rename_i hkeep
    simp [hkeep, mem_heldBy]
  · rename_i hkeep
    simp [hkeep]

/-- Nothing is held by a member that is cleared. -/
@[simp] theorem heldBy_clear : (index.clear member).heldBy member = ∅ := by
  rw [clear, heldBy_retain]
  simp

/-- The others hold what they did. -/
theorem heldBy_clear_of_ne (h : other ≠ member) :
    (index.clear member).heldBy other = index.heldBy other := by
  rw [clear, heldBy_retain]
  simp [h]

/-- What putting `member` on a list of items does, and what it counts. -/
theorem addAll_spec (member : MemberId) (index : Index) (coming : List ItemId) :
    (addAll member index coming).2.heldBy member = index.heldBy member ∪ coming.toFinset ∧
      (index.heldBy member).card + (addAll member index coming).1 =
        ((addAll member index coming).2.heldBy member).card ∧
      ∀ other ≠ member, (addAll member index coming).2.heldBy other = index.heldBy other := by
  induction coming generalizing index with
  | nil => simp [addAll]
  | cons item coming ih =>
    obtain ⟨hset, hcount, hothers⟩ := ih (index.add member item).2
    rw [heldBy_add] at hset hcount
    simp only [addAll]
    refine ⟨?_, ?_, fun other hne => ?_⟩
    · rw [hset, List.toFinset_cons, Finset.union_insert, Finset.insert_union]
    · rw [← hcount]
      by_cases hmem : item ∈ index.heldBy member
      · have hold : (index.add member item).1 = false := by
          rw [Bool.eq_false_iff]
          exact fun hnew => add_new.mp hnew hmem
        rw [hold, Finset.insert_eq_of_mem hmem]
        simp
      · rw [add_new.mpr hmem, Finset.card_insert_of_notMem hmem, Bool.toNat_true]
        omega
    · rw [hothers other hne, heldBy_add_of_ne hne]

/-- What taking `member` off a list of items does, and what it counts. -/
theorem removeAll_spec (member : MemberId) (index : Index) (going : List ItemId) :
    (removeAll member index going).2.heldBy member = index.heldBy member \ going.toFinset ∧
      ((removeAll member index going).2.heldBy member).card + (removeAll member index going).1 =
        (index.heldBy member).card ∧
      ∀ other ≠ member, (removeAll member index going).2.heldBy other = index.heldBy other := by
  induction going generalizing index with
  | nil => simp [removeAll]
  | cons item going ih =>
    obtain ⟨hset, hcount, hothers⟩ := ih (index.remove member item).2
    rw [heldBy_remove] at hset hcount
    simp only [removeAll]
    refine ⟨?_, ?_, fun other hne => ?_⟩
    · rw [hset, List.toFinset_cons, Finset.sdiff_insert, Finset.erase_sdiff_comm]
    · by_cases hmem : item ∈ index.heldBy member
      · rw [remove_there.mpr hmem, Bool.toNat_true]
        rw [Finset.card_erase_of_mem hmem] at hcount
        have hpos := Finset.card_pos.mpr ⟨item, hmem⟩
        omega
      · have hnot : (index.remove member item).1 = false := by
          rw [Bool.eq_false_iff]
          exact fun hthere => hmem (remove_there.mp hthere)
        rw [hnot, Bool.toNat_false]
        rw [Finset.erase_eq_of_notMem hmem] at hcount
        omega
    · rw [hothers other hne, heldBy_remove_of_ne hne]

/-- **A shift counts what it leaves**: from the right count, `shift` returns the
right count, moves exactly the items it is given, and moves nobody else. -/
theorem shift_spec (member : MemberId) (index : Index) (coming going : List ItemId) :
    (index.shift member (index.heldBy member).card coming going).2.heldBy member =
        (index.heldBy member ∪ coming.toFinset) \ going.toFinset ∧
      (index.shift member (index.heldBy member).card coming going).1 =
        ((index.shift member (index.heldBy member).card coming going).2.heldBy member).card ∧
      ∀ other ≠ member, ∀ held,
        (index.shift member held coming going).2.heldBy other = index.heldBy other := by
  obtain ⟨hcame, hcamecount, hcameothers⟩ := addAll_spec member index coming
  obtain ⟨hwent, hwentcount, hwentothers⟩ :=
    removeAll_spec member (addAll member index coming).2 going
  simp only [shift]
  refine ⟨by rw [hwent, hcame], by omega, fun other hne held => ?_⟩
  rw [hwentothers other hne, hcameothers other hne]

end Index

/-! ## Where a node is with each member -/

/-- Where this node is with one member's holdings. -/
inductive Stated : Type where
  /-- its base is being fetched, or is to be by the next beat that names it -/
  | unknown (base : ContentHash) (latest : Holdings) (fetching : Bool)
  /-- in the map: the base, then the change, `held` items in all -/
  | known (base : Option ContentHash) (added removed : List ItemId) (held : ℕ)
  /-- its statement did not add up against `base` -/
  | broken (base : Option ContentHash)
  deriving DecidableEq

/-- Every member's holdings this node knows, as one inverted map. -/
structure Holders where
  index : Index
  stated : OrdMap MemberId Stated
  /-- the copies a probe found missing -/
  failedCopies : Finset (MemberId × ItemId)

/-- What taking in one statement did: the base to fetch, and whether what this
node can say the member holds changed. -/
structure Heard where
  fetch : Option ContentHash
  changed : Bool
  deriving DecidableEq

namespace Holders

def new : Holders := ⟨.empty, ∅, ∅⟩

/-- Whether what `member` holds is known. -/
def isKnown (holders : Holders) (member : MemberId) : Bool :=
  match holders.stated[member]? with
  | some (.known _ _ _ _) => true
  | _ => false

/-- Replaces a known member's change with `holdings`', and checks the count: a
statement that does not add up is dropped from the map. -/
def restate (holders : Holders) (member : MemberId) (holdings : Holdings) : Holders :=
  match holders.stated[member]? with
  | some (.known base added removed held) =>
    -- the previous change taken back, then the new one applied
    let undone := holders.index.shift member held removed added
    let shifted := undone.2.shift member undone.1 holdings.added holdings.removed
    if shifted.1 = holdings.count then
      { holders with
        index := shifted.2
        stated := holders.stated.insert member
          (.known base holdings.added holdings.removed shifted.1) }
    else
      { holders with
        index := shifted.2.clear member
        stated := holders.stated.insert member (.broken base) }
  | _ => holders

/-- Records `member` as known from `base`, `held` items of it in the map already,
and applies `holdings`' change on top. -/
def known (holders : Holders) (member : MemberId) (base : Option ContentHash) (held : ℕ)
    (holdings : Holdings) : Holders :=
  { holders with stated := holders.stated.insert member (.known base [] [] held) }.restate member
    holdings

/-- A member heard from for the first time, or with a new base. -/
def heardAnew (holders : Holders) (member : MemberId) (holdings : Holdings) : Heard × Holders :=
  let holders := { holders with index := holders.index.clear member }
  (⟨holdings.base, true⟩,
    match holdings.base with
    | some base =>
      { holders with stated := holders.stated.insert member (.unknown base holdings true) }
    | none => holders.known member none 0 holdings)

/-- Takes in one member's newest statement. -/
def heard (holders : Holders) (member : MemberId) (holdings : Holdings) : Heard × Holders :=
  match holders.stated[member]? with
  | some (.known base added removed _) =>
    if base = holdings.base then
      let same := added = holdings.added ∧ removed = holdings.removed
      let holders := holders.restate member holdings
      (⟨none, decide (¬same) || !holders.isKnown member⟩, holders)
    else holders.heardAnew member holdings
  | some (.unknown base _ fetching) =>
    if some base = holdings.base then
      (⟨if fetching then none else some base, false⟩,
        { holders with stated := holders.stated.insert member (.unknown base holdings true) })
    else holders.heardAnew member holdings
  | some (.broken base) =>
    if base = holdings.base then (⟨none, false⟩, holders) else holders.heardAnew member holdings
  | none => holders.heardAnew member holdings

/-- Takes in the base `member`'s beats name, fetched; whether it was taken in. -/
def arrived (holders : Holders) (member : MemberId) (base : ContentHash) (items : List ItemId) :
    Bool × Holders :=
  match holders.stated[member]? with
  | some (.unknown wanted latest _) =>
    if wanted = base then
      let added := Index.addAll member holders.index items
      (true, { holders with index := added.2 }.known member (some base) added.1 latest)
    else (false, holders)
  | _ => (false, holders)

/-- The fetch of `member`'s `base` failed. If `retry`, the next beat that names
it tries again; if not, nothing is fetched until a beat names another. -/
def failed (holders : Holders) (member : MemberId) (base : ContentHash) (retry : Bool) : Holders :=
  match holders.stated[member]? with
  | some (.unknown wanted latest _) =>
    if wanted ≠ base then holders
    else if retry then
      { holders with stated := holders.stated.insert member (.unknown wanted latest false) }
    else { holders with stated := holders.stated.insert member (.broken (some base)) }
  | _ => holders

/-- Forgets whoever `isMember` no longer admits. -/
def retainMembers (holders : Holders) (isMember : MemberId → Bool) : Holders :=
  { holders with
    stated := holders.stated.filter fun member _ => isMember member
    index := holders.index.retain isMember }

/-- The members known to hold `item`. -/
def holders (holders : Holders) (item : ItemId) : List MemberId := holders.index.holders item

/-- The members known to hold `item` whose copy has not failed a probe. -/
def realHolders (holders : Holders) (item : ItemId) : List MemberId :=
  (holders.holders item).filter fun member => (member, item) ∉ holders.failedCopies

/-- Nobody is counted twice among those whose copies have not failed a probe either. -/
theorem nodup_realHolders (holders : Holders) (item : ItemId) : (holders.realHolders item).Nodup :=
  (holders.index.holders_nodup item).filter _

/-- Every item exactly one member of `online` holds a real copy of, with that
member. -/
def soleHolders (holders : Holders) (online : Finset MemberId) : List (ItemId × MemberId) :=
  holders.index.map.toList.filterMap fun (item, members) =>
    match members.filter fun member => member ∈ online ∧ (member, item) ∉ holders.failedCopies with
    | [holder] => some (item, holder)
    | _ => none

/-- Replaces the copies a probe found missing, answering the members whose
failed copies changed. -/
def setFailedCopies (holders : Holders) (failedCopies : Finset (MemberId × ItemId)) :
    Finset MemberId × Holders :=
  ((symmDiff holders.failedCopies failedCopies).image Prod.fst, { holders with failedCopies })

end Holders

end Distlib
