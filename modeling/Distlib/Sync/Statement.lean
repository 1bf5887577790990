import Distlib.Core.Id

/-!
# What a beat says about the items a node holds

A node publishes the list of the items it holds, the *base*, as a blob, and
every beat names the base and states the change since: what is held now and not
in the base, and what of the base is held no longer. The change is counted from
the base and not from the beat before, so a lost beat costs nothing.

`Statement` is the sending side: the last base published, and when to publish
the next. A beat always adds up (`holdings_adds_up`): its change, applied to its
base, is the held set, its count is the size of that set, and it fits.

The sets of the program are hash sets, and are finite sets here; only what is
sorted on the way out is a list. Times are nanoseconds.
-/

namespace Distlib

/-- How many ids `added` and `removed` may hold together: 12 KiB of them. -/
def DELTA_MAX : ℕ := 12 * 1024 / 32

/-- How long the set has to stay unchanged before a delta is folded into a new
base: ten minutes. -/
def QUIET : ℕ := 10 * 60 * 1000000000

/-- Which items the member holds, as a list it published and a change to it. -/
structure Holdings where
  count : ℕ
  /-- the member's last published list, once there is one -/
  base : Option ContentHash
  added : List ItemId
  removed : List ItemId
  deriving DecidableEq

/-! ## Ids in order -/

/-- Where an id stands in the order of ids. -/
def ItemId.place (item : ItemId) : ℕ := item.hash.toNat

theorem ItemId.place_inj {a b : ItemId} (h : a.place = b.place) : a = b := by
  obtain ⟨a⟩ := a
  obtain ⟨b⟩ := b
  exact congrArg ItemId.mk (BitVec.eq_of_toNat_eq h)

/-- `a` sorts before `b`, or is `b`. -/
def ItemId.SortsBefore (a b : ItemId) : Prop := a.place ≤ b.place

instance : DecidableRel ItemId.SortsBefore := fun a b =>
  inferInstanceAs (Decidable (a.place ≤ b.place))

instance : Std.Total ItemId.SortsBefore := ⟨fun a b => Nat.le_total a.place b.place⟩

instance : IsTrans ItemId ItemId.SortsBefore := ⟨fun _ _ _ hab hbc => Nat.le_trans hab hbc⟩

instance : Std.Antisymm ItemId.SortsBefore :=
  ⟨fun _ _ hab hba => ItemId.place_inj (Nat.le_antisymm hab hba)⟩

/-- The ids of a set, sorted. Sorting forgets the order the set was gathered
in. -/
def sortedIds (items : Finset ItemId) : List ItemId :=
  Quot.liftOn items.val (·.insertionSort ItemId.SortsBefore) fun a b hperm => by
    have hsame : (a.insertionSort ItemId.SortsBefore).Perm (b.insertionSort ItemId.SortsBefore) :=
      (List.perm_insertionSort _ a).trans (hperm.trans (List.perm_insertionSort _ b).symm)
    exact hsame.eq_of_pairwise' (List.pairwise_insertionSort _ a) (List.pairwise_insertionSort _ b)

theorem coe_sortedIds (items : Finset ItemId) : (sortedIds items : Multiset ItemId) = items.val := by
  obtain ⟨val, nodup⟩ := items
  induction val using Quot.inductionOn with
  | h l => exact Quot.sound (List.perm_insertionSort _ l)

theorem toFinset_sortedIds (items : Finset ItemId) : (sortedIds items).toFinset = items := by
  ext item
  rw [List.mem_toFinset, ← Multiset.mem_coe, coe_sortedIds, Finset.mem_val]

/-! ## The sender -/

/-- A published list: its hash, and the set it lists. -/
structure Base where
  hash : ContentHash
  items : Finset ItemId
  deriving DecidableEq

/-- The last base this node published, and the holdings stated against it. -/
structure Statement where
  base : Option Base

namespace Statement

/-- Nothing published yet: the delta is counted from an empty list. -/
def new : Statement := ⟨none⟩

/-- The set the next delta is counted from. -/
def baseItems (statement : Statement) : Finset ItemId :=
  match statement.base with
  | none => ∅
  | some base => base.items

/-- What `held` adds to the base, and what it no longer has of it, each
sorted. -/
def delta (statement : Statement) (held : Finset ItemId) : List ItemId × List ItemId :=
  match statement.base with
  | none => (sortedIds held, [])
  | some base => (sortedIds (held \ base.items), sortedIds (base.items \ held))

/-- The holdings a beat sent at `now` states for `held`, a set unchanged since
`changedAt`, and the statement after it. A new base is published first when the
delta would overflow the beat, or when there is one and the set has been quiet;
`stored` is the blob store's answer then, its failure the call's failure. -/
def holdings (statement : Statement) (held : Finset ItemId) (changedAt now : ℕ)
    (stored : Option ContentHash) : Option Holdings × Statement :=
  let delta := statement.delta held
  let size := delta.1.length + delta.2.length
  if size > DELTA_MAX || (size > 0 && now - changedAt ≥ QUIET) then
    match stored with
    | none => (none, statement)
    | some hash =>
      let statement : Statement := ⟨some ⟨hash, held⟩⟩
      (some ⟨held.card, statement.base.map Base.hash, [], []⟩, statement)
  else (some ⟨held.card, statement.base.map Base.hash, delta.1, delta.2⟩, statement)

end Statement

/-- What it takes for a beat to be true of `held`, counted from `base`: it fits,
it names nothing twice over, and its change to the base is the held set. -/
structure AddsUp (holdings : Holdings) (base held : Finset ItemId) : Prop where
  fits : holdings.added.length + holdings.removed.length ≤ DELTA_MAX
  added : holdings.added.toFinset = held \ base
  removed : holdings.removed.toFinset = base \ held
  count : holdings.count = held.card

/-- The change applied to the base is the held set. -/
theorem AddsUp.applied {holdings : Holdings} {base held : Finset ItemId}
    (h : AddsUp holdings base held) :
    base \ holdings.removed.toFinset ∪ holdings.added.toFinset = held := by
  rw [h.added, h.removed]
  ext item
  simp only [Finset.mem_union, Finset.mem_sdiff, not_and, not_not]
  tauto

theorem Statement.delta_toFinset (statement : Statement) (held : Finset ItemId) :
    (statement.delta held).1.toFinset = held \ statement.baseItems ∧
      (statement.delta held).2.toFinset = statement.baseItems \ held := by
  obtain ⟨_ | base⟩ := statement
  · simp [delta, baseItems, toFinset_sortedIds]
  · exact ⟨toFinset_sortedIds _, toFinset_sortedIds _⟩

/-- **A beat adds up**, against the base it names: the one the sender had, or the
one just published, which lists the held set. -/
theorem holdings_adds_up {statement next : Statement} {held : Finset ItemId} {changedAt now : ℕ}
    {stored : Option ContentHash} {beat : Holdings}
    (h : statement.holdings held changedAt now stored = (some beat, next)) :
    beat.base = next.base.map Base.hash ∧ AddsUp beat next.baseItems held ∧
      (next = statement ∨ ∃ hash, stored = some hash ∧ next = ⟨some ⟨hash, held⟩⟩) := by
  simp only [Statement.holdings] at h
  split at h
  · rcases stored with _ | hash
    · cases h
    · obtain ⟨hbeat, rfl⟩ := Prod.mk.inj h
      obtain rfl := Option.some.inj hbeat
      refine ⟨rfl, ⟨Nat.zero_le _, ?_, ?_, rfl⟩, Or.inr ⟨hash, rfl, rfl⟩⟩
      · simp [Statement.baseItems]
      · simp [Statement.baseItems]
  · rename_i hsmall
    obtain ⟨hbeat, rfl⟩ := Prod.mk.inj h
    obtain rfl := Option.some.inj hbeat
    obtain ⟨hadded, hremoved⟩ := statement.delta_toFinset held
    simp only [Bool.or_eq_true, decide_eq_true_eq, not_or, not_lt] at hsmall
    exact ⟨rfl, ⟨hsmall.1, hadded, hremoved, rfl⟩, Or.inl rfl⟩

/-- A call that states nothing publishes nothing. -/
theorem holdings_failed {statement next : Statement} {held : Finset ItemId} {changedAt now : ℕ}
    {stored : Option ContentHash}
    (h : statement.holdings held changedAt now stored = (none, next)) : next = statement := by
  simp only [Statement.holdings] at h
  split at h
  · rcases stored with _ | hash
    · exact (Prod.mk.inj h).2.symm
    · cases h
  · cases h

end Distlib
