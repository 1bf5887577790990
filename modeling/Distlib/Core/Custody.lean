import Distlib.Lib.Ranking
import Distlib.Core.GroupSettings

/-!
# Custody: who keeps which item

Every member scores every item, and an item's custodians are the members with
the highest scores. Nothing about custody is stored: every node computes the
answer from the pledges in the membership and the items in the catalogue, so two
computations that disagree leave an item with a keeper too few.

The program computes it three ways. `custodians` selects, cuts and sorts;
`isCustodian` counts rivals and stops early; `firstAfterCustodians` sorts and
skips. All three are the one count of `Ranking.top` (`mem_custodians`,
`isCustodian_iff`), and the theorems here are about that count.

The score is a parameter. In the program it is a floating-point function of a
keyed hash; what custody relies on is that it depends on nothing but the item,
the member and its weight, and that scores are totally ordered. So is the
selection algorithm of the standard library, by its contract.
-/

namespace Distlib

open Ranking

/-- Where an id stands in the order of ids. -/
def MemberId.place (member : MemberId) : ℕ := member.key.toNat

/-- Members stand in one order, by their bytes. -/
theorem MemberId.place_inj {a b : MemberId} (h : a.place = b.place) : a = b := by
  obtain ⟨a⟩ := a
  obtain ⟨b⟩ := b
  exact congrArg MemberId.mk (BitVec.eq_of_toNat_eq h)

/-- From this many items on, `custodyOf` spreads the work. -/
def PARALLEL_FROM : ℕ := 1024

/-- An item as custody sees it: who added it, and how much there is to keep. -/
structure CustodyItem where
  item : ItemId
  /-- their copies are their own, and are never ranked -/
  creators : List MemberId
  sizeBytes : ℕ
  deriving DecidableEq

/-- Entries in the order of their ids, no id twice. -/
def ById (entries : List (MemberId × ℕ)) : Prop :=
  entries.Pairwise fun a b => a.1.place < b.1.place

/-- The members custody is shared among, with their weights, and how many copies
the group keeps of each item. -/
structure CustodyGroup where
  replicas : ℕ
  /-- every member with its pledge -/
  members : List (MemberId × ℕ)
  /-- the members with a weight: the only ones ranked -/
  weighted : List (MemberId × ℕ)
  members_byId : ById members
  weighted_byId : ById weighted

/-! ## Building a group -/

/-- The pledges sorted by member. -/
def sortedPledges (pledges : List (MemberId × ℕ)) : List (MemberId × ℕ) :=
  pledges.insertionSort fun a b => a.1.place ≤ b.1.place

/-- Of entries in a row for one member, the first. -/
def dedupByMember (pledges : List (MemberId × ℕ)) : List (MemberId × ℕ) :=
  pledges.destutter fun a b => a.1 ≠ b.1

theorem sortedPledges_sorted (pledges : List (MemberId × ℕ)) :
    (sortedPledges pledges).Pairwise fun a b => a.1.place ≤ b.1.place := by
  have total : Std.Total fun a b : MemberId × ℕ => a.1.place ≤ b.1.place :=
    ⟨fun a b => Nat.le_total _ _⟩
  have trans : IsTrans (MemberId × ℕ) fun a b => a.1.place ≤ b.1.place :=
    ⟨fun a b c => Nat.le_trans⟩
  exact List.pairwise_insertionSort _ _

/-- Of a member that is there twice one pledge is kept, and then nobody is. -/
theorem byId_dedupByMember {pledges : List (MemberId × ℕ)}
    (h : pledges.Pairwise fun a b => a.1.place ≤ b.1.place) : ById (dedupByMember pledges) := by
  have hle : (dedupByMember pledges).Pairwise fun a b => a.1.place ≤ b.1.place :=
    h.sublist (List.destutter_sublist _ _)
  have hne : (dedupByMember pledges).IsChain fun a b => a.1 ≠ b.1 := List.isChain_destutter _ _
  have hlt : (dedupByMember pledges).IsChain fun a b => a.1.place < b.1.place := by
    rw [List.isChain_iff_getElem] at hne ⊢
    intro i hi
    have hplace := List.pairwise_iff_getElem.mp hle i (i + 1) (by omega) hi (by omega)
    exact lt_of_le_of_ne hplace fun heq => hne i hi (MemberId.place_inj heq)
  have trans : IsTrans (MemberId × ℕ) fun a b => a.1.place < b.1.place :=
    ⟨fun a b c => Nat.lt_trans⟩
  exact List.isChain_iff_pairwise.mp hlt

/-- The weights of pledges, without those that weigh nothing. -/
def weigh (rule : WeightRule) (pledges : List (MemberId × ℕ)) : List (MemberId × ℕ) :=
  (pledges.map fun entry => (entry.1, rule.weight entry.2)).filter fun entry => entry.2 > 0

/-- Whoever weighs nothing is left out, and the order is kept. -/
theorem byId_weigh {rule : WeightRule} {pledges : List (MemberId × ℕ)} (h : ById pledges) :
    ById (weigh rule pledges) := by
  refine List.Pairwise.filter _ (List.pairwise_map.mpr ?_)
  exact h

namespace CustodyGroup

/-- The group of `pledges`, weighed by `rule`. -/
def new (replicas : ℕ) (rule : WeightRule) (pledges : List (MemberId × ℕ)) : CustodyGroup where
  replicas := replicas
  members := dedupByMember (sortedPledges pledges)
  weighted := weigh rule (dedupByMember (sortedPledges pledges))
  members_byId := byId_dedupByMember (sortedPledges_sorted pledges)
  weighted_byId := byId_weigh (byId_dedupByMember (sortedPledges_sorted pledges))

/-! ## Asking a group -/

/-- How many custodians `item` has: one fewer while a creator is a member. -/
def slots (group : CustodyGroup) (item : CustodyItem) : ℕ :=
  let createdHere := item.creators.any fun creator =>
    group.members.any fun entry => entry.1 = creator
  group.replicas - createdHere.toNat

/-- The members ranked for `item`: everyone with a weight but its creators. -/
def candidates (group : CustodyGroup) (item : CustodyItem) : List (MemberId × ℕ) :=
  group.weighted.filter fun entry => !item.creators.contains entry.1

/-- What `member` weighs: a search in a list sorted by id. -/
def weightOf (group : CustodyGroup) (member : MemberId) : Option ℕ :=
  (group.weighted.find? fun entry => entry.1 = member).map Prod.snd

/-- What keeping `item` asks of the group's pledges, in a `u64`. -/
def demandBytes (group : CustodyGroup) (item : CustodyItem) : ℕ :=
  min (item.sizeBytes * group.slots item) (2 ^ 64 - 1)

end CustodyGroup

/-- A member's score for one item. -/
structure Ranked (S : Type) where
  score : S
  member : MemberId

section Score

variable {S : Type} [LinearOrder S]

/-- Higher scores rank higher; of equal scores, the lower id. -/
instance : LinearOrder (Ranked S) :=
  LinearOrder.lift' (fun ranked => toLex (ranked.score, OrderDual.toDual ranked.member.place)) <| by
    rintro ⟨a, m⟩ ⟨b, n⟩ h
    obtain ⟨hscore, hplace⟩ := Prod.mk.inj (toLex.injective h)
    rw [Ranked.mk.injEq]
    exact ⟨hscore, MemberId.place_inj hplace⟩

/-- The work of a parallel pass, split between workers: an arbitrary tree of
cuts. -/
inductive Workers : Type where
  | one
  | split (cut : ℕ) (left right : Workers)

/-- A parallel filter-map that collects in order. -/
def parFilterMap {α β : Type} (f : α → Option β) : Workers → List α → List β
  | .one, items => items.filterMap f
  | .split cut left right, items =>
    parFilterMap f left (items.take cut) ++ parFilterMap f right (items.drop cut)

/-- However the work is shared out, the results are put together in order. -/
theorem parFilterMap_eq {α β : Type} (f : α → Option β) (workers : Workers) (items : List α) :
    parFilterMap f workers items = items.filterMap f := by
  induction workers generalizing items with
  | one => rfl
  | split cut left right ihl ihr =>
    rw [parFilterMap, ihl, ihr, ← List.filterMap_append, List.take_append_drop]

variable (score : ItemId → MemberId → ℕ → S)

/-- `member`'s place in the ranking for `item`. -/
def Ranked.new (item : ItemId) (member : MemberId) (weight : ℕ) : Ranked S :=
  ⟨score item member weight, member⟩

namespace CustodyGroup

/-- The candidates of `item`, scored. -/
def ranked (group : CustodyGroup) (item : CustodyItem) : List (Ranked S) :=
  (group.candidates item).map fun entry => .new score item.item entry.1 entry.2

/-- The custodians of `item`, highest score first. -/
def custodians (sel : Selection (Ranked S)) (group : CustodyGroup) (item : CustodyItem) :
    List MemberId :=
  let slots := group.slots item
  let ranked := group.ranked score item
  let ranked := if ranked.length > slots then (sel.select slots ranked).take slots else ranked
  (descending ranked).map Ranked.member

/-- Whether `me` is one of `item`'s custodians, without scoring every member. -/
def isCustodian (group : CustodyGroup) (item : CustodyItem) (me : MemberId) : Bool :=
  let slots := group.slots item
  match group.weightOf me with
  | none => false
  | some weight =>
    if slots = 0 || item.creators.contains me then false
    else
      let mine : Ranked S := .new score item.item me weight
      let rivals := ((group.candidates item).filter fun entry => entry.1 ≠ me).filter fun entry =>
        .new score item.item entry.1 entry.2 > mine
      -- the `slots`-th rival to be found ends the search
      rivals[slots - 1]?.isNone

/-- The items of `items` that `me` is custodian of, in the order given. -/
def custodyOf (workers : Workers) (group : CustodyGroup) (me : MemberId)
    (items : List CustodyItem) : List ItemId :=
  if (group.weightOf me).isNone then []
  else
    let kept := fun item => if group.isCustodian score item me then some item.item else none
    if items.length < PARALLEL_FROM then items.filterMap kept else parFilterMap kept workers items

/-- The first member after `item`'s custodians, in score order, that `eligible`
admits. -/
def firstAfterCustodians (group : CustodyGroup) (item : CustodyItem) (eligible : MemberId → Bool) :
    Option MemberId :=
  (((descending (group.ranked score item)).drop (group.slots item)).map Ranked.member).find? eligible

/-! ## Every path is the same count -/

variable {group : CustodyGroup} {item : CustodyItem} {me : MemberId}

/-- An id has one entry. -/
theorem eq_of_mem_byId {entries : List (MemberId × ℕ)} (h : ById entries) {member : MemberId}
    {a b : ℕ} (ha : (member, a) ∈ entries) (hb : (member, b) ∈ entries) : a = b := by
  have hinj := List.inj_on_of_nodup_map (f := Prod.fst) (l := entries) ?_ ha hb rfl
  · exact congrArg Prod.snd hinj
  · refine List.pairwise_map.mpr (h.imp fun hlt heq => ?_)
    rw [heq] at hlt
    exact lt_irrefl _ hlt

theorem weightOf_eq_some {weight : ℕ} :
    group.weightOf me = some weight ↔ (me, weight) ∈ group.weighted := by
  simp only [weightOf, Option.map_eq_some_iff]
  constructor
  · rintro ⟨⟨member, w⟩, hfind, rfl⟩
    have hmem := List.mem_of_find?_eq_some hfind
    have hmember := List.find?_some hfind
    simp only [decide_eq_true_eq] at hmember
    exact hmember ▸ hmem
  · intro hmem
    rcases hfind : group.weighted.find? fun entry => entry.1 = me with _ | ⟨member, w⟩
    · have hnone := List.find?_eq_none.mp hfind _ hmem
      simp at hnone
    · have hfound := List.mem_of_find?_eq_some hfind
      have hmember := List.find?_some hfind
      simp only [decide_eq_true_eq] at hmember
      subst hmember
      exact ⟨(member, w), hfind, eq_of_mem_byId group.weighted_byId hfound hmem⟩

/-- A creator of an item is no candidate to keep it. -/
theorem mem_candidates {weight : ℕ} :
    (me, weight) ∈ group.candidates item ↔ (me, weight) ∈ group.weighted ∧ me ∉ item.creators := by
  simp [candidates]

theorem candidates_byId (group : CustodyGroup) (item : CustodyItem) :
    ById (group.candidates item) :=
  group.weighted_byId.filter _

omit [LinearOrder S] in
/-- Every candidate is ranked once, by its weight. -/
theorem mem_ranked {r : Ranked S} :
    r ∈ group.ranked score item ↔
      ∃ weight, (r.member, weight) ∈ group.candidates item ∧
        r = .new score item.item r.member weight := by
  simp only [ranked, List.mem_map]
  constructor
  · rintro ⟨⟨member, weight⟩, hmem, rfl⟩
    exact ⟨weight, hmem, rfl⟩
  · rintro ⟨weight, hmem, hr⟩
    exact ⟨_, hmem, hr.symm⟩

omit [LinearOrder S] in
theorem new_mem_ranked {weight : ℕ} (h : (me, weight) ∈ group.candidates item) :
    Ranked.new score item.item me weight ∈ group.ranked score item :=
  (mem_ranked score).mpr ⟨weight, h, rfl⟩

omit [LinearOrder S] in
theorem ranked_nodup (group : CustodyGroup) (item : CustodyItem) :
    (group.ranked score item).Nodup := by
  refine List.pairwise_map.mpr ((candidates_byId group item).imp ?_)
  intro a b hlt heq
  have hmember : a.1 = b.1 := congrArg Ranked.member heq
  rw [hmember] at hlt
  exact lt_irrefl _ hlt

/-- Selecting and cutting is cutting the sorted ranking. -/
theorem custodians_eq (sel : Selection (Ranked S)) :
    group.custodians score sel item =
      ((descending (group.ranked score item)).take (group.slots item)).map Ranked.member := by
  simp only [custodians]
  split
  · rename_i hlong
    rw [sel.descending_take hlong]
  · rename_i hshort
    rw [List.take_of_length_le]
    rw [(descending_perm _).length_eq]
    exact not_lt.mp hshort

/-- A custodian is a candidate with fewer than `slots` candidates above. -/
theorem mem_custodians (sel : Selection (Ranked S)) :
    me ∈ group.custodians score sel item ↔ ∃ weight, (me, weight) ∈ group.candidates item ∧
      Ranked.new score item.item me weight ∈
        top (group.slots item) (group.ranked score item).toFinset := by
  rw [custodians_eq, List.mem_map]
  constructor
  · rintro ⟨r, hr, rfl⟩
    have htop := (mem_take_descending (ranked_nodup score group item)).mp hr
    obtain ⟨weight, hmem, heq⟩ := (mem_ranked score).mp (List.mem_toFinset.mp (mem_top.mp htop).1)
    exact ⟨weight, hmem, heq ▸ htop⟩
  · rintro ⟨weight, -, htop⟩
    exact ⟨_, (mem_take_descending (ranked_nodup score group item)).mpr htop, rfl⟩

/-- The rivals found are the candidates above. -/
theorem length_rivals {weight : ℕ} (h : (me, weight) ∈ group.candidates item) :
    (((group.candidates item).filter fun entry => entry.1 ≠ me).filter fun entry =>
        (.new score item.item entry.1 entry.2 : Ranked S) > .new score item.item me weight).length =
      above (group.ranked score item).toFinset (.new score item.item me weight) := by
  rw [← length_filter_lt (ranked_nodup score group item), ranked, List.filter_map, List.length_map,
    List.filter_filter]
  congr 1
  refine List.filter_congr ?_
  rintro ⟨member, w⟩ hentry
  simp only [Function.comp, gt_iff_lt, Bool.and_eq_left_iff_imp, decide_eq_true_eq]
  rintro hlt rfl
  -- nobody outranks themselves
  obtain rfl := eq_of_mem_byId (candidates_byId group item) hentry h
  exact lt_irrefl _ hlt

/-- **A custodian is one of the first in rank**: a member counts those that go before it,
and nobody is sorted. -/
theorem isCustodian_iff :
    group.isCustodian score item me = true ↔ ∃ weight, (me, weight) ∈ group.candidates item ∧
      Ranked.new score item.item me weight ∈
        top (group.slots item) (group.ranked score item).toFinset := by
  simp only [isCustodian]
  rcases hweight : group.weightOf me with _ | weight
  · simp only [Bool.false_eq_true, false_iff, not_exists, not_and]
    intro weight hmem
    rw [weightOf_eq_some.mpr (mem_candidates.mp hmem).1] at hweight
    cases hweight
  · have hmem := weightOf_eq_some.mp hweight
    simp only
    split
    · rename_i hnot
      simp only [Bool.or_eq_true, decide_eq_true_eq, List.contains_iff_mem] at hnot
      simp only [Bool.false_eq_true, false_iff, not_exists, not_and]
      intro w hcandidate htop
      rcases hnot with hzero | hcreator
      · have hlt := (mem_top.mp htop).2
        omega
      · exact (mem_candidates.mp hcandidate).2 hcreator
    · rename_i hnot
      simp only [Bool.or_eq_true, decide_eq_true_eq, List.contains_iff_mem, not_or] at hnot
      have hcandidate := mem_candidates.mpr ⟨hmem, hnot.2⟩
      rw [Option.isNone_iff_eq_none, List.getElem?_eq_none_iff, length_rivals score hcandidate]
      constructor
      · intro hle
        refine ⟨weight, hcandidate, mem_top.mpr ⟨?_, by omega⟩⟩
        exact List.mem_toFinset.mpr (new_mem_ranked score hcandidate)
      · rintro ⟨w, hw, htop⟩
        obtain rfl := eq_of_mem_byId (candidates_byId group item) hw hcandidate
        have hlt := (mem_top.mp htop).2
        omega

/-- What a member keeps is asked item by item. -/
theorem custodyOf_eq (workers : Workers) (items : List CustodyItem) :
    group.custodyOf score workers me items =
      (items.filter fun item => group.isCustodian score item me).map CustodyItem.item := by
  have hkept : (items.filterMap fun item =>
      if group.isCustodian score item me then some item.item else none) =
      (items.filter fun item => group.isCustodian score item me).map CustodyItem.item := by
    induction items with
    | nil => rfl
    | cons item items ih =>
      rcases hitem : group.isCustodian score item me with _ | _ <;>
        simp [hitem, ih]
  simp only [custodyOf, parFilterMap_eq, ite_self, hkept]
  split
  · -- without a weight nothing is kept, so there was nothing to look at
    rename_i hnone
    rw [Option.isNone_iff_eq_none] at hnone
    have hfalse : ∀ item ∈ items, ¬group.isCustodian score item me = true := by
      intro item _
      simp [isCustodian, hnone]
    rw [List.filter_eq_nil_iff.mpr hfalse, List.map_nil]
  · rfl

/-- The first after the custodians, by what it is among the candidates. -/
theorem firstAfterCustodians_eq_some (sel : Selection (Ranked S)) (eligible : MemberId → Bool)
    {member : MemberId} :
    group.firstAfterCustodians score item eligible = some member ↔
      ∃ weight, (member, weight) ∈ group.candidates item ∧ eligible member = true ∧
        member ∉ group.custodians score sel item ∧
        ∀ other w, (other, w) ∈ group.candidates item → eligible other = true →
          other ∉ group.custodians score sel item →
          Ranked.new score item.item other w ≤ Ranked.new score item.item member weight := by
  have hnodup := ranked_nodup score group item
  have hstrict := (descending_strict hnodup).sublist (List.drop_sublist (group.slots item) _)
  -- who is left after the cut, as candidates
  have hleft : ∀ {m w}, (m, w) ∈ group.candidates item →
      (Ranked.new score item.item m w ∈ (descending (group.ranked score item)).drop (group.slots item) ↔
        m ∉ group.custodians score sel item) := by
    intro m w hmem
    rw [mem_drop_descending hnodup, mem_custodians]
    refine ⟨?_, fun hnot => ⟨new_mem_ranked score hmem, fun htop => hnot ⟨w, hmem, htop⟩⟩⟩
    rintro ⟨-, hnot⟩ ⟨w', hmem', htop⟩
    obtain rfl := eq_of_mem_byId (candidates_byId group item) hmem' hmem
    exact hnot htop
  rw [firstAfterCustodians, List.find?_map, Option.map_eq_some_iff]
  constructor
  · rintro ⟨r, hfind, rfl⟩
    obtain ⟨hr, heligible, hmax⟩ := (find?_of_sorted hstrict).mp hfind
    obtain ⟨weight, hmem, heq⟩ := (mem_ranked score).mp ((mem_drop_descending hnodup).mp hr).1
    refine ⟨weight, hmem, heligible, (hleft hmem).mp (heq ▸ hr), fun other w hother he hnot => ?_⟩
    rw [← heq]
    exact hmax _ ((hleft hother).mpr hnot) he
  · rintro ⟨weight, hmem, heligible, hnot, hmax⟩
    refine ⟨Ranked.new score item.item member weight, (find?_of_sorted hstrict).mpr ⟨?_, ?_, ?_⟩, rfl⟩
    · exact (hleft hmem).mpr hnot
    · exact heligible
    · intro r hr he
      obtain ⟨w, hother, heq⟩ := (mem_ranked score).mp ((mem_drop_descending hnodup).mp hr).1
      rw [heq]
      exact hmax _ w hother he ((hleft hother).mp (heq ▸ hr))

/-- Nobody comes after the custodians exactly if everybody eligible is one. -/
theorem firstAfterCustodians_eq_none (sel : Selection (Ranked S)) (eligible : MemberId → Bool) :
    group.firstAfterCustodians score item eligible = none ↔
      ∀ member weight, (member, weight) ∈ group.candidates item → eligible member = true →
        member ∈ group.custodians score sel item := by
  have hnodup := ranked_nodup score group item
  rw [firstAfterCustodians, List.find?_map, Option.map_eq_none_iff, List.find?_eq_none]
  constructor
  · intro hnone member weight hmem heligible
    rw [mem_custodians]
    refine ⟨weight, hmem, ?_⟩
    by_contra hnot
    exact hnone _ ((mem_drop_descending hnodup).mpr ⟨new_mem_ranked score hmem, hnot⟩) heligible
  · intro hall r hr heligible
    obtain ⟨hranked, hnot⟩ := (mem_drop_descending hnodup).mp hr
    obtain ⟨weight, hmem, heq⟩ := (mem_ranked score).mp hranked
    obtain ⟨w, hmem', htop⟩ := (mem_custodians score sel).mp (hall r.member weight hmem heligible)
    obtain rfl := eq_of_mem_byId (candidates_byId group item) hmem' hmem
    exact hnot (heq ▸ htop)

/-- **Every path that decides custody agrees.** In any group, for any score, any
selection algorithm and any way of sharing the work: a member is a custodian by
counting exactly when the sorted list names it; the items a member keeps are
those it is custodian of, in order; and the first after the custodians is the
highest ranked of the eligible members that have a weight and are neither
custodians nor creators, and is absent exactly when there is none. -/
theorem custody_paths_agree (sel : Selection (Ranked S)) (workers : Workers)
    (group : CustodyGroup) :
    (∀ item me, group.isCustodian score item me = true ↔ me ∈ group.custodians score sel item) ∧
    (∀ me items, group.custodyOf score workers me items =
      (items.filter fun item => group.isCustodian score item me).map CustodyItem.item) ∧
    ∀ item eligible,
      (∀ member, group.firstAfterCustodians score item eligible = some member ↔
        ∃ weight, ((member, weight) ∈ group.weighted ∧ member ∉ item.creators) ∧
          eligible member = true ∧ member ∉ group.custodians score sel item ∧
          ∀ other w, ((other, w) ∈ group.weighted ∧ other ∉ item.creators) →
            eligible other = true → other ∉ group.custodians score sel item →
            Ranked.new score item.item other w ≤ Ranked.new score item.item member weight) ∧
      (group.firstAfterCustodians score item eligible = none ↔
        ∀ member weight, ((member, weight) ∈ group.weighted ∧ member ∉ item.creators) →
          eligible member = true → member ∈ group.custodians score sel item) := by
  refine ⟨fun item me => ?_, fun me items => custodyOf_eq score workers items,
    fun item eligible => ⟨fun member => ?_, ?_⟩⟩
  · rw [isCustodian_iff, mem_custodians]
  · simp only [← mem_candidates]
    exact firstAfterCustodians_eq_some score sel eligible
  · simp only [← mem_candidates]
    exact firstAfterCustodians_eq_none score sel eligible

end CustodyGroup

end Score

end Distlib
