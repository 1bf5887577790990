import Distlib.Consensus.State
import Distlib.Custody.View
import Distlib.Lib.Overflow
import Distlib.Lib.Ranking
import Distlib.Sync.Document

/-!
# Who is suspected

A member with probe failures that count, written within the group's window by probers still in
the group, is a suspect; suspects are listed the most probers first, and among as many the most
failures in a row.

How many failed in a row is a number each prober writes as it likes. Those about one member are
added up in 32 bits, and only to compare: with one suspect nothing is added up, and with two a
sum that does not fit is a panic in a program that checks, and in one that does not makes a
member stand where what is left of its sum puts it. One prober's entry is enough.

`ranked_iff` says for which failures the list is what it should be.
-/

namespace Distlib

open OrdMap Ranking

/-- How many probers' failures make a member red. -/
def RED_FROM_PROBERS : ℕ := 2

/-- One member's failures that count. -/
structure Suspect where
  member : MemberId
  /-- one per prober, the latest first -/
  failures : List RecordedFailure
  deriving DecidableEq

/-- Whether enough probers failed it. -/
def Suspect.isRed (suspect : Suspect) : Bool := RED_FROM_PROBERS ≤ suspect.failures.length

/-- Its failures in a row, over every prober; `none` is a panic. -/
def Suspect.inARow (checks : OverflowChecks) (suspect : Suspect) : Option ℕ :=
  checks.sum 32 (suspect.failures.map fun recorded => recorded.failure.inARow.toNat)

/-- How long `recorded` has left in `window` at `now`, all in nanoseconds; `none` once it is
out. -/
def leftInWindow (recorded : RecordedFailure) (window : ℕ) (now : ℤ) : Option ℕ :=
  let age := now.toNat - recorded.written.toNat * 1000
  (checkedSub window age).filter fun left => left ≠ 0

/-- The group's `failure_window_secs`: how long a failure counts. -/
def failureWindow (membership : MembershipState) : ℕ :=
  membership.settings.failureWindowSecs * 1000000000

/-- The later written first. -/
def Later (a b : RecordedFailure) : Prop := b.written ≤ a.written

instance : DecidableRel Later := fun a b => inferInstanceAs (Decidable (b.written ≤ a.written))

instance : Std.Total Later := ⟨fun a b => UInt64.le_total b.written a.written⟩

instance : IsTrans RecordedFailure Later := ⟨fun _ _ _ hab hbc => UInt64.le_trans hbc hab⟩

/-- One more failure, under the member it is of. -/
def byCustodian (byMember : OrdMap MemberId (List RecordedFailure)) (recorded : RecordedFailure) :
    OrdMap MemberId (List RecordedFailure) :=
  byMember.insert recorded.custodian (((byMember[recorded.custodian]?).getD []) ++ [recorded])

/-- What suspects are sorted by: the most probers first, then the most failures in a row. -/
def Suspect.key (checks : OverflowChecks) (suspect : Suspect) : Option (ℕ ×ₗ ℕ)ᵒᵈ :=
  (suspect.inARow checks).map fun inARow =>
    OrderDual.toDual (toLex (suspect.failures.length, inARow))

section

variable (checks : OverflowChecks) (latestFirst : Sorting Later) (failures : List RecordedFailure)

/-- Whether a failure counts. -/
def counts (isMember : MemberId → Bool) (window : ℕ) (now : ℤ) (recorded : RecordedFailure) :
    Bool :=
  isMember recorded.custodian && isMember recorded.prober &&
    (leftInWindow recorded window now).isSome

/-- The suspects, with who is a member and the window given. -/
def suspectsAmong (isMember : MemberId → Bool) (window : ℕ) (now : ℤ) : Option (List Suspect) :=
  let byMember := (failures.filter (counts isMember window now)).foldl byCustodian ∅
  let suspects := byMember.toList.map fun entry => ⟨entry.1, latestFirst.sort entry.2⟩
  sortByKey (Suspect.key checks) suspects

/-- The members failures that count make suspects, as of `now`. -/
def suspects (membership : MembershipState) (now : ℤ) : Option (List Suspect) :=
  suspectsAmong checks latestFirst failures membership.isMember (failureWindow membership) now

end

/-! ## What the list should be -/

section Evidence

variable (failures : List RecordedFailure) (isMember : MemberId → Bool) (window : ℕ) (now : ℤ)

/-- The failures of a member that count. -/
def evidence (member : MemberId) : List RecordedFailure :=
  failures.filter fun recorded => counts isMember window now recorded ∧ recorded.custodian = member

/-- Who failed a member. -/
def probersOf (member : MemberId) : Finset MemberId :=
  ((evidence failures isMember window now member).map RecordedFailure.prober).toFinset

/-- How many failed in a row, over every prober: the exact sum. -/
def inARowOf (member : MemberId) : ℕ :=
  ((evidence failures isMember window now member).map
    fun recorded => recorded.failure.inARow.toNat).sum

/-- `first` may stand before `second`: more probers failed it, or as many, and in a row no
fewer. -/
def MayPrecede (first second : MemberId) : Prop :=
  (probersOf failures isMember window now second).card <
      (probersOf failures isMember window now first).card ∨
    (probersOf failures isMember window now second).card =
        (probersOf failures isMember window now first).card ∧
      inARowOf failures isMember window now second ≤ inARowOf failures isMember window now first

/-- Exactly the members with a failure that counts, each with those of its failures, the latest
first, and in order. -/
structure RankedRight (found : List Suspect) : Prop where
  once : (found.map Suspect.member).Nodup
  all : ∀ member, member ∈ found.map Suspect.member ↔
    evidence failures isMember window now member ≠ []
  theirs : ∀ suspect ∈ found, suspect.failures.Pairwise Later ∧
    suspect.failures.Perm (evidence failures isMember window now suspect.member)
  order : (found.map Suspect.member).Pairwise (MayPrecede failures isMember window now)

/-- Where two members are failed by as many probers, the one with the fewer in a row has the
smaller word too, or the same and comes later by its id. -/
def KeepsOrder (word : MemberId → ℕ) : Prop :=
  ∀ fewer more,
    (probersOf failures isMember window now fewer).card =
        (probersOf failures isMember window now more).card →
      inARowOf failures isMember window now fewer < inARowOf failures isMember window now more →
        word fewer < word more ∨ word fewer = word more ∧ more.place < fewer.place

/-- For a program that checks: there are not two suspects, or the failures in a row of each fit
32 bits. For one that does not: what 32 bits have of them keeps the order. -/
def Fits : OverflowChecks → Prop
  | .on =>
    (∀ first second, evidence failures isMember window now first ≠ [] →
      evidence failures isMember window now second ≠ [] → first = second) ∨
    ∀ member, inARowOf failures isMember window now member < 2 ^ 32
  | .off => KeepsOrder failures isMember window now
      fun member => inARowOf failures isMember window now member % 2 ^ 32

end Evidence

/-! ## The members with evidence -/

theorem MemberId.compare_eq_lt {a b : MemberId} : compare a b = .lt ↔ a.place < b.place :=
  compareOfLessAndEq_eq_lt

section Listing

variable {latestFirst : Sorting Later} {failures : List RecordedFailure}
  {isMember : MemberId → Bool} {window : ℕ} {now : ℤ}

/-- What is under each member: its failures, in the order they came in. -/
theorem getElem?_byCustodian (counted : List RecordedFailure) (member : MemberId) :
    (counted.foldl byCustodian ∅)[member]? =
      if counted.filter (fun recorded => recorded.custodian = member) = [] then none
      else some (counted.filter fun recorded => recorded.custodian = member) := by
  induction counted using List.reverseRecOn with
  | nil => simp
  | append_singleton counted last ih =>
    rw [List.foldl_append, List.foldl_cons, List.foldl_nil, byCustodian,
      Std.ExtTreeMap.getElem?_insert, List.filter_append]
    by_cases heq : last.custodian = member
    · subst heq
      rw [if_pos Std.ReflCmp.compare_self, ih]
      split
      · rename_i hnone
        simp [hnone]
      · simp
    · rw [if_neg fun hcompare => heq (Std.LawfulEqCmp.eq_of_compare hcompare), ih]
      simp [heq]

theorem evidence_eq (member : MemberId) :
    evidence failures isMember window now member =
      (failures.filter (counts isMember window now)).filter
        fun recorded => recorded.custodian = member := by
  rw [evidence, List.filter_filter]
  refine List.filter_congr fun recorded _ => ?_
  simp [Bool.and_comm]

/-- The suspects before they are sorted. -/
def unranked (latestFirst : Sorting Later) (failures : List RecordedFailure)
    (isMember : MemberId → Bool) (window : ℕ) (now : ℤ) : List Suspect :=
  ((failures.filter (counts isMember window now)).foldl byCustodian ∅).toList.map
    fun entry => ⟨entry.1, latestFirst.sort entry.2⟩

theorem mem_unranked {suspect : Suspect} :
    suspect ∈ unranked latestFirst failures isMember window now ↔
      evidence failures isMember window now suspect.member ≠ [] ∧
        suspect.failures =
          latestFirst.sort (evidence failures isMember window now suspect.member) := by
  rw [unranked, List.mem_map, evidence_eq]
  constructor
  · rintro ⟨⟨member, theirs⟩, hentry, rfl⟩
    have hget := Std.ExtTreeMap.mem_toList_iff_getElem?_eq_some.mp hentry
    rw [getElem?_byCustodian] at hget
    split at hget
    · cases hget
    · rename_i hsome
      obtain rfl := Option.some.inj hget
      exact ⟨hsome, rfl⟩
  · rintro ⟨hsome, hfailures⟩
    have hget := getElem?_byCustodian (failures.filter (counts isMember window now)) suspect.member
    rw [if_neg hsome] at hget
    refine ⟨_, Std.ExtTreeMap.mem_toList_iff_getElem?_eq_some.mpr hget, ?_⟩
    rw [← hfailures]

/-- They come in the order of their ids. -/
theorem pairwise_unranked :
    (unranked latestFirst failures isMember window now).Pairwise
      fun a b => a.member.place < b.member.place := by
  refine List.pairwise_map.mpr (Std.ExtTreeMap.ordered_keys_toList.imp ?_)
  exact fun hlt => MemberId.compare_eq_lt.mp hlt

variable (latestFirst) in
/-- A member with evidence is among them. -/
theorem exists_unranked {member : MemberId}
    (h : evidence failures isMember window now member ≠ []) :
    ∃ suspect ∈ unranked latestFirst failures isMember window now, suspect.member = member :=
  ⟨⟨member, latestFirst.sort (evidence failures isMember window now member)⟩,
    mem_unranked.mpr ⟨h, rfl⟩, rfl⟩

theorem perm_evidence {suspect : Suspect}
    (h : suspect ∈ unranked latestFirst failures isMember window now) :
    suspect.failures.Perm (evidence failures isMember window now suspect.member) := by
  rw [(mem_unranked.mp h).2]
  exact latestFirst.perm _

/-- In whatever order they stand, all that may be wrong is the order. -/
theorem rankedRight_iff_order {found : List Suspect}
    (h : found.Perm (unranked latestFirst failures isMember window now)) :
    RankedRight failures isMember window now found ↔
      (found.map Suspect.member).Pairwise (MayPrecede failures isMember window now) := by
  refine ⟨RankedRight.order, fun horder => ⟨?_, fun member => ?_, fun suspect hmem => ?_, horder⟩⟩
  · refine (h.map Suspect.member).nodup_iff.mpr (List.pairwise_map.mpr (pairwise_unranked.imp ?_))
    intro a b hlt heq
    rw [heq] at hlt
    exact lt_irrefl _ hlt
  · rw [List.mem_map]
    constructor
    · rintro ⟨suspect, hmem, rfl⟩
      exact (mem_unranked.mp (h.mem_iff.mp hmem)).1
    · intro hsome
      obtain ⟨suspect, hmem, hmember⟩ := exists_unranked latestFirst hsome
      exact ⟨suspect, h.mem_iff.mpr hmem, hmember⟩
  · have hmem := h.mem_iff.mp hmem
    refine ⟨?_, perm_evidence hmem⟩
    rw [(mem_unranked.mp hmem).2]
    exact latestFirst.sorted _

/-- The failures in a row, added up in a word. -/
theorem inARow_eq_fit (checks : OverflowChecks) {suspect : Suspect}
    (h : suspect ∈ unranked latestFirst failures isMember window now) :
    suspect.inARow checks =
      checks.fit 32 (inARowOf failures isMember window now suspect.member) := by
  rw [Suspect.inARow, OverflowChecks.sum_eq_fit, inARowOf, ((perm_evidence h).map _).sum_eq]

theorem probersOf_nonempty {member : MemberId}
    (h : evidence failures isMember window now member ≠ []) :
    (probersOf failures isMember window now member).card ≠ 0 := by
  rw [Ne, Finset.card_eq_zero, probersOf, List.toFinset_eq_empty_iff, List.map_eq_nil_iff]
  exact h

/-- With one entry for each prober and custodian at most, a suspect has as many failures as
probers. -/
theorem length_eq_card {suspect : Suspect}
    (hone : (failures.map fun recorded => (recorded.custodian, recorded.prober)).Nodup)
    (h : suspect ∈ unranked latestFirst failures isMember window now) :
    suspect.failures.length = (probersOf failures isMember window now suspect.member).card := by
  have hpairs : ((evidence failures isMember window now suspect.member).map
      fun recorded => (recorded.custodian, recorded.prober)).Nodup :=
    hone.sublist (List.filter_sublist.map _)
  -- they are all of one custodian, so their probers differ
  have hprobers : ((evidence failures isMember window now suspect.member).map
      RecordedFailure.prober).Nodup := by
    refine List.Nodup.of_map (Prod.mk suspect.member) ?_
    rw [List.map_map]
    refine (List.map_congr_left fun recorded hrecorded => ?_) ▸ hpairs
    have hof := (List.mem_filter.mp hrecorded).2
    simp only [Bool.decide_and, Bool.decide_eq_true, Bool.and_eq_true, decide_eq_true_eq] at hof
    rw [Function.comp_apply, hof.2]
  rw [probersOf, List.toFinset_card_of_nodup hprobers, List.length_map,
    (perm_evidence h).length_eq]

/-- A member is red when enough probers failed it. -/
theorem isRed_iff {suspect : Suspect}
    (hone : (failures.map fun recorded => (recorded.custodian, recorded.prober)).Nodup)
    (h : suspect ∈ unranked latestFirst failures isMember window now) :
    suspect.isRed = true ↔
      RED_FROM_PROBERS ≤ (probersOf failures isMember window now suspect.member).card := by
  rw [Suspect.isRed, decide_eq_true_iff, length_eq_card hone h]

/-- How suspects with a word each are sorted: of two failed by as many, the one with the greater
word first, and with the same word the one with the lower id. -/
def StandsBefore (failures : List RecordedFailure) (isMember : MemberId → Bool) (window : ℕ)
    (now : ℤ) (word : MemberId → ℕ) (first second : MemberId) : Prop :=
  (probersOf failures isMember window now second).card <
      (probersOf failures isMember window now first).card ∨
    (probersOf failures isMember window now second).card =
        (probersOf failures isMember window now first).card ∧
      (word second < word first ∨ word second = word first ∧ first.place < second.place)

/-- With a word for each, all are listed, sorted. -/
theorem exists_sorted {checks : OverflowChecks} {word : MemberId → ℕ}
    (hone : (failures.map fun recorded => (recorded.custodian, recorded.prober)).Nodup)
    (hword : ∀ suspect ∈ unranked latestFirst failures isMember window now,
      suspect.inARow checks = some (word suspect.member)) :
    ∃ found, suspectsAmong checks latestFirst failures isMember window now = some found ∧
      found.Perm (unranked latestFirst failures isMember window now) ∧
      (found.map Suspect.member).Pairwise
        (StandsBefore failures isMember window now word) := by
  let keyOf := fun suspect : Suspect =>
    OrderDual.toDual (toLex (suspect.failures.length, word suspect.member))
  have hkey : ∀ suspect ∈ unranked latestFirst failures isMember window now,
      suspect.key checks = some (keyOf suspect) := by
    intro suspect hmem
    rw [Suspect.key, hword suspect hmem]
    rfl
  have total : Std.Total fun a b : Suspect => keyOf a ≤ keyOf b := ⟨fun a b => le_total _ _⟩
  have trans : IsTrans Suspect fun a b => keyOf a ≤ keyOf b := ⟨fun _ _ _ => le_trans⟩
  have hperm := List.perm_insertionSort (fun a b => keyOf a ≤ keyOf b)
    (unranked latestFirst failures isMember window now)
  refine ⟨_, sortByKey_eq_some hkey, hperm, List.pairwise_map.mpr ?_⟩
  refine (pairwise_insertionSort_stable pairwise_unranked).imp_of_mem ?_
  intro a b ha hb hstands
  rw [StandsBefore, ← length_eq_card hone (hperm.mem_iff.mp ha),
    ← length_eq_card hone (hperm.mem_iff.mp hb)]
  obtain ⟨hle, hlevel⟩ := hstands
  rw [OrderDual.toDual_le_toDual, Prod.Lex.toLex_le_toLex] at hle hlevel
  simp only at hle hlevel
  omega

/-- What is sorted by words stands right exactly when the words keep the order. -/
theorem order_iff_keepsOrder {word : MemberId → ℕ} {found : List Suspect}
    (hperm : found.Perm (unranked latestFirst failures isMember window now))
    (hsorted : (found.map Suspect.member).Pairwise
      (StandsBefore failures isMember window now word)) :
    (found.map Suspect.member).Pairwise (MayPrecede failures isMember window now) ↔
      KeepsOrder failures isMember window now word := by
  constructor
  · intro horder fewer more hcard hfewer
    -- more has evidence, so fewer has
    have hmore : evidence failures isMember window now more ≠ [] := by
      intro hnone
      rw [inARowOf, inARowOf, hnone] at hfewer
      simp at hfewer
    have hfewerSome : evidence failures isMember window now fewer ≠ [] := by
      intro hnone
      refine probersOf_nonempty hmore ?_
      rw [← hcard, probersOf, hnone]
      rfl
    have hlisted : ∀ {member}, evidence failures isMember window now member ≠ [] →
        member ∈ found.map Suspect.member := by
      intro member hsome
      obtain ⟨suspect, hmem, rfl⟩ := exists_unranked latestFirst hsome
      exact List.mem_map_of_mem (hperm.mem_iff.mpr hmem)
    have hne : fewer ≠ more := by
      rintro rfl
      exact lt_irrefl _ hfewer
    let Either := fun a b => StandsBefore failures isMember window now word a b ∧
      MayPrecede failures isMember window now a b
    have symm : Std.Symm fun a b => Either a b ∨ Either b a := ⟨fun _ _ => Or.symm⟩
    have hboth : (found.map Suspect.member).Pairwise fun a b => Either a b ∨ Either b a :=
      (hsorted.and horder).imp Or.inl
    rcases hboth.forall (hlisted hfewerSome) (hlisted hmore) hne with ⟨-, hmay⟩ | ⟨hstands, -⟩
    · rw [MayPrecede] at hmay
      omega
    · rw [StandsBefore] at hstands
      omega
  · intro hkeeps
    refine hsorted.imp fun {first second} hstands => ?_
    rcases hstands with hprobers | ⟨hcard, hwords⟩
    · exact Or.inl hprobers
    · refine Or.inr ⟨hcard, ?_⟩
      by_contra hfewer
      have hkept := hkeeps first second hcard.symm (not_le.mp hfewer)
      omega

/-- **A list with a word for each suspect** is right exactly when the words keep the order. -/
theorem ranked_iff_keepsOrder {checks : OverflowChecks} {word : MemberId → ℕ}
    (hone : (failures.map fun recorded => (recorded.custodian, recorded.prober)).Nodup)
    (hword : ∀ suspect ∈ unranked latestFirst failures isMember window now,
      suspect.inARow checks = some (word suspect.member)) :
    (∃ found, suspectsAmong checks latestFirst failures isMember window now = some found ∧
        RankedRight failures isMember window now found) ↔
      KeepsOrder failures isMember window now word := by
  obtain ⟨found, hfound, hperm, hsorted⟩ := exists_sorted hone hword
  rw [← order_iff_keepsOrder hperm hsorted, ← rankedRight_iff_order hperm, hfound]
  exact ⟨fun ⟨_, heq, hright⟩ => Option.some.inj heq ▸ hright, fun hright => ⟨_, rfl, hright⟩⟩

/-- There are not two suspects when evidence is of one member at most. -/
theorem length_unranked_lt_two_iff :
    (unranked latestFirst failures isMember window now).length < 2 ↔
      ∀ first second, evidence failures isMember window now first ≠ [] →
        evidence failures isMember window now second ≠ [] → first = second := by
  constructor
  · intro hfew first second hfirst hsecond
    obtain ⟨a, ha, rfl⟩ := exists_unranked latestFirst hfirst
    obtain ⟨b, hb, rfl⟩ := exists_unranked latestFirst hsecond
    rcases hlist : unranked latestFirst failures isMember window now with _ | ⟨c, _ | ⟨d, rest⟩⟩
    · rw [hlist] at ha
      cases ha
    · rw [hlist, List.mem_singleton] at ha hb
      rw [ha, hb]
    · rw [hlist] at hfew
      simp at hfew
  · intro hone
    have hplaces : (unranked latestFirst failures isMember window now).Pairwise
        fun a b => a.member.place < b.member.place := pairwise_unranked
    rcases hlist : unranked latestFirst failures isMember window now with _ | ⟨c, _ | ⟨d, rest⟩⟩
    · exact Nat.zero_lt_two
    · exact Nat.one_lt_two
    · have hmem : ∀ suspect ∈ unranked latestFirst failures isMember window now,
          evidence failures isMember window now suspect.member ≠ [] :=
        fun suspect hsuspect => (mem_unranked.mp hsuspect).1
      rw [hlist] at hmem
      have heq := hone c.member d.member (hmem c (by simp)) (hmem d (by simp))
      rw [hlist] at hplaces
      have hlt := (List.pairwise_cons.mp hplaces).1 d List.mem_cons_self
      rw [heq] at hlt
      exact absurd hlt (lt_irrefl _)

/-- A program that checks has the list right when there is at most one suspect or every sum
fits. -/
theorem ranked_on_iff
    (hone : (failures.map fun recorded => (recorded.custodian, recorded.prober)).Nodup) :
    (∃ found, suspectsAmong .on latestFirst failures isMember window now = some found ∧
        RankedRight failures isMember window now found) ↔
      Fits failures isMember window now .on := by
  by_cases hfits : ∀ member, inARowOf failures isMember window now member < 2 ^ 32
  · have hexact : ∀ suspect ∈ unranked latestFirst failures isMember window now,
        suspect.inARow .on = some (inARowOf failures isMember window now suspect.member) := by
      intro suspect hmem
      rw [inARow_eq_fit .on hmem, OverflowChecks.fit_of_lt (hfits _)]
    exact iff_of_true ((ranked_iff_keepsOrder hone hexact).mpr fun _ _ _ hfewer => Or.inl hfewer)
      (Or.inr hfits)
  · by_cases hfew : (unranked latestFirst failures isMember window now).length < 2
    · refine iff_of_true ⟨_, if_pos hfew, (rankedRight_iff_order (.refl _)).mpr ?_⟩
        (Or.inl (length_unranked_lt_two_iff.mp hfew))
      rcases hlist : unranked latestFirst failures isMember window now with _ | ⟨c, _ | ⟨d, rest⟩⟩
      · exact List.Pairwise.nil
      · exact List.pairwise_singleton _ _
      · rw [hlist] at hfew
        simp at hfew
    · -- a sum that does not fit is needed, and there is none
      obtain ⟨member, hover⟩ := not_forall.mp hfits
      have hsome : evidence failures isMember window now member ≠ [] := by
        intro hnone
        rw [inARowOf, hnone] at hover
        simp at hover
      obtain ⟨suspect, hmem, rfl⟩ := exists_unranked latestFirst hsome
      have hlost : suspectsAmong .on latestFirst failures isMember window now = none := by
        refine sortByKey_eq_none (not_lt.mp hfew) ⟨suspect, hmem, ?_⟩
        rw [Suspect.key, inARow_eq_fit .on hmem, OverflowChecks.fit_on_eq_none hover]
        rfl
      refine iff_of_false ?_ ?_
      · rintro ⟨found, hfound, -⟩
        rw [hlost] at hfound
        cases hfound
      · rintro (hsingle | hfits')
        · exact hfew (length_unranked_lt_two_iff.mpr hsingle)
        · exact hfits hfits'

end Listing

/-- **Suspects are ranked by what was recorded** exactly when the sums of failures in a row fit:
whatever the group, window and time, `suspectsAmong` lists each member with failures that count,
with those, the latest first, and in the order of probers and then of the exact sums. -/
theorem ranked_iff (checks : OverflowChecks) (latestFirst : Sorting Later)
    (failures : List RecordedFailure) (isMember : MemberId → Bool) (window : ℕ) (now : ℤ)
    (hone : (failures.map fun recorded => (recorded.custodian, recorded.prober)).Nodup) :
    (∃ found, suspectsAmong checks latestFirst failures isMember window now = some found ∧
        RankedRight failures isMember window now found) ↔
      Fits failures isMember window now checks := by
  cases checks with
  | on => exact ranked_on_iff hone
  | off =>
    refine ranked_iff_keepsOrder hone fun suspect hmem => ?_
    rw [inARow_eq_fit .off hmem, OverflowChecks.fit_off]

/-- No member has more failures in a row than there are. -/
theorem inARowOf_le (failures : List RecordedFailure) (isMember : MemberId → Bool) (window : ℕ)
    (now : ℤ) (member : MemberId) :
    inARowOf failures isMember window now member ≤
      (failures.map fun recorded => recorded.failure.inARow.toNat).sum :=
  (List.filter_sublist.map _).sum_le_sum fun _ _ => Nat.zero_le _

section Overflowing

/-! Four members, two of which fail the probes of the others. -/

/-- The group, founded by its four members. -/
def four : MembershipState :=
  MembershipState.new.withFounders ⟨1⟩
    ([⟨1⟩, ⟨2⟩, ⟨3⟩, ⟨4⟩].map fun member => (⟨member, ""⟩, .lookupOnly)) default

/-- `custodian` failed by `prober`, as long ago as time is told. -/
def failed (custodian prober : MemberId) (inARow : UInt32) : RecordedFailure where
  custodian := custodian
  prober := prober
  failure := ⟨⟨1⟩, ⟨2⟩, 0, inARow⟩
  written := 0

/-- The third and the fourth fail the first and the second, three times each at most. -/
def few : List RecordedFailure :=
  [failed ⟨1⟩ ⟨3⟩ 1, failed ⟨1⟩ ⟨4⟩ 1, failed ⟨2⟩ ⟨3⟩ 1, failed ⟨2⟩ ⟨4⟩ 3]

/-- The sums fit, so the list is right. -/
theorem few_ranked :
    ∃ found, suspects .on (.insertion Later) few four 1 = some found ∧
      RankedRight few four.isMember (failureWindow four) 1 found :=
  (ranked_iff .on (.insertion Later) few four.isMember (failureWindow four) 1 (by decide)).mpr
    (Or.inr fun member => (inARowOf_le few four.isMember _ 1 member).trans_lt (by decide))

/-- The third writes as many as 32 bits hold, of the first. -/
def overflowing : List RecordedFailure :=
  [failed ⟨1⟩ ⟨3⟩ 0xffffffff, failed ⟨1⟩ ⟨4⟩ 1, failed ⟨2⟩ ⟨3⟩ 1, failed ⟨2⟩ ⟨4⟩ 1]

/-- A program that checks panics. One that does not lists the second before the first, which
has as many probers and more in a row. -/
theorem overflowing_misranked :
    (overflowing.map fun recorded => (recorded.custodian, recorded.prober)).Nodup ∧
      suspects .on (.insertion Later) overflowing four 1 = none ∧
      (suspects .off (.insertion Later) overflowing four 1).map (·.map Suspect.member) =
        some [⟨2⟩, ⟨1⟩] ∧
      ¬MayPrecede overflowing four.isMember (failureWindow four) 1 ⟨2⟩ ⟨1⟩ := by
  refine ⟨by decide, by decide +kernel, by decide +kernel, ?_⟩
  rw [MayPrecede]
  decide +kernel

end Overflowing

end Distlib
