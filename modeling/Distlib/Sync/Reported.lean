import Distlib.Sync.Complete

/-!
# Whether every change of availability is reported

Pins, coverage and emergency copies look at what a node knows of the holders
only when they are told that it changed. A statement is said to change something
by comparing its lists with the last ones, not the sets they come to; and while
it is taken in, the last change is taken back and the new one applied, whether
they differ or not.

No change of a set goes unreported: the same lists applied again, after they
have been taken back, come to the same set (`Holdings.applied_undone`), however
little they were inverse to each other. What does change is the order in which
an item's holders are listed, since a member taken off and put on again comes
last. So what is left as it was is the answers up to their order
(`SameAnswers`).
-/

namespace Distlib

open GuardedRun

namespace Holders

variable {holders next : Holders} {member other : MemberId} {item : ItemId}

/-- The items a member is a real holder of. -/
def realHeldBy (holders : Holders) (member : MemberId) : Finset ItemId :=
  (holders.index.heldBy member).filter fun item => (member, item) ∉ holders.failedCopies

/-- What a node can say of a member: the items attributed to it, whether it is
known, and the items it is a real holder of. -/
def saidOf (holders : Holders) (member : MemberId) : Finset ItemId × Bool × Finset ItemId :=
  (holders.index.heldBy member, holders.isKnown member, holders.realHeldBy member)

/-- Two nodes answer the same, whatever they are asked, but for the order. -/
structure SameAnswers (before after : Holders) : Prop where
  holders : ∀ item, (after.holders item).Perm (before.holders item)
  realHolders : ∀ item, (after.realHolders item).Perm (before.realHolders item)
  soleHolders : ∀ online, (after.soleHolders online).Perm (before.soleHolders online)
  isKnown : ∀ member, after.isKnown member = before.isKnown member

/-! ## What the answers rest on -/

theorem holders_perm (h : ∀ member, next.index.heldBy member = holders.index.heldBy member)
    (item : ItemId) : (next.holders item).Perm (holders.holders item) := by
  refine (List.perm_ext_iff_of_nodup (next.index.holders_nodup item)
    (holders.index.holders_nodup item)).mpr fun member => ?_
  rw [← Index.mem_heldBy, h, Index.mem_heldBy]

/-- An item and its sole holder, by the holders listed. -/
theorem mem_soleHolders {online : Finset MemberId} :
    (item, member) ∈ holders.soleHolders online ↔
      (holders.holders item).filter (fun other =>
        other ∈ online ∧ (other, item) ∉ holders.failedCopies) = [member] := by
  simp only [soleHolders, List.mem_filterMap, Prod.exists,
    Std.ExtTreeMap.mem_toList_iff_getElem?_eq_some, Holders.holders, Index.holders]
  constructor
  · rintro ⟨item', members, hrow, hsole⟩
    split at hsole
    · rename_i holder hfilter
      simp only [Option.some.injEq, Prod.mk.injEq] at hsole
      obtain ⟨rfl, rfl⟩ := hsole
      rw [hrow]
      exact hfilter
    · cases hsole
  · intro hfilter
    rcases hrow : holders.index.map[item]? with _ | members
    · rw [hrow] at hfilter
      simp at hfilter
    · rw [hrow, Option.getD_some] at hfilter
      exact ⟨item, members, hrow, by simp only [hfilter]⟩

theorem nodup_soleHolders (holders : Holders) (online : Finset MemberId) :
    (holders.soleHolders online).Nodup := by
  rw [soleHolders, List.Nodup, List.pairwise_filterMap]
  refine Std.ExtTreeMap.distinct_keys_toList.imp ?_
  rintro ⟨item, members⟩ ⟨item', members'⟩ hne ⟨a, b⟩ ha ⟨a', b'⟩ ha' heq
  rw [Prod.mk.injEq] at heq
  simp only at ha ha'
  split at ha
  · split at ha'
    · simp only [Option.some.injEq, Prod.mk.injEq] at ha ha'
      refine hne ?_
      rw [Std.LawfulEqCmp.compare_eq_iff_eq]
      exact ha.1.trans (heq.1.trans ha'.1.symm)
    · cases ha'
  · cases ha

/-- The same items of everybody, the same failed copies and the same members
known: the same answers. -/
theorem SameAnswers.of_heldBy
    (hheld : ∀ member, next.index.heldBy member = holders.index.heldBy member)
    (hknown : ∀ member, next.isKnown member = holders.isKnown member)
    (hfailed : next.failedCopies = holders.failedCopies) : SameAnswers holders next := by
  refine ⟨holders_perm hheld, fun item => ?_, fun online => ?_, hknown⟩
  · rw [Holders.realHolders, Holders.realHolders, hfailed]
    exact (holders_perm hheld item).filter _
  · refine (List.perm_ext_iff_of_nodup (next.nodup_soleHolders online)
      (holders.nodup_soleHolders online)).mpr ?_
    rintro ⟨item, member⟩
    rw [mem_soleHolders, mem_soleHolders, hfailed]
    have hperm := (holders_perm hheld item).filter fun other =>
      other ∈ online ∧ (other, item) ∉ holders.failedCopies
    rw [← List.perm_singleton, ← List.perm_singleton]
    exact ⟨hperm.symm.trans, hperm.trans⟩

/-! ## What is not reported changes no set -/

/-- A call about one member that leaves what is said of that member. -/
theorem SameAnswers.of_sameFor {member : MemberId}
    (hheld : next.index.heldBy member = holders.index.heldBy member)
    (hknown : next.isKnown member = holders.isKnown member)
    (hothers : ∀ other ≠ member, SameFor other holders next)
    (hfailed : next.failedCopies = holders.failedCopies) : SameAnswers holders next := by
  refine SameAnswers.of_heldBy (fun other => ?_) (fun other => ?_) hfailed
  · by_cases hother : other = member
    · rw [hother, hheld]
    · exact (hothers other hother).2
  · by_cases hother : other = member
    · rw [hother, hknown]
    · rw [Holders.isKnown, Holders.isKnown, (hothers other hother).1]

theorem failedCopies_restate (holders : Holders) (member : MemberId) (holdings : Holdings) :
    (holders.restate member holdings).failedCopies = holders.failedCopies := by
  rw [restate]
  split
  · simp only
    split <;> rfl
  · rfl

/-- The same lists once more: taken back and applied again, they come to the set
they came to before. -/
theorem heldBy_restate_same {named : Option ContentHash} {held : ℕ} {last : Holdings}
    {before : Finset ItemId} (holdings : Holdings)
    (hstated : holders.stated[member]? = some (.known named last.added last.removed held))
    (hsound : holders.SoundFor member) (hheld : holders.index.heldBy member = last.applied before)
    (hadded : last.added = holdings.added) (hremoved : last.removed = holdings.removed)
    (hknown : (holders.restate member holdings).isKnown member = true) :
    (holders.restate member holdings).index.heldBy member = holders.index.heldBy member := by
  have happlied : holdings.applied = last.applied := by
    funext items
    rw [Holdings.applied, Holdings.applied, hadded, hremoved]
  rcases restate_cases hstated hsound holdings with ⟨-, -, hset⟩ | ⟨-, hbroken, -⟩
  · rw [hset, restated, happlied, hheld, Holdings.undone_applied, Holdings.applied_undone]
  · rw [isKnown, hbroken] at hknown
    cases hknown

/-- A statement that is said to change nothing changes no answer. -/
theorem SameAnswers.heard {calls : List Call} {member : MemberId} {holdings : Holdings}
    (h : ((exec Holders.call new calls).heard member holdings).1.changed = false) :
    SameAnswers (exec Holders.call new calls)
      ((exec Holders.call new calls).heard member holdings).2 := by
  obtain ⟨hsound, hfollows⟩ := Account.follows_run member calls
  have hholders := Account.World.run_holders member calls
  generalize exec (Account.World.step member) Account.World.new calls = w at *
  rw [← hholders] at h ⊢
  have hothers : ∀ other ≠ member, SameFor other w.holders (w.holders.heard member holdings).2 :=
    fun other hne => sameFor_heard hne holdings
  rw [Account.Follows] at hfollows
  rw [Holders.heard] at h hothers ⊢
  split at hfollows
  · rename_i named added removed held hstated
    obtain ⟨account, last, before, -, -, rfl, rfl, hheld, -⟩ := hfollows
    simp only [hstated] at h hothers ⊢
    split at h
    · rename_i hbase
      rw [if_pos hbase] at hothers ⊢
      simp only [Bool.or_eq_false_iff, Bool.not_eq_false', decide_eq_false_iff_not, not_not] at h
      obtain ⟨⟨hadded, hremoved⟩, hknown⟩ := h
      refine .of_sameFor ?_ ?_ hothers (failedCopies_restate _ _ _)
      · exact heldBy_restate_same holdings hstated (hsound member) hheld hadded hremoved hknown
      · rw [hknown, isKnown_of_known hstated]
    · cases h
  · rename_i base latest fetching hstated
    simp only [hstated] at h hothers ⊢
    split at h
    · rename_i hbase
      rw [if_pos hbase] at hothers ⊢
      refine .of_sameFor rfl ?_ hothers rfl
      simp [Holders.isKnown, hstated]
    · cases h
  · rename_i base hstated
    simp only [hstated] at h hothers ⊢
    split at h
    · rename_i hbase
      rw [if_pos hbase] at hothers ⊢
      exact .of_sameFor rfl rfl hothers rfl
    · cases h
  · rename_i hstated
    simp only [hstated] at h
    cases h

/-- The same answers say the same of every member. -/
theorem SameAnswers.saidOf (h : SameAnswers holders next) (member : MemberId) :
    next.saidOf member = holders.saidOf member := by
  have hheld : next.index.heldBy member = holders.index.heldBy member := by
    ext item
    rw [Index.mem_heldBy, Index.mem_heldBy]
    exact (h.holders item).mem_iff
  have hreal : next.realHeldBy member = holders.realHeldBy member := by
    ext item
    have hmem := (h.realHolders item).mem_iff (a := member)
    simp only [Holders.realHolders, List.mem_filter, decide_eq_true_eq] at hmem
    rw [Holders.realHeldBy, Holders.realHeldBy, Finset.mem_filter, Finset.mem_filter,
      Index.mem_heldBy, Index.mem_heldBy]
    exact hmem
  rw [Holders.saidOf, Holders.saidOf, hheld, hreal, h.isKnown]

/-- A member whose failed copies did not change is a real holder of the same
items. -/
theorem saidOf_setFailedCopies {failedCopies : Finset (MemberId × ItemId)}
    (h : member ∉ (holders.setFailedCopies failedCopies).1) :
    (holders.setFailedCopies failedCopies).2.saidOf member = holders.saidOf member := by
  have hsame : ∀ item, (member, item) ∈ failedCopies ↔ (member, item) ∈ holders.failedCopies := by
    intro item
    by_contra hdiff
    refine h (Finset.mem_image.mpr ⟨(member, item), ?_, rfl⟩)
    rw [Finset.mem_symmDiff]
    tauto
  have hreal : (holders.setFailedCopies failedCopies).2.realHeldBy member =
      holders.realHeldBy member :=
    Finset.filter_congr fun item _ => not_congr (hsame item)
  rw [saidOf, hreal]
  rfl

theorem SameAnswers.setFailedCopies {failedCopies : Finset (MemberId × ItemId)}
    (h : (holders.setFailedCopies failedCopies).1 = ∅) :
    SameAnswers holders (holders.setFailedCopies failedCopies).2 := by
  refine .of_heldBy (fun _ => rfl) (fun _ => rfl) ?_
  have hsame : symmDiff holders.failedCopies failedCopies = ∅ := Finset.image_eq_empty.mp h
  rw [Finset.symmDiff_eq_empty] at hsame
  exact hsame.symm

/-- **No change goes unreported.** After any calls, if a statement, an arrival or
a set of failed copies changes what can be said of some member (the items
attributed to it, whether it is known, the items it is a real holder of), the
call says so; and a call that reports no change leaves every answer as it was, up
to the order of the members listed. -/
theorem changes_reported (calls : List Call) :
    let holders := exec Holders.call new calls
    (∀ member holdings,
      let answer := holders.heard member holdings
      (∀ other, answer.2.saidOf other ≠ holders.saidOf other → answer.1.changed = true) ∧
        (answer.1.changed = false → SameAnswers holders answer.2)) ∧
    (∀ member base items,
      let answer := holders.arrived member base items
      (∀ other, answer.2.saidOf other ≠ holders.saidOf other → answer.1 = true) ∧
        (answer.1 = false → SameAnswers holders answer.2)) ∧
    ∀ failedCopies,
      let answer := holders.setFailedCopies failedCopies
      (∀ other, answer.2.saidOf other ≠ holders.saidOf other → other ∈ answer.1) ∧
        (answer.1 = ∅ → SameAnswers holders answer.2) := by
  intro holders
  refine ⟨fun member holdings => ⟨fun other hdiff => ?_, SameAnswers.heard⟩,
    fun member base items => ⟨fun other hdiff => ?_, fun hignored => ?_⟩,
    fun failedCopies => ⟨fun other hdiff => ?_, SameAnswers.setFailedCopies⟩⟩
  · by_contra hunreported
    exact hdiff ((SameAnswers.heard (Bool.eq_false_iff.mpr hunreported)).saidOf other)
  · by_contra hignored
    exact hdiff (congrArg (Holders.saidOf · other) (arrived_ignored hignored))
  · rw [arrived_ignored (Bool.eq_false_iff.mp hignored)]
    exact .of_heldBy (fun _ => rfl) (fun _ => rfl) rfl
  · by_contra hunnamed
    exact hdiff (saidOf_setFailedCopies hunnamed)

/-- Two members hold one item, and the first says so once more: nothing changed
by its answer, and the first is now the second. -/
theorem restated_moves_last :
    let states (member : MemberId) : Call := .heard member ⟨1, none, [⟨1⟩], []⟩
    let holders := exec Holders.call new [states ⟨5⟩, states ⟨6⟩]
    let answer := holders.heard ⟨5⟩ ⟨1, none, [⟨1⟩], []⟩
    answer.1.changed = false ∧
      holders.holders ⟨1⟩ = [⟨5⟩, ⟨6⟩] ∧ answer.2.holders ⟨1⟩ = [⟨6⟩, ⟨5⟩] ∧
      holders.realHolders ⟨1⟩ = [⟨5⟩, ⟨6⟩] ∧ answer.2.realHolders ⟨1⟩ = [⟨6⟩, ⟨5⟩] := by
  decide +kernel

end Holders

end Distlib
