import Distlib.Consensus.Quorum

/-!
# No silent revert

A pending core group is a whole map and not a difference, so approving it later
writes all of it, also where the core has moved in the meantime. Address-only
maps need one approval and overtake maps that wait for a majority, expulsions
edit the core in passing, and a member can be moved several times while a map
about them waits.

Each enactment judges the waiting maps only on the members it moved itself
(`supersededBy`). The law over a whole history follows by induction: if a map
that is still waiting names a member, and *any* change since its submission
moved that member, then it names them where they are now (`unreverted_fold`).
-/

namespace Distlib

open IndexedLog

namespace MembershipState

variable {s t u : MembershipState} {sig : Signing}

/-- A map the change does not supersede agrees with it on every member it both
names and the change moved. -/
theorem agrees_of_not_superseded {proposed : List (MemberId × NodeAddr)}
    {before now : OrdMap MemberId NodeAddr} {member : MemberId}
    (h : supersededBy proposed before now = false) (hmoved : before[member]? ≠ now[member]?)
    (hnamed : member ∈ coreMap proposed) : (coreMap proposed)[member]? = now[member]? := by
  obtain ⟨wants, hwants⟩ : ∃ wants, (coreMap proposed)[member]? = some wants :=
    Option.isSome_iff_exists.mp (Std.ExtTreeMap.mem_iff_isSome_getElem?.mp hnamed)
  have hlisted : member ∈ before.keys ++ now.keys := by
    by_contra hout
    simp only [List.mem_append, Std.ExtTreeMap.mem_keys, not_or] at hout
    obtain ⟨hbefore, hnow⟩ := hout
    exact hmoved (by rw [Std.ExtTreeMap.getElem?_eq_none hbefore, Std.ExtTreeMap.getElem?_eq_none hnow])
  simp only [supersededBy, List.any_eq_false] at h
  have hagrees := h member hlisted
  simp only [hwants, Option.any_some, Bool.and_eq_true, decide_eq_true_eq, not_and, not_not] at hagrees
  rw [hwants]
  exact hagrees hmoved

/-- A map still pending after a step of a founded group agrees with whatever the
step did to the core. -/
theorem Step.not_superseded {index p : ℕ} {proposer : MemberId} {event : MembershipEvent}
    {entry : Proposal} {proposed : List (MemberId × NodeAddr)} (h : Step s index proposer event u)
    (hgroup : s.group.isSome) (hp : u.pending[p]? = some entry)
    (hmap : entry.event = .coreGroupChanged proposed) :
    u.core = s.core ∨ supersededBy proposed s.core u.core = false := by
  cases h with
  | founded fresh checked =>
    rw [fresh] at hgroup
    cases hgroup
  | atOnce group member allowed decided enacted =>
    have hstands := (enacted.pending hp).2
    simp only [standsAfter, hmap, Bool.not_eq_true'] at hstands
    exact Or.inr hstands
  | carried group core waiting allowed decided enacted =>
    have hstands := (enacted.pending hp).2
    simp only [standsAfter, hmap, Bool.not_eq_true'] at hstands
    exact Or.inr hstands
  | waits | agreed | withdrawn => exact Or.inl rfl

/-- Nothing waits before there is a group. -/
theorem founded_of_pending (sig : Signing) (log : Log SignedEvent) (hasc : Ascending log) :
    ∀ (p : ℕ) (entry : Proposal), (fold sig log).pending[p]? = some entry →
      (fold sig log).group.isSome := by
  refine fold_invariant (P := fun s => ∀ (p : ℕ) (entry : Proposal),
    s.pending[p]? = some entry → s.group.isSome) ?_ ?_ log hasc
  · intro p entry hp
    simp [new] at hp
  · intro s u i proposer event ih hstep p entry _
    cases hstep with
    | founded fresh checked => rfl
    | atOnce group member allowed decided enacted => exact enacted.frame.1 ▸ group
    | carried group core waiting allowed decided enacted => exact enacted.frame.1 ▸ group
    | waits group => exact group
    | agreed group => exact group
    | withdrawn group => exact group

/-- Some entry of the log after index `p` altered `member`'s entry in the core:
moved its address, promoted, demoted or expelled it. -/
def AlteredSince (sig : Signing) (log : Log SignedEvent) (p : ℕ) (member : MemberId) : Prop :=
  ∃ pre i signed post, log = pre ++ (i, signed) :: post ∧ p < i ∧
    (fold sig pre).core[member]? ≠ (fold sig (pre ++ [(i, signed)])).core[member]?

/-- What the last entry alters, it alters itself or an entry before it did. -/
theorem AlteredSince.concat {pre : Log SignedEvent} {i p : ℕ} {signed : SignedEvent}
    {member : MemberId} (h : AlteredSince sig (pre ++ [(i, signed)]) p member) :
    AlteredSince sig pre p member ∨
      (p < i ∧ (fold sig pre).core[member]? ≠ (fold sig (pre ++ [(i, signed)])).core[member]?) := by
  obtain ⟨pre', j, other, post, heq, hlater, haltered⟩ := h
  rcases List.eq_nil_or_concat post with rfl | ⟨mid, last, rfl⟩
  · obtain ⟨rfl, hlast⟩ := List.append_inj' heq rfl
    obtain ⟨rfl, rfl⟩ := Prod.mk.inj (List.singleton_inj.mp hlast)
    exact Or.inr ⟨hlater, haltered⟩
  · rw [List.concat_eq_append, ← List.cons_append, ← List.append_assoc] at heq
    obtain ⟨rfl, -⟩ := List.append_inj' heq rfl
    exact Or.inl ⟨pre', j, other, mid, rfl, hlater, haltered⟩

/-- Nothing has been altered since the end of the log. -/
theorem not_alteredSince {pre : Log SignedEvent} {i : ℕ} {signed : SignedEvent} {member : MemberId}
    (hasc : Ascending (pre ++ [(i, signed)])) :
    ¬AlteredSince sig (pre ++ [(i, signed)]) i member := by
  intro haltered
  rcases haltered.concat with ⟨pre', j, other, post, rfl, hlater, -⟩ | ⟨hlater, -⟩
  · have hbelow := hasc.lt_last (List.mem_append_right pre' (List.mem_cons_self (a := (j, other))))
    exact absurd hlater (not_lt.mpr hbelow.le)
  · exact lt_irrefl i hlater

/-- The maps waiting in `s` name whoever has been altered since exactly where
they are now. -/
def Unreverted (sig : Signing) (log : Log SignedEvent) (s : MembershipState) : Prop :=
  ∀ (p : ℕ) (entry : Proposal) (proposed : List (MemberId × NodeAddr)),
    s.pending[p]? = some entry → entry.event = .coreGroupChanged proposed →
    ∀ member ∈ coreMap proposed, AlteredSince sig log p member →
      (coreMap proposed)[member]? = s.core[member]?

theorem unreverted_fold (sig : Signing) (log : Log SignedEvent) (hasc : Ascending log) :
    Unreverted sig log (fold sig log) := by
  refine fold_induction (P := Unreverted sig) ?_ ?_ ?_ log hasc
  · intro p entry proposed hp
    simp [new] at hp
  · -- a refused entry alters nothing
    intro pre i signed hasc ih hsame p entry proposed hp hmap member hnamed haltered
    rcases haltered.concat with hold | ⟨-, hmoved⟩
    · exact ih p entry proposed hp hmap member hnamed hold
    · exact absurd (by rw [hsame]) hmoved
  · intro pre i signed u hasc ih hu p entry proposed hp hmap member hnamed haltered
    obtain ⟨hget, -⟩ := sweep_pending.mp hp
    rcases hu.step.pending_cases hget with
      hold | ⟨rfl, -⟩ | ⟨old, hold, -, -, rfl, hcore⟩
    · have hgroup := founded_of_pending sig pre hasc.left p entry hold
      by_cases hmoved : (fold sig pre).core[member]? = u.core[member]?
      · -- not moved by this entry, so by an earlier one
        have hearlier : AlteredSince sig pre p member := by
          refine haltered.concat.resolve_right fun hlast => hlast.2 ?_
          rw [hu.next]
          exact hmoved
        exact (ih p entry proposed hold hmap member hnamed hearlier).trans hmoved
      · rcases hu.step.not_superseded hgroup hget hmap with hcore | hstands
        · exact absurd (by rw [hcore]) hmoved
        · exact agrees_of_not_superseded hstands hmoved hnamed
    · exact absurd haltered (not_alteredSince hasc)
    · -- one approval more, and the core as it was
      have hearlier : AlteredSince sig pre p member := by
        refine haltered.concat.resolve_right fun hlast => hlast.2 ?_
        rw [hu.next]
        exact congrArg (·[member]?) hcore.symm
      exact (ih p old proposed hold hmap member hnamed hearlier).trans
        (congrArg (·[member]?) hcore.symm)

/-- An approval that decides its proposal has that proposal's effect. -/
theorem Step.effect_of_decided {index p : ℕ} {proposer : MemberId} {entry : Proposal}
    (h : Step s index proposer (.approved p) u) (waiting : s.pending[p]? = some entry)
    (decided : s.decided entry.event (insert proposer entry.approvals) = true) :
    ∃ t, Effect s entry.event t ∧ SameGroup t u := by
  cases h with
  | atOnce group member allowed decided enacted =>
    obtain ⟨t, ht, -⟩ := enacted
    cases ht
  | waits group member allowed undecided proposable free => cases proposable
  | agreed group core waiting' allowed undecided =>
    obtain rfl := Option.some.inj (waiting.symm.trans waiting')
    rw [decided] at undecided
    cases undecided
  | carried group core waiting' allowed decided' enacted =>
    obtain rfl := Option.some.inj (waiting.symm.trans waiting')
    obtain ⟨t, ht, rfl⟩ := enacted
    exact ⟨_, ht.of_pending, rfl, rfl, rfl⟩

/-- **No silent revert.** In every reachable state, a waiting core map that names
a member whom anything enacted since its submission has altered names them
exactly where the core has them now. So the entry that puts a waiting map into
effect leaves each such member where they are, or leaves them out. -/
theorem no_silent_revert (sig : Signing) (log : Log SignedEvent) (hasc : Ascending log) :
    (∀ (p : ℕ) (entry : Proposal) (proposed : List (MemberId × NodeAddr)),
      (fold sig log).pending[p]? = some entry → entry.event = .coreGroupChanged proposed →
      ∀ member ∈ coreMap proposed, AlteredSince sig log p member →
        (coreMap proposed)[member]? = (fold sig log).core[member]?) ∧
    ∀ pre i signed post, log = pre ++ (i, signed) :: post →
      ((fold sig pre).apply sig i signed).1 = .ok () →
      ∀ p proposed approvals, Carries (fold sig pre) i signed.proposer signed.payload p
        (.coreGroupChanged proposed) approvals →
      ∀ member, AlteredSince sig pre p member →
        (fold sig (pre ++ [(i, signed)])).core[member]? = (fold sig pre).core[member]? ∨
          (fold sig (pre ++ [(i, signed)])).core[member]? = none := by
  refine ⟨unreverted_fold sig log hasc, ?_⟩
  rintro pre i signed post rfl hok p proposed approvals hcarries member haltered
  obtain ⟨u, hu⟩ := succeeds_of_apply hok
  have hstep := hu.step
  rw [hu.next]
  generalize hevent : MembershipEvent.coreGroupChanged proposed = event at hcarries
  cases hcarries with
  | submission allowed decided =>
    -- decided as it arrives: nothing can have happened since
    obtain ⟨pre', j, other, post', rfl, hlater, -⟩ := haltered
    have hbelow := hasc.lt_of_mem (List.mem_append_right pre' List.mem_cons_self) List.mem_cons_self
    exact absurd hlater (not_lt.mpr hbelow.le)
  | @approval p entry names waiting allowed decided =>
    rw [names] at hstep
    obtain ⟨t, heffect, -, hcore, -⟩ := hstep.effect_of_decided waiting decided
    rw [← hevent] at heffect
    cases heffect with
    | coreGroupChanged nonempty members distinct supported =>
      change u.core[member]? = _ ∨ u.core[member]? = none
      rw [hcore]
      by_cases hnamed : member ∈ coreMap proposed
      · exact Or.inl (unreverted_fold sig pre hasc.left p entry proposed waiting hevent.symm member
          hnamed haltered)
      · exact Or.inr (Std.ExtTreeMap.getElem?_eq_none hnamed)

/-- A core without carol waits, with bob at his new address; an address-only map
then moves bob there. The waiting map names bob where he now is. -/
theorem no_silent_revert_moved :
    let moved : NodeAddr := ⟨some "relay", ∅⟩
    let pre : Log SignedEvent :=
      [(1, .signedBy alice 0 (.groupFounded ⟨9⟩ [(⟨alice, "alice"⟩, default), (⟨bob, "bob"⟩, default),
        (⟨carol, "carol"⟩, default)] default)),
       (2, .signedBy alice 1 (.coreGroupChanged [(alice, default), (bob, moved)]))]
    let move : SignedEvent :=
      .signedBy bob 2 (.coreGroupChanged [(alice, default), (bob, moved), (carol, default)])
    (fold .accepting pre).core[bob]? ≠ (fold .accepting (pre ++ [(3, move)])).core[bob]? ∧
      (coreMap [(alice, default), (bob, moved)])[bob]? =
        (fold .accepting (pre ++ [(3, move)])).core[bob]? := by
  intro moved pre move
  have haltered : (fold .accepting pre).core[bob]? ≠ (fold .accepting (pre ++ [(3, move)])).core[bob]? := by
    decide +kernel
  have hpending : (fold .accepting (pre ++ [(3, move)])).pending[2]? =
      some ⟨.coreGroupChanged [(alice, default), (bob, moved)], alice, {alice}⟩ := by
    decide +kernel
  refine ⟨haltered, ?_⟩
  exact (no_silent_revert .accepting (pre ++ [(3, move)]) (by decide)).1 2 _ _ hpending rfl bob
    (by decide +kernel) ⟨pre, 3, move, [], rfl, by decide, haltered⟩

end MembershipState

end Distlib
