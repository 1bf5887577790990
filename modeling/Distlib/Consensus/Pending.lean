import Distlib.Consensus.Quorum

/-!
# The pending table

Two deadlines act on a waiting proposal, at different moments and with different
comparisons. An approval is refused once *more than* the expiry has passed; the
sweep that ends a successful entry drops a proposal once *at least* the expiry
has passed. And only a successful entry sweeps, so behind a stretch of refused
entries the table can hold a proposal nobody may approve any more.

Such a proposal does not hold its slot: a new one about the same subject may be
put beside it. That the table still has at most one proposal a subject rests on
the sweep at the end of the very same entry, which drops the older one
(`Tidy.step`).
-/

namespace Distlib

open IndexedLog

namespace MembershipState

variable {s t u : MembershipState} {sig : Signing}

/-- What the pending table keeps between entries. -/
structure Tidy (s : MembershipState) : Prop where
  /-- only what has a subject waits -/
  proposable : ∀ (p : ℕ) (entry : Proposal), s.pending[p]? = some entry →
    (subject entry.event).isSome
  /-- one proposal a subject -/
  distinct : ∀ (p q : ℕ) (a b : Proposal), s.pending[p]? = some a → s.pending[q]? = some b →
    subject a.event = subject b.event → p = q
  /-- nothing waits from the future, and nothing that the last sweep should have dropped -/
  placed : ∀ (p : ℕ) (entry : Proposal), s.pending[p]? = some entry →
    p ≤ s.changedAt ∧ s.changedAt - p < s.settings.pendingExpiry

/-- Where the event of a waiting proposal comes from: it was already waiting, or
the entry submits it into a free slot. -/
theorem Step.pending_event {index : ℕ} {proposer : MemberId} {event : MembershipEvent}
    {p : ℕ} {entry : Proposal} (h : Step s index proposer event u)
    (hp : u.pending[p]? = some entry) :
    (∃ old, s.pending[p]? = some old ∧ old.event = entry.event) ∨
      (p = index ∧ entry.event = event ∧ (subject event).isSome ∧
        s.slotHolder index event = none ∧ u.settings = s.settings) := by
  rcases h.pending_cases hp with
    hold | ⟨hindex, rfl, hsubject, hfree, -, hsettings⟩ | ⟨old, hold, -, -, rfl, -⟩
  · exact Or.inl ⟨entry, hold, rfl⟩
  · exact Or.inr ⟨hindex, rfl, hsubject, hfree, hsettings⟩
  · exact Or.inl ⟨old, hold, rfl⟩

/-- A free slot means that every proposal about its subject has expired. -/
theorem expired_of_slotHolder {index p : ℕ} {entry : Proposal} {event : MembershipEvent}
    (hfree : s.slotHolder index event = none) (hsubject : (subject event).isSome)
    (hp : s.pending[p]? = some entry) (hsame : subject entry.event = subject event) :
    s.expired p index = true := by
  obtain ⟨about, habout⟩ := Option.isSome_iff_exists.mp hsubject
  simp only [slotHolder, habout, Option.map_eq_none_iff, List.find?_eq_none] at hfree
  have hmem : (p, entry) ∈ s.pending.toList :=
    Std.ExtTreeMap.mem_toList_iff_getElem?_eq_some.mpr hp
  have hheld := hfree (p, entry) hmem
  rw [habout] at hsame
  simpa [hsame] using hheld

/-- The submission that comes to stand beside an older proposal about the same
subject has the older one swept. -/
theorem swept_of_submitted {index p : ℕ} {event : MembershipEvent} {old entry : Proposal}
    (hold : s.pending[p]? = some old)
    (hsame : subject old.event = subject event) (hsubject : (subject event).isSome)
    (hfree : s.slotHolder index event = none) (hsettings : u.settings = s.settings) :
    (u.sweep index).pending[p]? ≠ some entry := by
  intro hp
  have hexpired := expired_of_slotHolder hfree hsubject hold hsame
  have hkept := (sweep_pending.mp hp).2
  simp only [expired, decide_eq_true_eq] at hexpired
  rw [hsettings] at hkept
  omega

theorem Tidy.step {index : ℕ} {proposer : MemberId} {event : MembershipEvent} (hs : Tidy s)
    (h : Step s index proposer event u) (hindex : s.changedAt ≤ index) : Tidy (u.sweep index) := by
  refine ⟨fun p entry hp => ?_, fun p q a b hp hq hsame => ?_, fun p entry hp => ?_⟩
  · rcases h.pending_event (sweep_pending.mp hp).1 with ⟨old, hold, heq⟩ | ⟨-, heq, hsubject, -⟩
    · exact heq ▸ hs.proposable p old hold
    · rwa [heq]
  · rcases h.pending_event (sweep_pending.mp hp).1 with ⟨olda, hp', ha⟩ | ⟨rfl, ha, hsub, hfree, hset⟩ <;>
      rcases h.pending_event (sweep_pending.mp hq).1 with ⟨oldb, hq', hb⟩ | ⟨rfl, hb, hsub', hfree', hset'⟩
    · exact hs.distinct p q olda oldb hp' hq' (by rw [ha, hb, hsame])
    · exact absurd hp (swept_of_submitted hp' (by rw [ha, hsame, hb]) hsub' hfree' hset')
    · exact absurd hq (swept_of_submitted hq' (by rw [hb, ← hsame, ha]) hsub hfree hset)
    · rfl
  · obtain ⟨hget, hkept⟩ := sweep_pending.mp hp
    refine ⟨?_, hkept⟩
    rcases h.pending_event hget with ⟨old, hold, -⟩ | ⟨rfl, -⟩
    · exact (hs.placed p old hold).1.trans hindex
    · exact le_rfl

/-- The state last changed at an entry of the log, or never. -/
theorem changedAt_mem (sig : Signing) (log : Log SignedEvent) (hasc : Ascending log) :
    (fold sig log).changedAt = 0 ∨ ∃ signed, ((fold sig log).changedAt, signed) ∈ log := by
  refine fold_induction (P := fun log s => s.changedAt = 0 ∨ ∃ signed, (s.changedAt, signed) ∈ log)
    (Or.inl rfl) ?_ ?_ log hasc
  · rintro pre i signed - (hzero | ⟨last, hlast⟩) -
    · exact Or.inl hzero
    · exact Or.inr ⟨last, List.mem_append_left _ hlast⟩
  · rintro pre i signed u - - -
    exact Or.inr ⟨signed, List.mem_append_right _ (List.mem_singleton_self _)⟩

theorem changedAt_le {pre : Log SignedEvent} {i : ℕ} {signed : SignedEvent}
    (hasc : Ascending (pre ++ [(i, signed)])) : (fold sig pre).changedAt ≤ i := by
  rcases changedAt_mem sig pre hasc.left with hzero | ⟨last, hlast⟩
  · omega
  · exact (hasc.lt_last hlast).le

/-- Folding more of the log never makes the last change older. -/
theorem changedAt_fold_le (sig : Signing) (pre post : Log SignedEvent)
    (hasc : Ascending (pre ++ post)) : (fold sig pre).changedAt ≤ (fold sig (pre ++ post)).changedAt := by
  induction post using List.reverseRecOn with
  | nil => rw [List.append_nil]
  | append_singleton post entry ih =>
    obtain ⟨i, signed⟩ := entry
    rw [← List.append_assoc] at hasc ⊢
    refine (ih hasc.left).trans ?_
    rw [fold_concat]
    rcases apply_cases sig (fold sig (pre ++ post)) i signed with hsame | ⟨-, -, -, u, -, hnext⟩
    · rw [hsame]
    · rw [hnext]
      exact changedAt_le hasc

theorem tidy_fold (sig : Signing) (log : Log SignedEvent) (hasc : Ascending log) :
    Tidy (fold sig log) := by
  refine fold_induction (P := fun _ s => Tidy s) ?_ (fun _ _ _ _ hpre _ => hpre) ?_ log hasc
  · constructor <;> simp [new]
  · intro pre i signed u hasc hpre hu
    exact hpre.step hu.step (changedAt_le hasc)

/-- What can wait: an admission, an expulsion, a core-group map, a protocol
raise. -/
def Proposable : MembershipEvent → Prop
  | .memberAdded _ | .memberExpelled _ _ | .coreGroupChanged _ | .protocolRaised _ => True
  | _ => False

theorem proposable_of_subject {event : MembershipEvent} (h : (subject event).isSome) :
    Proposable event := by
  cases event <;> first | exact trivial | cases h

/-- A proposal is carried strictly after its submission, within its expiry. -/
theorem Carries.within_expiry {pre : Log SignedEvent} {i p : ℕ} {signed : SignedEvent}
    {event : MembershipEvent} {approvals : Finset MemberId}
    (hasc : Ascending (pre ++ [(i, signed)])) (hlater : p ≠ i)
    (h : Carries (fold sig pre) i signed.proposer signed.payload p event approvals) :
    SubmittedAt sig pre p event ∧ p < i ∧ i ≤ p + (fold sig pre).settings.pendingExpiry := by
  cases h with
  | submission allowed decided => exact absurd rfl hlater
  | @approval p entry names waiting allowed decided =>
    have hsubmitted := (MembershipState.provenance sig pre hasc.left p entry waiting).1
    obtain ⟨submission, haccepted, hpayload⟩ := hsubmitted
    have hexpired := (stillAllowed_eq_ok allowed).1
    simp only [expired, decide_eq_false_iff_not, not_lt] at hexpired
    exact ⟨⟨submission, haccepted, hpayload⟩, hasc.lt_last haccepted.mem, by omega⟩

/-- **The pending table.** Between any two entries of any log, at most one
proposal waits about each subject, only proposable events wait, and none of them
from the future or from as long ago as the expiry. Whatever moves a founded
group is a submission decided as it arrives, or a proposal submitted at an
earlier index of the log, at most the expiry ago, however many refused entries
lie in between. -/
theorem pending_table_tidy (sig : Signing) (log : Log SignedEvent) (hasc : Ascending log) :
    (∀ (p q : ℕ) (a b : Proposal), (fold sig log).pending[p]? = some a →
      (fold sig log).pending[q]? = some b → subject a.event = subject b.event → p = q) ∧
    (∀ (p : ℕ) (entry : Proposal), (fold sig log).pending[p]? = some entry →
      Proposable entry.event ∧ p ≤ (fold sig log).changedAt ∧
        (fold sig log).changedAt - p < (fold sig log).settings.pendingExpiry) ∧
    ∀ pre i signed post, log = pre ++ (i, signed) :: post → (fold sig pre).group.isSome →
      ((fold sig pre).apply sig i signed).1 = .ok () →
      (SameGroup (fold sig pre) (fold sig (pre ++ [(i, signed)])) ∨
        ∃ p event approvals t,
          Carries (fold sig pre) i signed.proposer signed.payload p event approvals ∧
          Effect (fold sig pre) event t ∧ SameGroup t (fold sig (pre ++ [(i, signed)]))) ∧
      ∀ p event approvals,
        Carries (fold sig pre) i signed.proposer signed.payload p event approvals → p ≠ i →
        SubmittedAt sig pre p event ∧ p < i ∧ i ≤ p + (fold sig pre).settings.pendingExpiry := by
  have htidy := tidy_fold sig log hasc
  refine ⟨htidy.distinct, fun p entry hp => ?_, ?_⟩
  · exact ⟨proposable_of_subject (htidy.proposable p entry hp), htidy.placed p entry hp⟩
  · rintro pre i signed post rfl hgroup hok
    have hasc' : Ascending (pre ++ [(i, signed)]) := by
      rw [List.append_cons] at hasc
      exact hasc.left
    obtain ⟨u, hu⟩ := succeeds_of_apply hok
    refine ⟨?_, fun p event approvals hcarries hlater => hcarries.within_expiry hasc' hlater⟩
    rw [hu.next]
    exact hu.step.carries hgroup

/-- Two founders and a pending expulsion, overtaken by a refused entry: the
table holds it, at the index it was submitted at. -/
theorem pending_table_tidy_expulsion :
    let log : Log SignedEvent :=
      [(1, .signedBy alice 0 (.groupFounded ⟨9⟩ [(⟨alice, "alice"⟩, default), (⟨bob, "bob"⟩, default)]
        default)),
       (3, .signedBy alice 1 (.memberExpelled bob "gone")),
       (7, .signedBy bob 1 (.approved 3))]
    (fold .accepting log).pending.contains 3 = true ∧
      ∀ (p : ℕ) (entry : Proposal), (fold .accepting log).pending[p]? = some entry →
        Proposable entry.event ∧ p ≤ (fold .accepting log).changedAt ∧
          (fold .accepting log).changedAt - p < (fold .accepting log).settings.pendingExpiry :=
  ⟨by decide +kernel, (pending_table_tidy .accepting _ (by decide)).2.1⟩

end MembershipState

end Distlib
