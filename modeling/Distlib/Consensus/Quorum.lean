import Distlib.Consensus.Run

/-!
# Who is behind a change

A proposal collects its approvals over many entries, and the core moves while
it waits: approvers are demoted, expelled, admitted and promoted again, and a
map that changed the voters when it was submitted may be address-only by the
time it is decided. What the program counts is therefore not what was counted
when an approval arrived, but *who approved* against *who is core now*.

Two facts carry the quorum law.

* **Provenance** (`provenance`): every approval a waiting proposal holds is the
  signature of an accepted entry, on the submission itself or on an approval
  naming it.
* **One threshold** (`Effect.majority`, `Effect.someone`): what an enactment
  does to the voters or to the protocol is bounded by the approvals it needed
  at that very moment, in the state it was enacted against.
-/

namespace Distlib

open IndexedLog

namespace MembershipState

variable {s t u : MembershipState} {sig : Signing}

/-! ## Enactments -/

/-- The entry puts `event`, submitted at `p`, into effect, on those approvals:
it is the submission itself, decided as it arrives, or it is the approval that
decides a proposal waiting at `p`. -/
inductive Carries (s : MembershipState) (index : ℕ) (proposer : MemberId)
    (payload : MembershipEvent) : ℕ → MembershipEvent → Finset MemberId → Prop
  | submission (allowed : s.authorise proposer payload = .ok ())
      (decided : s.decided payload (s.firstApprovals proposer payload) = true) :
      Carries s index proposer payload index payload (s.firstApprovals proposer payload)
  | approval {p : ℕ} {entry : Proposal} (names : payload = .approved p)
      (waiting : s.pending[p]? = some entry)
      (allowed : s.stillAllowed index p entry proposer = .ok ())
      (decided : s.decided entry.event (insert proposer entry.approvals) = true) :
      Carries s index proposer payload p entry.event (insert proposer entry.approvals)

/-- The enacted event was decided by its approvals, and its proposer, whoever
that is, is allowed to propose it now. -/
theorem Carries.decided {index p : ℕ} {proposer : MemberId} {payload event : MembershipEvent}
    {approvals : Finset MemberId} (h : Carries s index proposer payload p event approvals) :
    s.decided event approvals = true := by
  cases h with
  | submission allowed decided => exact decided
  | approval names waiting allowed decided => exact decided

theorem Carries.allowed {index p : ℕ} {proposer : MemberId} {payload event : MembershipEvent}
    {approvals : Finset MemberId} (h : Carries s index proposer payload p event approvals) :
    ∃ submitter, s.authorise submitter event = .ok () := by
  cases h with
  | submission allowed decided => exact ⟨proposer, allowed⟩
  | @approval p entry names waiting allowed decided =>
    exact ⟨entry.proposer, (stillAllowed_eq_ok allowed).2.2.2⟩

/-- An effect does not read the pending table. -/
theorem Effect.of_pending {event : MembershipEvent} {pending : OrdMap ℕ Proposal}
    (h : Effect { s with pending } event t) : Effect s event { t with pending := s.pending } := by
  cases h with
  | memberAdded member => exact .memberAdded member
  | memberExpelled known => exact .memberExpelled known
  | pledgeChanged known => exact .pledgeChanged known
  | coreGroupChanged nonempty members distinct supported =>
    exact .coreGroupChanged nonempty members distinct supported
  | protocolSupported known => exact .protocolSupported known
  | protocolRaised newProtocol => exact .protocolRaised newProtocol

/-- The members, the core and the protocol of `t` are those of `s`. -/
def SameGroup (s t : MembershipState) : Prop :=
  t.members = s.members ∧ t.core = s.core ∧ t.protocol = s.protocol

/-- **What moves a founded group.** An entry leaves the members, the core and
the protocol alone, or it enacts one event and they are that event's effect. -/
theorem Step.carries {index : ℕ} {proposer : MemberId} {payload : MembershipEvent}
    (h : Step s index proposer payload u) (hgroup : s.group.isSome) :
    SameGroup s u ∨ ∃ p event approvals t, Carries s index proposer payload p event approvals ∧
      Effect s event t ∧ SameGroup t u := by
  cases h with
  | founded fresh checked =>
    rw [fresh] at hgroup
    cases hgroup
  | atOnce group member allowed decided enacted =>
    obtain ⟨t, ht, rfl⟩ := enacted
    exact Or.inr ⟨index, payload, _, t, .submission allowed decided, ht, rfl, rfl, rfl⟩
  | carried group core waiting allowed decided enacted =>
    obtain ⟨t, ht, rfl⟩ := enacted
    exact Or.inr ⟨_, _, _, _, .approval rfl waiting allowed decided, ht.of_pending, rfl, rfl, rfl⟩
  | waits | agreed | withdrawn => exact Or.inl ⟨rfl, rfl, rfl⟩

/-! ## Provenance -/

/-- The log holds `signed` at `i`, and it was not refused there. -/
def Accepted (sig : Signing) (log : Log SignedEvent) (i : ℕ) (signed : SignedEvent) : Prop :=
  ∃ pre post, log = pre ++ (i, signed) :: post ∧ ((fold sig pre).apply sig i signed).1 = .ok ()

theorem Accepted.append {log : Log SignedEvent} {i : ℕ} {signed : SignedEvent}
    (h : Accepted sig log i signed) (more : Log SignedEvent) :
    Accepted sig (log ++ more) i signed := by
  obtain ⟨pre, post, rfl, hok⟩ := h
  exact ⟨pre, post ++ more, by simp, hok⟩

theorem Accepted.mem {log : Log SignedEvent} {i : ℕ} {signed : SignedEvent}
    (h : Accepted sig log i signed) : (i, signed) ∈ log := by
  obtain ⟨pre, post, rfl, -⟩ := h
  exact List.mem_append_right _ List.mem_cons_self

/-- `backer` signed the submission of `event` at `p`, or an approval naming it,
and the entry was accepted. -/
def Backs (sig : Signing) (log : Log SignedEvent) (p : ℕ) (event : MembershipEvent)
    (backer : MemberId) : Prop :=
  ∃ i signed, Accepted sig log i signed ∧ signed.verify sig = .ok () ∧ signed.proposer = backer ∧
    (i = p ∧ signed.payload = event ∨ signed.payload = .approved p)

theorem Backs.append {log : Log SignedEvent} {p : ℕ} {event : MembershipEvent} {backer : MemberId}
    (h : Backs sig log p event backer) (more : Log SignedEvent) :
    Backs sig (log ++ more) p event backer := by
  obtain ⟨i, signed, haccepted, hsigned⟩ := h
  exact ⟨i, signed, haccepted.append more, hsigned⟩

/-- `event` was submitted at `p`, by an entry that was accepted. -/
def SubmittedAt (sig : Signing) (log : Log SignedEvent) (p : ℕ) (event : MembershipEvent) : Prop :=
  ∃ signed, Accepted sig log p signed ∧ signed.payload = event

theorem SubmittedAt.append {log : Log SignedEvent} {p : ℕ} {event : MembershipEvent}
    (h : SubmittedAt sig log p event) (more : Log SignedEvent) :
    SubmittedAt sig (log ++ more) p event := by
  obtain ⟨signed, haccepted, hpayload⟩ := h
  exact ⟨signed, haccepted.append more, hpayload⟩

theorem Succeeds.accepted {pre : Log SignedEvent} {i : ℕ} {signed : SignedEvent}
    (h : Succeeds sig pre i signed u) : Accepted sig (pre ++ [(i, signed)]) i signed :=
  ⟨pre, [], rfl, h.ok⟩

/-- Only the proposer is among the approvals a submission arrives with. -/
theorem eq_of_mem_firstApprovals {proposer member : MemberId} {event : MembershipEvent}
    (h : member ∈ s.firstApprovals proposer event) : proposer = member := by
  rw [firstApprovals] at h
  split at h
  · exact (Finset.mem_singleton.mp h).symm
  · simp at h

/-- **Provenance.** A proposal waiting at `p` was submitted at `p`, and each of
its approvals is somebody's signature in the log. -/
theorem provenance (sig : Signing) (log : Log SignedEvent) (hasc : Ascending log) :
    ∀ (p : ℕ) (entry : Proposal), (fold sig log).pending[p]? = some entry →
      SubmittedAt sig log p entry.event ∧
        ∀ backer ∈ entry.approvals, Backs sig log p entry.event backer := by
  refine fold_induction (P := fun log s => ∀ (p : ℕ) (entry : Proposal),
    s.pending[p]? = some entry → SubmittedAt sig log p entry.event ∧
      ∀ backer ∈ entry.approvals, Backs sig log p entry.event backer) ?_ ?_ ?_ log hasc
  · intro p entry hp
    simp [new] at hp
  · intro pre i signed _ ih _ p entry hp
    obtain ⟨hsubmitted, hbacked⟩ := ih p entry hp
    exact ⟨hsubmitted.append _, fun backer hbacker => (hbacked backer hbacker).append _⟩
  · intro pre i signed u _ ih hu p entry hp
    rcases hu.step.pending_cases (sweep_pending.mp hp).1 with
      hold | ⟨rfl, rfl, -⟩ | ⟨old, hold, happroved, -, rfl, -⟩
    · obtain ⟨hsubmitted, hbacked⟩ := ih p entry hold
      exact ⟨hsubmitted.append _, fun backer hbacker => (hbacked backer hbacker).append _⟩
    · -- just submitted: the one possible backer signed this entry
      refine ⟨⟨signed, hu.accepted, rfl⟩, fun backer hbacker => ?_⟩
      exact ⟨p, signed, hu.accepted, hu.verified, eq_of_mem_firstApprovals hbacker,
        Or.inl ⟨rfl, rfl⟩⟩
    · -- just approved: the new backer signed this entry, the others are old
      obtain ⟨hsubmitted, hbacked⟩ := ih p old hold
      refine ⟨hsubmitted.append _, fun backer hbacker => ?_⟩
      rcases Finset.mem_insert.mp hbacker with rfl | hbacker
      · exact ⟨i, signed, hu.accepted, hu.verified, rfl, Or.inr happroved⟩
      · exact (hbacked backer hbacker).append _

/-- What an enactment rests on is in the log as well. -/
theorem Carries.provenance {pre : Log SignedEvent} {i p : ℕ} {signed : SignedEvent}
    {event : MembershipEvent} {approvals : Finset MemberId}
    (h : Carries (fold sig pre) i signed.proposer signed.payload p event approvals)
    (hasc : Ascending pre) (hu : Succeeds sig pre i signed u) :
    SubmittedAt sig (pre ++ [(i, signed)]) p event ∧
      (∀ backer ∈ approvals, Backs sig (pre ++ [(i, signed)]) p event backer) ∧
      TargetExcluded event approvals := by
  cases h with
  | submission allowed decided =>
    refine ⟨⟨signed, hu.accepted, rfl⟩, fun backer hbacker => ?_,
      targetExcluded_firstApprovals _ _ _⟩
    exact ⟨i, signed, hu.accepted, hu.verified, eq_of_mem_firstApprovals hbacker,
      Or.inl ⟨rfl, rfl⟩⟩
  | @approval p entry names waiting allowed decided =>
    obtain ⟨hsubmitted, hbacked⟩ := MembershipState.provenance sig pre hasc p entry waiting
    refine ⟨hsubmitted.append _, fun backer hbacker => ?_, ?_⟩
    · rcases Finset.mem_insert.mp hbacker with rfl | hbacker
      · exact ⟨i, signed, hu.accepted, hu.verified, rfl, Or.inr names⟩
      · exact (hbacked backer hbacker).append _
    · exact ((sound_fold sig pre hasc).targets p entry waiting).insert
        (stillAllowed_eq_ok allowed).2.1

/-! ## The threshold -/

/-- A map that keeps its length and names only voters, each once, names exactly
the voters. -/
theorem keySet_coreMap_of_not_changesTheVoters {core : List (MemberId × NodeAddr)}
    (h : s.changesTheVoters (.coreGroupChanged core) = false) (hdistinct : (core.map Prod.fst).Nodup) :
    OrdMap.keySet (coreMap core) = OrdMap.keySet s.core := by
  simp only [changesTheVoters, Bool.or_eq_false_iff, decide_eq_false_iff_not, not_not,
    List.any_eq_false, Bool.not_eq_true', Bool.not_eq_false] at h
  obtain ⟨hlength, hvoters⟩ := h
  have hsub : OrdMap.keySet (coreMap core) ⊆ OrdMap.keySet s.core := by
    intro member hmem
    obtain ⟨addr, hentry⟩ := OrdMap.mem_ofList_iff.mp (OrdMap.mem_keySet.mp hmem)
    exact OrdMap.mem_keySet.mpr (Std.ExtTreeMap.mem_iff_contains.mpr (hvoters _ hentry))
  refine Finset.eq_of_subset_of_card_le hsub ?_
  rw [OrdMap.card_keySet, OrdMap.card_keySet, ← hlength]
  exact (OrdMap.size_ofList_eq_length_iff.mpr hdistinct).ge

/-- What moves the voters or the protocol needed more than half of the core. -/
theorem Effect.majority {event : MembershipEvent} (h : Effect s event t)
    (hmoved : OrdMap.keySet t.core ≠ OrdMap.keySet s.core ∨ t.protocol ≠ s.protocol) :
    s.approvalsNeeded event = s.core.size / 2 + 1 := by
  cases h with
  | memberAdded | pledgeChanged | protocolSupported =>
    rcases hmoved with hmoved | hmoved <;> exact absurd rfl hmoved
  | protocolRaised newProtocol => rfl
  | @memberExpelled member reason record known =>
    rcases hmoved with hmoved | hmoved
    · have hcore : s.isCore member = true := by
        by_contra hcore
        have habsent : s.core[member]? = none := by
          refine Std.ExtTreeMap.getElem?_eq_none fun hmem => hcore ?_
          exact Std.ExtTreeMap.mem_iff_contains.mp hmem
        exact hmoved (by rw [OrdMap.erase_eq_self habsent])
      simp [approvalsNeeded, changesTheVoters, hcore]
    · exact absurd rfl hmoved
  | @coreGroupChanged core nonempty members distinct supported =>
    rcases hmoved with hmoved | hmoved
    · have hchanges : s.changesTheVoters (.coreGroupChanged core) = true := by
        by_contra hkeeps
        rw [Bool.not_eq_true] at hkeeps
        exact hmoved (keySet_coreMap_of_not_changesTheVoters hkeeps distinct)
      simp only [approvalsNeeded, hchanges, if_true]
    · exact absurd rfl hmoved

/-- Who the members say they are: the id and the display name of each record,
without what its own member states about its storage and its build. -/
def identities (s : MembershipState) (member : MemberId) : Option (MemberId × String) :=
  s.members[member]?.map fun record => (record.memberId, record.displayName)

/-- Rewriting a record's own fields is not a change of identity. -/
theorem identities_insert {member : MemberId} {record record' : MemberRecord}
    (known : s.members[member]? = some record) (hid : record'.memberId = record.memberId)
    (hname : record'.displayName = record.displayName) :
    identities { s with members := s.members.insert member record' } = identities s := by
  funext other
  simp only [identities, Std.ExtTreeMap.getElem?_insert, Std.LawfulEqCmp.compare_eq_iff_eq]
  split
  · rename_i heq
    subst heq
    rw [known, Option.map_some, Option.map_some, hid, hname]
  · rfl

/-- What changes who is a member, or anything about the core, needed somebody. -/
theorem Effect.someone {event : MembershipEvent} (h : Effect s event t)
    (hmoved : identities t ≠ identities s ∨ t.core ≠ s.core) : 1 ≤ s.approvalsNeeded event := by
  cases h with
  | pledgeChanged known =>
    rcases hmoved with hmoved | hmoved
    · refine absurd (identities_insert known ?_ ?_) hmoved <;> rfl
    · exact absurd rfl hmoved
  | protocolSupported known =>
    rcases hmoved with hmoved | hmoved
    · refine absurd (identities_insert known ?_ ?_) hmoved <;> rfl
    · exact absurd rfl hmoved
  | protocolRaised newProtocol => exact Nat.le_add_left 1 _
  | memberAdded | memberExpelled | coreGroupChanged =>
    simp only [approvalsNeeded]
    split <;> omega

/-! ## The quorum law -/

/-- `backers` are members of the core as `s` has it, each with a signature on
the submission of `event` at `p` or on an approval of it; none is the member
`event` expels. -/
structure Quorum (sig : Signing) (log : Log SignedEvent) (s : MembershipState) (p : ℕ)
    (event : MembershipEvent) (backers : Finset MemberId) : Prop where
  submitted : SubmittedAt sig log p event
  core : backers ⊆ OrdMap.keySet s.core
  signed : ∀ backer ∈ backers, Backs sig log p event backer
  target : ∀ backer ∈ backers, target event ≠ some backer

/-- The approvals that count are a quorum of their own number, and that number
is what the event needed. -/
theorem Carries.quorum {pre : Log SignedEvent} {i p : ℕ} {signed : SignedEvent}
    {event : MembershipEvent} {approvals : Finset MemberId}
    (h : Carries (fold sig pre) i signed.proposer signed.payload p event approvals)
    (hasc : Ascending pre) (hu : Succeeds sig pre i signed u) :
    Quorum sig (pre ++ [(i, signed)]) (fold sig pre) p event ((fold sig pre).counting approvals) ∧
      (fold sig pre).approvalsNeeded event ≤ ((fold sig pre).counting approvals).card := by
  obtain ⟨hsubmitted, hbacked, htarget⟩ := h.provenance hasc hu
  refine ⟨⟨hsubmitted, fun backer hbacker => ?_, fun backer hbacker => ?_,
    fun backer hbacker => ?_⟩, by simpa [MembershipState.decided] using h.decided⟩
  · exact OrdMap.mem_keySet.mpr (mem_counting.mp hbacker).2
  · exact hbacked backer (mem_counting.mp hbacker).1
  · intro heq
    exact htarget backer heq (mem_counting.mp hbacker).1

/-- **Quorum.** Take any log and any entry of it that is accepted by a founded
group. If it moves the set of voters or the protocol, it enacts an event that
strictly more than half of the core, as it stands just before the entry, has
signed for; if it changes who is a member, or only an address of the core, at
least one of the core has. Nobody counts twice and nobody counts towards their
own expulsion. -/
theorem change_has_quorum (sig : Signing) (pre post : Log SignedEvent) (i : ℕ)
    (signed : SignedEvent) (hasc : Ascending (pre ++ (i, signed) :: post))
    (hfounded : (fold sig pre).group.isSome)
    (hok : ((fold sig pre).apply sig i signed).1 = .ok ()) :
    (OrdMap.keySet (fold sig (pre ++ [(i, signed)])).core ≠ OrdMap.keySet (fold sig pre).core ∨
        (fold sig (pre ++ [(i, signed)])).protocol ≠ (fold sig pre).protocol →
      ∃ p event backers t, Quorum sig (pre ++ [(i, signed)]) (fold sig pre) p event backers ∧
        (fold sig pre).core.size < 2 * backers.card ∧
        Effect (fold sig pre) event t ∧ SameGroup t (fold sig (pre ++ [(i, signed)]))) ∧
    (identities (fold sig (pre ++ [(i, signed)])) ≠ identities (fold sig pre) ∨
        (fold sig (pre ++ [(i, signed)])).core ≠ (fold sig pre).core →
      ∃ p event backers t, Quorum sig (pre ++ [(i, signed)]) (fold sig pre) p event backers ∧
        1 ≤ backers.card ∧
        Effect (fold sig pre) event t ∧ SameGroup t (fold sig (pre ++ [(i, signed)]))) := by
  obtain ⟨u, hu⟩ := succeeds_of_apply hok
  have hgroup : SameGroup u (fold sig (pre ++ [(i, signed)])) := by
    rw [hu.next]
    exact ⟨rfl, rfl, rfl⟩
  generalize fold sig (pre ++ [(i, signed)]) = after at hgroup
  obtain ⟨hmembers, hcore, hprotocol⟩ := hgroup
  rcases hu.step.carries hfounded with ⟨hm, hc, hp⟩ | ⟨p, event, approvals, t, hcarries, heffect, hsame⟩
  · -- nothing moved
    have hids : identities after = identities (fold sig pre) := by
      funext member
      simp only [identities, hmembers, hm]
    rw [hc] at hcore
    rw [hp] at hprotocol
    simp [hcore, hprotocol, hids]
  · obtain ⟨hm, hc, hp⟩ := hsame
    obtain ⟨hquorum, hneeded⟩ := hcarries.quorum hasc.left hu
    have hafter : SameGroup t after := ⟨hmembers.trans hm, hcore.trans hc, hprotocol.trans hp⟩
    have hids : identities after = identities t := by
      funext member
      simp only [identities, hafter.1]
    rw [hafter.2.1, hafter.2.2, hids]
    refine ⟨fun hmoved => ⟨p, event, _, t, hquorum, ?_, heffect, hafter⟩,
      fun hmoved => ⟨p, event, _, t, hquorum, ?_, heffect, hafter⟩⟩
    · rw [heffect.majority hmoved] at hneeded
      omega
    · exact (heffect.someone hmoved).trans hneeded

/-- Three founders; alice proposes a core without carol, and bob's approval
decides it. -/
theorem change_has_quorum_demotion :
    let pre : Log SignedEvent :=
      [(1, .signedBy alice 0 (.groupFounded ⟨9⟩ [(⟨alice, "alice"⟩, default), (⟨bob, "bob"⟩, default),
        (⟨carol, "carol"⟩, default)] default)),
       (2, .signedBy alice 1 (.coreGroupChanged [(alice, default), (bob, default)]))]
    let approval : SignedEvent := .signedBy bob 2 (.approved 2)
    (fold .accepting pre).core.size = 3 ∧
      ∃ p event backers t, Quorum .accepting (pre ++ [(3, approval)]) (fold .accepting pre) p event
          backers ∧
        (fold .accepting pre).core.size < 2 * backers.card ∧
        Effect (fold .accepting pre) event t ∧
        SameGroup t (fold .accepting (pre ++ [(3, approval)])) :=
  ⟨by decide +kernel,
    (change_has_quorum .accepting _ [] 3 _ (by decide) (by decide +kernel) (by decide +kernel)).1
      (Or.inl (by decide +kernel))⟩

end MembershipState

end Distlib
