import Distlib.Consensus.State

/-!
# What one entry can do

Two facts about every mutating function of the projection, stated once and
used by every invariant after them.

* **A refusal changes nothing.** `approve` takes the proposal out before it
  checks anything and `memberExpelled` removes before it reports, so this is a
  statement about maps: what was taken out is put back, and what was erased was
  not there.
* **A success is one of six steps.** `Step` lists them with everything their
  branch of the code has checked, and `step_of_apply` says there are no others.
-/

namespace Distlib

namespace MembershipState

variable {s t : MembershipState} {sig : Signing}

/-! ## Refusals -/

/-- Founding checks everything before it sets anything. -/
theorem found_error {groupId : GroupId} {founders : List (MemberProfile × NodeAddr)}
    {settings : GroupSettings} {proposer : MemberId} {error : ConsensusError}
    (h : s.found groupId founders settings proposer = (.error error, t)) : t = s := by
  rw [found] at h
  split at h
  · exact (Prod.mk.inj h).2.symm
  · split at h
    · exact (Prod.mk.inj h).2.symm
    · split at h
      · exact (Prod.mk.inj h).2.symm
      · split at h
        · exact (Prod.mk.inj h).2.symm
        · cases h

/-- What fails to apply has taken nothing out that was there. -/
theorem applyToFoundedGroup_error {event : MembershipEvent} {error : ConsensusError}
    (h : s.applyToFoundedGroup event = (.error error, t)) : t = s := by
  cases event with
  | memberAdded member => cases h
  | protocolRaised newProtocol => cases h
  | groupFounded groupId founders settings => exact (Prod.mk.inj h).2.symm
  | approved proposal => exact (Prod.mk.inj h).2.symm
  | withdrawn proposal => exact (Prod.mk.inj h).2.symm
  | memberExpelled member reason =>
    simp only [applyToFoundedGroup] at h
    rcases hr : s.members[member]? with _ | record <;> rw [hr] at h
    · -- the removal that found nobody to remove
      rw [← (Prod.mk.inj h).2, OrdMap.erase_eq_self hr]
    · cases h
  | pledgeChanged member pledgeBytes =>
    simp only [applyToFoundedGroup] at h
    split at h
    · exact (Prod.mk.inj h).2.symm
    · cases h
  | protocolSupported member max =>
    simp only [applyToFoundedGroup] at h
    split at h
    · exact (Prod.mk.inj h).2.symm
    · cases h
  | coreGroupChanged core =>
    simp only [applyToFoundedGroup] at h
    split at h
    · exact (Prod.mk.inj h).2.symm
    · split at h
      · exact (Prod.mk.inj h).2.symm
      · split at h
        · exact (Prod.mk.inj h).2.symm
        · cases h

theorem enact_error {event : MembershipEvent} {error : ConsensusError}
    (h : s.enact event = (.error error, t)) : t = s := by
  rw [enact] at h
  split at h
  · rename_i error' s' hs
    rw [← (Prod.mk.inj h).2]
    exact applyToFoundedGroup_error hs
  · cases h

theorem submit_error {index : ℕ} {proposer : MemberId} {event : MembershipEvent}
    {error : ConsensusError} (h : s.submit index proposer event = (.error error, t)) : t = s := by
  simp only [submit] at h
  split at h
  · exact enact_error h
  · split at h
    · exact (Prod.mk.inj h).2.symm
    · cases h

/-- What an approval takes out it puts back, on either of its error paths. -/
theorem pending_restored {proposal : ℕ} {entry : Proposal} (h : s.pending[proposal]? = some entry) :
    { s with pending := (s.pending.erase proposal).insert proposal entry } = s := by
  rw [OrdMap.insert_erase_self h]

/-- A proposal that fails to be approved is put back. -/
theorem approve_error {index proposal : ℕ} {approver : MemberId} {error : ConsensusError}
    (h : s.approve index proposal approver = (.error error, t)) : t = s := by
  rw [approve] at h
  rcases he : s.pending[proposal]? with _ | entry <;> rw [he] at h
  · exact (Prod.mk.inj h).2.symm
  · simp only at h
    split at h
    · rw [← (Prod.mk.inj h).2]
      exact pending_restored he
    · split at h
      · cases h
      · split at h
        · cases h
        · -- the enactment itself was refused
          rename_i error' s' hs
          rw [← (Prod.mk.inj h).2, enact_error hs]
          exact pending_restored he

theorem withdraw_error {proposal : ℕ} {member : MemberId} {error : ConsensusError}
    (h : s.withdraw proposal member = (.error error, t)) : t = s := by
  rw [withdraw] at h
  split at h
  · exact (Prod.mk.inj h).2.symm
  · split at h
    · exact (Prod.mk.inj h).2.symm
    · cases h

/-- **A refusal changes nothing**, whatever the event was. -/
theorem dispatch_error {index : ℕ} {proposer : MemberId} {event : MembershipEvent}
    {error : ConsensusError} (h : s.dispatch index proposer event = (.error error, t)) : t = s := by
  unfold dispatch at h
  split at h
  · exact found_error h
  · split at h
    · exact (Prod.mk.inj h).2.symm
    · split at h
      · exact (Prod.mk.inj h).2.symm
      · split at h
        · exact (Prod.mk.inj h).2.symm
        · split at h
          · exact approve_error h
          · exact withdraw_error h
          · exact submit_error h

/-- A refused entry leaves the state as it was. -/
theorem apply_error {index : ℕ} {signed : SignedEvent} {error : ConsensusError}
    (h : s.apply sig index signed = (.error error, t)) : t = s := by
  rw [apply] at h
  split at h
  · exact (Prod.mk.inj h).2.symm
  · split at h
    · exact (Prod.mk.inj h).2.symm
    · split at h
      · rename_i error' s' hs
        rw [← (Prod.mk.inj h).2]
        exact dispatch_error hs
      · cases h

/-- **Atomicity.** Whatever the state, the index and the entry, if `apply`
refuses then every field of the state is what it was before the call: also when
`approve` had already taken the proposal out, and when the enactment itself is
what was refused. -/
theorem apply_atomic (sig : Signing) (s : MembershipState) (index : ℕ) (signed : SignedEvent)
    (error : ConsensusError) (h : (s.apply sig index signed).1 = .error error) :
    (s.apply sig index signed).2 = s := by
  rcases hs : s.apply sig index signed with ⟨verdict, t⟩
  rw [hs] at h
  obtain rfl : verdict = .error error := h
  exact apply_error hs

/-- A refusal in the depth of `approve`: a core map that names a non-member is
decided by its second approval, and its enactment is then refused. -/
theorem apply_atomic_refused_enactment :
    let s := fold .accepting
      [(1, .signedBy alice 0 (.groupFounded ⟨9⟩ [(⟨alice, "alice"⟩, default), (⟨bob, "bob"⟩, default)]
        default)),
       (2, .signedBy alice 1 (.coreGroupChanged [(alice, default), (bob, default), (carol, default)]))]
    (s.apply .accepting 3 (.signedBy bob 2 (.approved 2))).1 = .error .invalidCoreGroup ∧
      (s.apply .accepting 3 (.signedBy bob 2 (.approved 2))).2 = s :=
  ⟨by decide +kernel, apply_atomic _ _ _ _ .invalidCoreGroup (by decide +kernel)⟩

/-! ## Successes

`Effect` is what a decided event does to a founded group, with what
`applyToFoundedGroup` has checked by then; `Enacted` adds the pruning of the
pending table; `Step` is everything `apply` can do before its sweep. -/

/-- What putting `event` into a founded group does. -/
inductive Effect (s : MembershipState) : MembershipEvent → MembershipState → Prop
  | memberAdded (member : MemberProfile) :
      Effect s (.memberAdded member)
        { s with
          members := s.members.insert member.memberId
            (MemberRecord.of member (s.ownFields member.memberId).1
              (s.ownFields member.memberId).2) }
  | memberExpelled {member : MemberId} {reason : String} {record : MemberRecord}
      (known : s.members[member]? = some record) :
      Effect s (.memberExpelled member reason)
        { s with members := s.members.erase member, core := s.core.erase member }
  | pledgeChanged {member : MemberId} {pledgeBytes : ℕ} {record : MemberRecord}
      (known : s.members[member]? = some record) :
      Effect s (.pledgeChanged member pledgeBytes)
        { s with members := s.members.insert member { record with pledgeBytes } }
  | coreGroupChanged {core : List (MemberId × NodeAddr)} (nonempty : core ≠ [])
      (members : ∀ entry ∈ core, entry.1 ∈ s.members) (distinct : (core.map Prod.fst).Nodup)
      (supported : ∀ member ∈ coreMap core, s.speaks member s.protocol = true) :
      Effect s (.coreGroupChanged core) { s with core := coreMap core }
  | protocolSupported {member : MemberId} {max : UInt32} {record : MemberRecord}
      (known : s.members[member]? = some record) :
      Effect s (.protocolSupported member max)
        { s with members := s.members.insert member { record with protocolMax := max } }
  | protocolRaised (newProtocol : UInt32) :
      Effect s (.protocolRaised newProtocol) { s with protocol := newProtocol }

/-- What a decided event leaves of the state: its effect, less the proposals
the effect has made stale. -/
def Enacted (s : MembershipState) (event : MembershipEvent) (t : MembershipState) : Prop :=
  ∃ u, Effect s event u ∧
    t = { u with
      pending := u.pending.filter fun _ waiting =>
        standsAfter (subject event) s.core u.core waiting }

/-- Everything a successful entry can do, before the sweep that ends it. -/
inductive Step (s : MembershipState) (index : ℕ) (proposer : MemberId) :
    MembershipEvent → MembershipState → Prop
  /-- the group is founded -/
  | founded {groupId : GroupId} {founders : List (MemberProfile × NodeAddr)}
      {settings : GroupSettings} (fresh : s.group = none)
      (checked : checkFounders founders = .ok ()) :
      Step s index proposer (.groupFounded groupId founders settings)
        (s.withFounders groupId founders settings)
  /-- a submission is decided by the approval it arrives with -/
  | atOnce {event : MembershipEvent} {t : MembershipState} (group : s.group.isSome)
      (member : proposer ∈ s.members) (allowed : s.authorise proposer event = .ok ())
      (decided : s.decided event (s.firstApprovals proposer event) = true)
      (enacted : Enacted s event t) : Step s index proposer event t
  /-- a submission waits for more -/
  | waits {event : MembershipEvent} (group : s.group.isSome) (member : proposer ∈ s.members)
      (allowed : s.authorise proposer event = .ok ())
      (undecided : s.decided event (s.firstApprovals proposer event) = false)
      (proposable : (subject event).isSome) (free : s.slotHolder index event = none) :
      Step s index proposer event
        { s with
          pending := s.pending.insert index
            { event, proposer, approvals := s.firstApprovals proposer event } }
  /-- an approval is recorded, and more are needed -/
  | agreed {proposal : ℕ} {entry : Proposal} (group : s.group.isSome) (core : proposer ∈ s.core)
      (waiting : s.pending[proposal]? = some entry)
      (allowed : s.stillAllowed index proposal entry proposer = .ok ())
      (undecided : s.decided entry.event (insert proposer entry.approvals) = false) :
      Step s index proposer (.approved proposal)
        { s with
          pending := (s.pending.erase proposal).insert proposal
            { entry with approvals := insert proposer entry.approvals } }
  /-- an approval decides its proposal -/
  | carried {proposal : ℕ} {entry : Proposal} {t : MembershipState} (group : s.group.isSome)
      (core : proposer ∈ s.core) (waiting : s.pending[proposal]? = some entry)
      (allowed : s.stillAllowed index proposal entry proposer = .ok ())
      (decided : s.decided entry.event (insert proposer entry.approvals) = true)
      (enacted : Enacted { s with pending := s.pending.erase proposal } entry.event t) :
      Step s index proposer (.approved proposal) t
  /-- a proposal is taken back -/
  | withdrawn {proposal : ℕ} {entry : Proposal} (group : s.group.isSome)
      (waiting : s.pending[proposal]? = some entry) (own : entry.proposer = proposer) :
      Step s index proposer (.withdrawn proposal)
        { s with pending := s.pending.erase proposal }

theorem coreSupports_eq_ok {core : List MemberId} {protocol : UInt32} :
    s.coreSupports core protocol = .ok () ↔ ∀ member ∈ core, s.speaks member protocol = true := by
  rw [coreSupports]
  rcases hf : core.find? (fun member => !s.speaks member protocol) with _ | member
  · simpa using hf
  · have hfound := List.find?_some hf
    have hmem := List.mem_of_find?_eq_some hf
    simp only [reduceCtorEq, false_iff, not_forall]
    exact ⟨member, hmem, by simpa using hfound⟩

/-- A core group that is put in place has passed every check. -/
theorem effect_of_coreGroupChanged {core : List (MemberId × NodeAddr)}
    (h : s.applyToFoundedGroup (.coreGroupChanged core) = (.ok (), t)) :
    Effect s (.coreGroupChanged core) t := by
  simp only [applyToFoundedGroup] at h
  split at h
  · cases h
  · rename_i hvalid
    split at h
    · cases h
    · rename_i hsize
      split at h
      · cases h
      · rename_i hsupports
        obtain rfl := (Prod.mk.inj h).2
        have hdistinct := OrdMap.size_ofList_eq_length_iff.mp (not_not.mp hsize)
        rw [coreSupports_eq_ok] at hsupports
        simp only [Bool.or_eq_true, not_or, List.isEmpty_iff, Bool.not_eq_true',
          Bool.not_eq_false, List.all_eq_true] at hvalid
        refine .coreGroupChanged hvalid.1 ?_ hdistinct ?_
        · intro entry hentry
          exact Std.ExtTreeMap.mem_iff_contains.mpr (hvalid.2 entry hentry)
        · intro member hmember
          exact hsupports member (Std.ExtTreeMap.mem_keys.mpr hmember)

/-- What is applied was checked, and has its effect. -/
theorem effect_of_applyToFoundedGroup {event : MembershipEvent}
    (h : s.applyToFoundedGroup event = (.ok (), t)) : Effect s event t := by
  cases event with
  | groupFounded groupId founders settings => cases h
  | approved proposal => cases h
  | withdrawn proposal => cases h
  | memberAdded member =>
    obtain rfl := (Prod.mk.inj h).2
    exact .memberAdded member
  | protocolRaised newProtocol =>
    obtain rfl := (Prod.mk.inj h).2
    exact .protocolRaised newProtocol
  | memberExpelled member reason =>
    simp only [applyToFoundedGroup] at h
    rcases hr : s.members[member]? with _ | record <;> rw [hr] at h
    · cases h
    · obtain rfl := (Prod.mk.inj h).2
      exact .memberExpelled hr
  | pledgeChanged member pledgeBytes =>
    simp only [applyToFoundedGroup] at h
    rcases hr : s.members[member]? with _ | record <;> rw [hr] at h
    · cases h
    · obtain rfl := (Prod.mk.inj h).2
      exact .pledgeChanged hr
  | protocolSupported member max =>
    simp only [applyToFoundedGroup] at h
    rcases hr : s.members[member]? with _ | record <;> rw [hr] at h
    · cases h
    · obtain rfl := (Prod.mk.inj h).2
      exact .protocolSupported hr
  | coreGroupChanged core => exact effect_of_coreGroupChanged h

/-- What is enacted has its effect and sweeps what does not stand any more. -/
theorem enacted_of_enact {event : MembershipEvent} (h : s.enact event = (.ok (), t)) :
    Enacted s event t := by
  rw [enact] at h
  split at h
  · cases h
  · rename_i u hu
    exact ⟨u, effect_of_applyToFoundedGroup hu, (Prod.mk.inj h).2.symm⟩

/-- Only what a majority or a core member has to agree to can be undecided: a
pledge and a statement of support need nobody. -/
theorem proposable_of_undecided {event : MembershipEvent} {approvals : Finset MemberId}
    (h : s.decided event approvals = false)
    (hfounded : ∀ groupId founders settings, event ≠ .groupFounded groupId founders settings)
    (happroved : ∀ proposal, event ≠ .approved proposal)
    (hwithdrawn : ∀ proposal, event ≠ .withdrawn proposal) : (subject event).isSome := by
  cases event with
  | groupFounded groupId founders settings => exact absurd rfl (hfounded _ _ _)
  | approved proposal => exact absurd rfl (happroved _)
  | withdrawn proposal => exact absurd rfl (hwithdrawn _)
  | pledgeChanged member pledgeBytes => simp [decided, approvalsNeeded] at h
  | protocolSupported member max => simp [decided, approvalsNeeded] at h
  | memberAdded member => rfl
  | memberExpelled member reason => rfl
  | coreGroupChanged core => rfl
  | protocolRaised newProtocol => rfl

/-- A founding that succeeds is of a group that is none yet. -/
theorem step_of_found {index : ℕ} {groupId : GroupId}
    {founders : List (MemberProfile × NodeAddr)} {settings : GroupSettings} {proposer : MemberId}
    (h : s.found groupId founders settings proposer = (.ok (), t)) :
    Step s index proposer (.groupFounded groupId founders settings) t := by
  rw [found] at h
  split at h
  · cases h
  · rename_i hfresh
    split at h
    · cases h
    · rename_i hchecked
      split at h
      · cases h
      · split at h
        · cases h
        · obtain rfl := (Prod.mk.inj h).2
          exact .founded (by simpa using hfresh) hchecked

/-- A submission that succeeds is enacted at once or waits. -/
theorem step_of_submit {index : ℕ} {proposer : MemberId} {event : MembershipEvent}
    (group : s.group.isSome) (member : proposer ∈ s.members)
    (allowed : s.authorise proposer event = .ok ())
    (proposable : ∀ approvals, s.decided event approvals = false → (subject event).isSome)
    (h : s.submit index proposer event = (.ok (), t)) : Step s index proposer event t := by
  simp only [submit] at h
  split at h
  · rename_i hdecided
    exact .atOnce group member allowed hdecided (enacted_of_enact h)
  · rename_i hundecided
    rw [Bool.not_eq_true] at hundecided
    rcases hslot : s.slotHolder index event with _ | waiting <;> rw [hslot] at h
    · obtain rfl := (Prod.mk.inj h).2
      exact .waits group member allowed hundecided (proposable _ hundecided) hslot
    · cases h

/-- An approval that succeeds is one more, or the last one needed. -/
theorem step_of_approve {index proposal : ℕ} {approver : MemberId} (group : s.group.isSome)
    (core : approver ∈ s.core) (h : s.approve index proposal approver = (.ok (), t)) :
    Step s index approver (.approved proposal) t := by
  rw [approve] at h
  rcases he : s.pending[proposal]? with _ | entry <;> rw [he] at h
  · cases h
  · simp only at h
    split at h
    · cases h
    · rename_i hallowed
      split at h
      · rename_i hundecided
        rw [Bool.not_eq_true'] at hundecided
        obtain rfl := (Prod.mk.inj h).2
        exact .agreed group core he hallowed hundecided
      · rename_i hdecided
        rw [Bool.not_eq_true', Bool.not_eq_false] at hdecided
        split at h
        · rename_i u hu
          obtain rfl := (Prod.mk.inj h).2
          exact .carried group core he hallowed hdecided (enacted_of_enact hu)
        · cases h

/-- A withdrawal that succeeds is of the member's own proposal. -/
theorem step_of_withdraw {index proposal : ℕ} {member : MemberId} (group : s.group.isSome)
    (h : s.withdraw proposal member = (.ok (), t)) :
    Step s index member (.withdrawn proposal) t := by
  rw [withdraw] at h
  rcases he : s.pending[proposal]? with _ | entry <;> rw [he] at h
  · cases h
  · simp only at h
    split at h
    · cases h
    · rename_i hown
      obtain rfl := (Prod.mk.inj h).2
      exact .withdrawn group he (not_not.mp hown)

/-- **A success is one of the steps**, whatever the event was. -/
theorem step_of_dispatch {index : ℕ} {proposer : MemberId} {event : MembershipEvent}
    (h : s.dispatch index proposer event = (.ok (), t)) : Step s index proposer event t := by
  unfold dispatch at h
  split at h
  · exact step_of_found h
  · rename_i hfounded
    split at h
    · cases h
    · rename_i hgroup
      split at h
      · cases h
      · rename_i hmember
        split at h
        · cases h
        · rename_i hallowed
          have group : s.group.isSome := Option.isSome_iff_ne_none.mpr (by simpa using hgroup)
          have member : proposer ∈ s.members := by
            rw [Std.ExtTreeMap.mem_iff_contains]
            simpa using hmember
          split at h
          · -- only a core member's approval gets past `authorise`
            rename_i proposal
            have core : proposer ∈ s.core := by
              rw [Std.ExtTreeMap.mem_iff_contains]
              by_contra hcore
              simp [authorise, hcore] at hallowed
            exact step_of_approve group core h
          · exact step_of_withdraw group h
          · rename_i happroved hwithdrawn
            exact step_of_submit group member hallowed
              (fun approvals hundecided => proposable_of_undecided hundecided
                hfounded happroved hwithdrawn) h

/-- **What a successful entry is**: verified, proposed against the current
membership, and one of the six steps followed by the sweep. -/
theorem step_of_apply {index : ℕ} {signed : SignedEvent}
    (h : s.apply sig index signed = (.ok (), t)) :
    signed.verify sig = .ok () ∧ signed.changedAt = s.changedAt ∧
      ∃ u, Step s index signed.proposer signed.payload u ∧ t = u.sweep index := by
  rw [apply] at h
  rcases he : signed.event sig with error | event <;> rw [he] at h
  · cases h
  · obtain ⟨hverified, rfl⟩ := SignedEvent.event_eq_ok he
    simp only at h
    split at h
    · cases h
    · rename_i hcurrent
      split at h
      · cases h
      · rename_i u hu
        exact ⟨hverified, not_not.mp hcurrent, u, step_of_dispatch hu, (Prod.mk.inj h).2.symm⟩

/-- An entry is refused and changes nothing, or it takes one step. -/
theorem apply_cases (sig : Signing) (s : MembershipState) (index : ℕ) (signed : SignedEvent) :
    (s.apply sig index signed).2 = s ∨
      (signed.verify sig = .ok () ∧ signed.changedAt = s.changedAt ∧
        (s.apply sig index signed).1 = .ok () ∧
        ∃ u, Step s index signed.proposer signed.payload u ∧
          (s.apply sig index signed).2 = u.sweep index) := by
  rcases h : s.apply sig index signed with ⟨error | ⟨⟩, t⟩
  · exact Or.inl (apply_error h)
  · obtain ⟨hverified, hcurrent, hstep⟩ := step_of_apply h
    exact Or.inr ⟨hverified, hcurrent, rfl, hstep⟩

end MembershipState

end Distlib
