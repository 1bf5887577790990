import Distlib.Consensus.Step

/-!
# Runs of the projection, and what every one of them keeps

The fold of a log at strictly increasing indices, refused entries included. A
refused entry leaves the state alone and a successful one takes a step, so a
property of a log and the state it leads to is an invariant as soon as a step
and its sweep preserve it (`fold_induction`).

The invariant here is `Sound`: the core group is inside the membership, every
record sits under its own id, no proposal counts its target among its
approvals, and, once the group is founded, **the core is not empty**. Nothing
in the program puts a floor under expulsion. The floor is the threshold:
removing a voter takes more than half of the core, the voter itself does not
count, and a core of one or two has no such majority (`Effect.core_ne_empty`).
-/

namespace Distlib

open IndexedLog

namespace MembershipState

variable {s t u : MembershipState} {sig : Signing}

/-! ## The run rule -/

theorem fold_concat (sig : Signing) (pre : Log SignedEvent) (i : ℕ) (signed : SignedEvent) :
    fold sig (pre ++ [(i, signed)]) = ((fold sig pre).apply sig i signed).2 :=
  run_concat ..

/-- A successful entry at the end of `pre`, with everything `apply` has checked
and the step it took. -/
structure Succeeds (sig : Signing) (pre : Log SignedEvent) (i : ℕ) (signed : SignedEvent)
    (u : MembershipState) : Prop where
  verified : signed.verify sig = .ok ()
  current : signed.changedAt = (fold sig pre).changedAt
  ok : ((fold sig pre).apply sig i signed).1 = .ok ()
  step : Step (fold sig pre) i signed.proposer signed.payload u
  next : fold sig (pre ++ [(i, signed)]) = u.sweep i

theorem succeeds_of_apply {pre : Log SignedEvent} {i : ℕ} {signed : SignedEvent}
    (h : ((fold sig pre).apply sig i signed).1 = .ok ()) : ∃ u, Succeeds sig pre i signed u := by
  rcases hs : (fold sig pre).apply sig i signed with ⟨verdict, t⟩
  rw [hs] at h
  obtain rfl : verdict = .ok () := h
  obtain ⟨hverified, hcurrent, u, hstep, rfl⟩ := step_of_apply hs
  exact ⟨u, hverified, hcurrent, by rw [hs], hstep, by rw [fold_concat, hs]⟩

/-- **The fold rule**: what holds of the empty log, survives a refused entry and
survives a successful one holds of every log and the state it leads to. -/
theorem fold_induction {P : Log SignedEvent → MembershipState → Prop} (init : P [] new)
    (refused : ∀ (pre : Log SignedEvent) (i : ℕ) (signed : SignedEvent),
      Ascending (pre ++ [(i, signed)]) → P pre (fold sig pre) →
      fold sig (pre ++ [(i, signed)]) = fold sig pre → P (pre ++ [(i, signed)]) (fold sig pre))
    (succeeded : ∀ (pre : Log SignedEvent) (i : ℕ) (signed : SignedEvent) (u : MembershipState),
      Ascending (pre ++ [(i, signed)]) → P pre (fold sig pre) → Succeeds sig pre i signed u →
      P (pre ++ [(i, signed)]) (u.sweep i)) :
    ∀ (log : Log SignedEvent), Ascending log → P log (fold sig log) := by
  apply run_induction init
  intro pre i signed hasc hpre
  change P (pre ++ [(i, signed)]) ((fold sig pre).apply sig i signed).2
  rcases h : (fold sig pre).apply sig i signed with ⟨error | ⟨⟩, t⟩
  · have hsame := apply_error h
    rw [hsame]
    exact refused pre i signed hasc hpre (by rw [fold_concat, h, hsame])
  · obtain ⟨u, hu⟩ := succeeds_of_apply (congrArg Prod.fst h)
    have hnext : t = u.sweep i := by rw [← hu.next, fold_concat, h]
    rw [hnext]
    exact succeeded pre i signed u hasc hpre hu

/-- The fold rule for a property of the state alone. -/
theorem fold_invariant {P : MembershipState → Prop} (init : P new)
    (succeeded : ∀ (s u : MembershipState) (i : ℕ) (proposer : MemberId) (event : MembershipEvent),
      P s → Step s i proposer event u → P (u.sweep i)) (log : Log SignedEvent)
    (hasc : Ascending log) : P (fold sig log) :=
  fold_induction (P := fun _ s => P s) init (fun _ _ _ _ hpre _ => hpre)
    (fun _ i _ u _ hpre hu => succeeded _ u i _ _ hpre hu.step) log hasc

/-! ## The threshold is a floor -/

/-- `event`'s target is not among `approvals`. -/
def TargetExcluded (event : MembershipEvent) (approvals : Finset MemberId) : Prop :=
  ∀ member, target event = some member → member ∉ approvals

theorem targetExcluded_firstApprovals (s : MembershipState) (proposer : MemberId)
    (event : MembershipEvent) : TargetExcluded event (s.firstApprovals proposer event) := by
  intro member htarget hmem
  rw [firstApprovals] at hmem
  split at hmem
  · rename_i hcond
    simp only [Bool.and_eq_true, decide_eq_true_eq] at hcond
    rw [Finset.mem_singleton] at hmem
    exact hcond.2 (hmem ▸ htarget)
  · simp at hmem

theorem TargetExcluded.insert {event : MembershipEvent} {approvals : Finset MemberId}
    {approver : MemberId} (h : TargetExcluded event approvals)
    (hne : target event ≠ some approver) : TargetExcluded event (insert approver approvals) := by
  intro member htarget hmem
  rcases Finset.mem_insert.mp hmem with rfl | hmem
  · exact hne htarget
  · exact h member htarget hmem

theorem mem_counting {approvals : Finset MemberId} {member : MemberId} :
    member ∈ s.counting approvals ↔ member ∈ approvals ∧ member ∈ s.core := by
  simp [counting, isCore]

/-- What `stillAllowed` has checked. -/
theorem stillAllowed_eq_ok {index proposal : ℕ} {entry : Proposal} {approver : MemberId}
    (h : s.stillAllowed index proposal entry approver = .ok ()) :
    s.expired proposal index = false ∧ target entry.event ≠ some approver ∧
      entry.proposer ∈ s.members ∧ s.authorise entry.proposer entry.event = .ok () := by
  rw [stillAllowed] at h
  split at h
  · cases h
  · rename_i hexpired
    split at h
    · cases h
    · rename_i htarget
      split at h
      · cases h
      · rename_i hmember
        refine ⟨by simpa using hexpired, htarget, ?_, h⟩
        rw [Std.ExtTreeMap.mem_iff_contains]
        simpa using hmember

/-- Somebody in the core other than a voter being expelled backs a decided
event that needs a majority. -/
theorem core_erase_ne_empty {member : MemberId} {reason : String} {approvals : Finset MemberId}
    (hcore : s.core ≠ ∅) (hdecided : s.decided (.memberExpelled member reason) approvals = true)
    (hout : TargetExcluded (.memberExpelled member reason) approvals) :
    s.core.erase member ≠ ∅ := by
  rcases hget : s.core[member]? with _ | addr
  · rw [OrdMap.erase_eq_self hget]
    exact hcore
  · have hmem : s.core.contains member = true :=
      Std.ExtTreeMap.mem_iff_contains.mp
        (Std.ExtTreeMap.mem_iff_isSome_getElem?.mpr (by rw [hget]; rfl))
    have hcard : 0 < (s.counting approvals).card := by
      simp only [decided, approvalsNeeded, changesTheVoters, isCore, hmem, if_true, ge_iff_le,
        decide_eq_true_eq] at hdecided
      omega
    obtain ⟨backer, hbacker⟩ := Finset.card_pos.mp hcard
    obtain ⟨happroved, hin⟩ := mem_counting.mp hbacker
    have hne : member ≠ backer := by
      rintro rfl
      exact hout member rfl happroved
    rw [← OrdMap.keySet_nonempty_iff, OrdMap.keySet_erase]
    exact ⟨backer, Finset.mem_erase.mpr ⟨hne.symm, OrdMap.mem_keySet.mpr hin⟩⟩

/-- **No decided event empties the core.** -/
theorem Effect.core_ne_empty {event : MembershipEvent} {approvals : Finset MemberId}
    (h : Effect s event t) (hcore : s.core ≠ ∅) (hdecided : s.decided event approvals = true)
    (hout : TargetExcluded event approvals) : t.core ≠ ∅ := by
  cases h with
  | memberAdded member => exact hcore
  | memberExpelled known => exact core_erase_ne_empty hcore hdecided hout
  | pledgeChanged known => exact hcore
  | coreGroupChanged nonempty members distinct supported =>
    obtain ⟨entry, hentry⟩ := List.exists_mem_of_ne_nil _ nonempty
    rw [← OrdMap.keySet_nonempty_iff]
    exact ⟨entry.1, OrdMap.mem_keySet.mpr (OrdMap.mem_ofList_iff.mpr ⟨entry.2, hentry⟩)⟩
  | protocolSupported known => exact hcore
  | protocolRaised newProtocol => exact hcore

/-! ## What a step does to each part of the state -/

/-- An effect touches the members, the core and the protocol, nothing else. -/
theorem Effect.frame {event : MembershipEvent} (h : Effect s event t) :
    t.group = s.group ∧ t.settings = s.settings ∧ t.pending = s.pending := by
  cases h <;> exact ⟨rfl, rfl, rfl⟩

theorem Enacted.frame {event : MembershipEvent} (h : Enacted s event t) :
    t.group = s.group ∧ t.settings = s.settings := by
  obtain ⟨u, hu, rfl⟩ := h
  exact ⟨hu.frame.1, hu.frame.2.1⟩

/-- A proposal still pending after an enactment was pending before, and stands
against what the enactment moved. -/
theorem Enacted.pending {event : MembershipEvent} {proposal : ℕ} {entry : Proposal}
    (h : Enacted s event t) (hp : t.pending[proposal]? = some entry) :
    s.pending[proposal]? = some entry ∧ standsAfter (subject event) s.core t.core entry = true := by
  obtain ⟨u, hu, rfl⟩ := h
  obtain ⟨hget, hstands⟩ := OrdMap.getElem?_filter_eq_some.mp hp
  rw [hu.frame.2.2] at hget
  exact ⟨hget, hstands⟩

theorem Step.founded_stays {index : ℕ} {proposer : MemberId} {event : MembershipEvent} {g : GroupId}
    (h : Step s index proposer event u) (hg : s.group = some g) :
    u.group = some g ∧ u.settings = s.settings := by
  cases h with
  | founded fresh checked =>
    rw [fresh] at hg
    cases hg
  | atOnce group member allowed decided enacted => exact ⟨enacted.frame.1.trans hg, enacted.frame.2⟩
  | carried group core waiting allowed decided enacted =>
    exact ⟨enacted.frame.1.trans hg, enacted.frame.2⟩
  | waits | agreed | withdrawn => exact ⟨hg, rfl⟩

/-- Where an entry of the pending table comes from: it was there, it was just
submitted, or it was there with one approval fewer. -/
theorem Step.pending_cases {index : ℕ} {proposer : MemberId} {event : MembershipEvent}
    {p : ℕ} {entry : Proposal} (h : Step s index proposer event u)
    (hp : u.pending[p]? = some entry) :
    s.pending[p]? = some entry ∨
      (p = index ∧ entry = ⟨event, proposer, s.firstApprovals proposer event⟩ ∧
        (subject event).isSome ∧ s.slotHolder index event = none ∧ u.core = s.core ∧
        u.settings = s.settings) ∨
      ∃ old, s.pending[p]? = some old ∧ event = .approved p ∧ target old.event ≠ some proposer ∧
        entry = { old with approvals := insert proposer old.approvals } ∧ u.core = s.core := by
  cases h with
  | founded fresh checked => exact Or.inl hp
  | atOnce group member allowed decided enacted => exact Or.inl (enacted.pending hp).1
  | waits group member allowed undecided proposable free =>
    simp only [Std.ExtTreeMap.getElem?_insert, Std.LawfulEqCmp.compare_eq_iff_eq] at hp
    split at hp
    · rename_i heq
      exact Or.inr (Or.inl ⟨heq.symm, (Option.some.inj hp).symm, proposable, free, rfl, rfl⟩)
    · exact Or.inl hp
  | @agreed proposal old group core waiting allowed undecided =>
    simp only [Std.ExtTreeMap.getElem?_insert, Std.LawfulEqCmp.compare_eq_iff_eq,
      Std.ExtTreeMap.getElem?_erase] at hp
    split at hp
    · rename_i heq
      subst heq
      exact Or.inr (Or.inr ⟨old, waiting, rfl, (stillAllowed_eq_ok allowed).2.1,
        (Option.some.inj hp).symm, rfl⟩)
    · exact Or.inl hp
  | carried group core waiting allowed decided enacted =>
    have hget := (enacted.pending hp).1
    simp only [Std.ExtTreeMap.getElem?_erase, Std.LawfulEqCmp.compare_eq_iff_eq] at hget
    split at hget
    · cases hget
    · exact Or.inl hget
  | withdrawn group waiting own =>
    simp only [Std.ExtTreeMap.getElem?_erase, Std.LawfulEqCmp.compare_eq_iff_eq] at hp
    split at hp
    · cases hp
    · exact Or.inl hp

/-- What the sweep keeps: the proposals within their expiry. -/
theorem sweep_pending {index p : ℕ} {entry : Proposal} :
    (s.sweep index).pending[p]? = some entry ↔
      s.pending[p]? = some entry ∧ index - p < s.settings.pendingExpiry := by
  simp only [sweep, OrdMap.getElem?_filter_eq_some, decide_eq_true_eq]

/-! ## The invariant -/

/-- What every reachable state keeps. -/
structure Sound (s : MembershipState) : Prop where
  /-- a founded group has a voter -/
  coreNonempty : s.group.isSome → s.core ≠ ∅
  /-- every voter is a member -/
  coreMembers : ∀ member ∈ s.core, member ∈ s.members
  /-- every record sits under its own id -/
  keyed : ∀ (member : MemberId) (record : MemberRecord),
    s.members[member]? = some record → record.memberId = member
  /-- nobody's own expulsion counts their approval -/
  targets : ∀ (p : ℕ) (entry : Proposal), s.pending[p]? = some entry →
    TargetExcluded entry.event entry.approvals

theorem sound_new : Sound new where
  coreNonempty h := by cases h
  coreMembers member h := by simp [new] at h
  keyed member record h := by simp [new] at h
  targets p entry h := by simp [new] at h

theorem Effect.coreMembers {event : MembershipEvent} (h : Effect s event t)
    (hs : ∀ member ∈ s.core, member ∈ s.members) : ∀ member ∈ t.core, member ∈ t.members := by
  intro member hmem
  cases h with
  | memberAdded added => exact Std.ExtTreeMap.mem_insert.mpr (Or.inr (hs member hmem))
  | memberExpelled known =>
    obtain ⟨hne, hcore⟩ := Std.ExtTreeMap.mem_erase.mp hmem
    exact Std.ExtTreeMap.mem_erase.mpr ⟨hne, hs member hcore⟩
  | pledgeChanged known => exact Std.ExtTreeMap.mem_insert.mpr (Or.inr (hs member hmem))
  | coreGroupChanged nonempty members distinct supported =>
    obtain ⟨addr, hentry⟩ := OrdMap.mem_ofList_iff.mp hmem
    exact members _ hentry
  | protocolSupported known => exact Std.ExtTreeMap.mem_insert.mpr (Or.inr (hs member hmem))
  | protocolRaised newProtocol => exact hs member hmem

/-- Replacing a record under its own id keeps every record under its own id. -/
theorem keyed_insert {members : OrdMap MemberId MemberRecord} (record : MemberRecord)
    (hs : ∀ (member : MemberId) (r : MemberRecord), members[member]? = some r →
      r.memberId = member) :
    ∀ (member : MemberId) (r : MemberRecord),
      (members.insert record.memberId record)[member]? = some r → r.memberId = member := by
  intro member r hget
  simp only [Std.ExtTreeMap.getElem?_insert, Std.LawfulEqCmp.compare_eq_iff_eq] at hget
  split at hget
  · rename_i heq
    obtain rfl := Option.some.inj hget
    exact heq
  · exact hs member r hget

theorem Effect.keyed {event : MembershipEvent} (h : Effect s event t)
    (hs : ∀ (member : MemberId) (record : MemberRecord), s.members[member]? = some record →
      record.memberId = member) :
    ∀ (member : MemberId) (record : MemberRecord), t.members[member]? = some record →
      record.memberId = member := by
  cases h with
  | memberAdded added => exact keyed_insert (MemberRecord.of added _ _) hs
  | memberExpelled known =>
    intro member record hget
    simp only [Std.ExtTreeMap.getElem?_erase, Std.LawfulEqCmp.compare_eq_iff_eq] at hget
    split at hget
    · cases hget
    · exact hs member record hget
  | @pledgeChanged member pledgeBytes record known =>
    obtain rfl := hs member record known
    exact keyed_insert { record with pledgeBytes } hs
  | coreGroupChanged nonempty members distinct supported => exact hs
  | @protocolSupported member max record known =>
    obtain rfl := hs member record known
    exact keyed_insert { record with protocolMax := max } hs
  | protocolRaised newProtocol => exact hs

theorem withFounders_ne_empty {groupId : GroupId} {founders : List (MemberProfile × NodeAddr)}
    {settings : GroupSettings} (h : checkFounders founders = .ok ()) :
    (s.withFounders groupId founders settings).core ≠ ∅ := by
  obtain ⟨founder, hfounder⟩ := List.exists_mem_of_ne_nil _ (checkFounders_ne_nil h)
  rw [← OrdMap.keySet_nonempty_iff]
  refine ⟨founder.1.memberId, OrdMap.mem_keySet.mpr (OrdMap.mem_ofList_iff.mpr ?_)⟩
  exact ⟨founder.2, List.mem_map.mpr ⟨founder, hfounder, rfl⟩⟩

theorem withFounders_coreMembers {groupId : GroupId} {founders : List (MemberProfile × NodeAddr)}
    {settings : GroupSettings} :
    ∀ member ∈ (s.withFounders groupId founders settings).core,
      member ∈ (s.withFounders groupId founders settings).members := by
  intro member hmem
  obtain ⟨addr, hentry⟩ := OrdMap.mem_ofList_iff.mp hmem
  obtain ⟨founder, hfounder, heq⟩ := List.mem_map.mp hentry
  refine OrdMap.mem_ofList_iff.mpr ⟨MemberRecord.of founder.1 0 FIRST_PROTOCOL, ?_⟩
  exact List.mem_map.mpr ⟨founder, hfounder, by rw [(Prod.mk.inj heq).1]⟩

/-- The record a founding gives a member. -/
theorem withFounders_record {groupId : GroupId} {founders : List (MemberProfile × NodeAddr)}
    {settings : GroupSettings} {member : MemberId} {record : MemberRecord}
    (h : (s.withFounders groupId founders settings).members[member]? = some record) :
    record.memberId = member ∧ record.protocolMax = FIRST_PROTOCOL := by
  obtain ⟨founder, -, heq⟩ := List.mem_map.mp (OrdMap.mem_of_getElem?_ofList h)
  obtain ⟨rfl, rfl⟩ := Prod.mk.inj heq
  exact ⟨rfl, rfl⟩

/-- An enactment keeps the invariant when the approvals behind it leave the
event's target out. -/
theorem Sound.enacted {event : MembershipEvent} {approvals : Finset MemberId} (hs : Sound s)
    (h : Enacted s event t) (hgroup : s.group.isSome) (hdecided : s.decided event approvals = true)
    (hout : TargetExcluded event approvals) : Sound t := by
  have htargets : ∀ (p : ℕ) (entry : Proposal), t.pending[p]? = some entry →
      TargetExcluded entry.event entry.approvals :=
    fun p entry hp => hs.targets p entry (h.pending hp).1
  obtain ⟨u, hu, rfl⟩ := h
  exact ⟨fun _ => hu.core_ne_empty (hs.coreNonempty hgroup) hdecided hout,
    hu.coreMembers hs.coreMembers, hu.keyed hs.keyed, htargets⟩

theorem Sound.step {index : ℕ} {proposer : MemberId} {event : MembershipEvent} (hs : Sound s)
    (h : Step s index proposer event u) : Sound u := by
  have htargets : ∀ (p : ℕ) (entry : Proposal), u.pending[p]? = some entry →
      TargetExcluded entry.event entry.approvals := by
    intro p entry hp
    rcases h.pending_cases hp with hold | ⟨-, rfl, -⟩ | ⟨old, hold, -, htarget, rfl, -⟩
    · exact hs.targets p entry hold
    · exact targetExcluded_firstApprovals s proposer event
    · exact (hs.targets p old hold).insert htarget
  cases h with
  | founded fresh checked =>
    exact ⟨fun _ => withFounders_ne_empty checked, withFounders_coreMembers,
      fun member record hget => (withFounders_record hget).1, htargets⟩
  | atOnce group member allowed decided enacted =>
    exact hs.enacted enacted group decided (targetExcluded_firstApprovals s proposer event)
  | waits group => exact ⟨fun _ => hs.coreNonempty group, hs.coreMembers, hs.keyed, htargets⟩
  | agreed group => exact ⟨fun _ => hs.coreNonempty group, hs.coreMembers, hs.keyed, htargets⟩
  | @carried proposal entry t group core waiting allowed decided enacted =>
    have hout := (hs.targets proposal entry waiting).insert (stillAllowed_eq_ok allowed).2.1
    -- the enactment starts from the table without the proposal it carries
    have hs' : Sound { s with pending := s.pending.erase proposal } := by
      refine ⟨hs.coreNonempty, hs.coreMembers, hs.keyed, fun p other hp => ?_⟩
      simp only [Std.ExtTreeMap.getElem?_erase, Std.LawfulEqCmp.compare_eq_iff_eq] at hp
      split at hp
      · cases hp
      · exact hs.targets p other hp
    exact hs'.enacted enacted group decided hout
  | withdrawn group => exact ⟨fun _ => hs.coreNonempty group, hs.coreMembers, hs.keyed, htargets⟩

theorem Sound.sweep {index : ℕ} (hs : Sound s) : Sound (s.sweep index) where
  coreNonempty := hs.coreNonempty
  coreMembers := hs.coreMembers
  keyed := hs.keyed
  targets p entry hp := hs.targets p entry (sweep_pending.mp hp).1

/-- Every reachable state is sound. -/
theorem sound_fold (sig : Signing) (log : Log SignedEvent) (hasc : Ascending log) :
    Sound (fold sig log) :=
  fold_invariant sound_new (fun _ _ _ _ _ hs hstep => (hs.step hstep).sweep) log hasc

/-! ## One founding -/

/-- The entry at the end of `pre` is the one that founds the group. -/
def Founds (sig : Signing) (pre : Log SignedEvent) (i : ℕ) (signed : SignedEvent)
    (groupId : GroupId) (settings : GroupSettings) : Prop :=
  (∃ founders, signed.payload = .groupFounded groupId founders settings) ∧
    ((fold sig pre).apply sig i signed).1 = .ok ()

/-- A founding succeeds only where there is no group yet, and gives it its id
and its settings. -/
theorem Founds.group {pre : Log SignedEvent} {i : ℕ} {signed : SignedEvent} {groupId : GroupId}
    {settings : GroupSettings} (h : Founds sig pre i signed groupId settings) :
    (fold sig pre).group = none ∧ (fold sig (pre ++ [(i, signed)])).group = some groupId ∧
      (fold sig (pre ++ [(i, signed)])).settings = settings := by
  obtain ⟨⟨founders, hpayload⟩, hok⟩ := h
  obtain ⟨u, hu⟩ := succeeds_of_apply hok
  have hstep := hu.step
  rw [hu.next]
  rw [hpayload] at hstep
  cases hstep with
  | founded fresh checked => exact ⟨fresh, rfl, rfl⟩
  | atOnce group member allowed decided enacted =>
    obtain ⟨v, hv, -⟩ := enacted
    cases hv
  | waits group member allowed undecided proposable free => cases proposable

/-- Once there is a group, no entry moves its id or its settings. -/
theorem fold_group_stays {pre : Log SignedEvent} {groupId : GroupId}
    (h : (fold sig pre).group = some groupId) (post : Log SignedEvent) :
    (fold sig (pre ++ post)).group = some groupId ∧
      (fold sig (pre ++ post)).settings = (fold sig pre).settings := by
  induction post using List.reverseRecOn with
  | nil =>
    rw [List.append_nil]
    exact ⟨h, rfl⟩
  | append_singleton post entry ih =>
    obtain ⟨i, signed⟩ := entry
    rw [← List.append_assoc, fold_concat]
    rcases apply_cases sig (fold sig (pre ++ post)) i signed with hs | ⟨-, -, -, u, hstep, hs⟩
    · rw [hs]
      exact ih
    · obtain ⟨hgroup, hsettings⟩ := hstep.founded_stays ih.1
      rw [hs]
      exact ⟨hgroup, hsettings.trans ih.2⟩

/-- A group there is was founded by an entry of the log. -/
theorem exists_founds (sig : Signing) (log : Log SignedEvent)
    (hfounded : (fold sig log).group.isSome) :
    ∃ pre i signed post groupId settings, log = pre ++ (i, signed) :: post ∧
      Founds sig pre i signed groupId settings := by
  induction log using List.reverseRecOn with
  | nil => cases hfounded
  | append_singleton log entry ih =>
    obtain ⟨j, last⟩ := entry
    by_cases hbefore : (fold sig log).group.isSome
    · obtain ⟨pre, i, signed, post, groupId, settings, rfl, hfounds⟩ := ih hbefore
      exact ⟨pre, i, signed, post ++ [(j, last)], groupId, settings, by simp, hfounds⟩
    · -- the last entry made the difference, and only a founding can
      rw [fold_concat] at hfounded
      rcases apply_cases sig (fold sig log) j last with hs | ⟨-, -, hok, u, hstep, hs⟩
      · rw [hs] at hfounded
        exact absurd hfounded hbefore
      · rcases hpayload : last.payload with ⟨groupId, founders, settings⟩ | _ | _ | _ | _ | _ | _ | _ | _
        · exact ⟨log, j, last, [], groupId, settings, rfl, ⟨founders, hpayload⟩, hok⟩
        all_goals
          rw [hpayload] at hstep
          cases hstep <;> exact absurd ‹(fold sig log).group.isSome = true› hbefore

/-- Two foundings in one log are the same one. -/
theorem Founds.unique {pre pre' post post' : Log SignedEvent} {i i' : ℕ}
    {signed signed' : SignedEvent} {groupId groupId' : GroupId} {settings settings' : GroupSettings}
    (h : Founds sig pre i signed groupId settings)
    (h' : Founds sig pre' i' signed' groupId' settings')
    (heq : pre ++ (i, signed) :: post = pre' ++ (i', signed') :: post') : pre' = pre := by
  -- a founding after another one finds the group already there
  have later : ∀ {p p' mid : Log SignedEvent} {j j' : ℕ} {e e' : SignedEvent} {g g' : GroupId}
      {c c' : GroupSettings}, Founds sig p j e g c → Founds sig p' j' e' g' c' →
      p' ≠ p ++ (j, e) :: mid := by
    rintro p p' mid j j' e e' g g' c c' hp hp' rfl
    have hstays := (fold_group_stays hp.group.2.1 mid).1
    rw [List.append_assoc, List.singleton_append, hp'.group.1] at hstays
    cases hstays
  rcases List.append_eq_append_iff.mp heq with ⟨mid, hpre, hmid⟩ | ⟨mid, hpre, hmid⟩
  · rcases mid with _ | ⟨entry, mid⟩
    · simpa using hpre
    · obtain ⟨rfl, -⟩ := List.cons.inj hmid
      exact absurd hpre (later h h')
  · rcases mid with _ | ⟨entry, mid⟩
    · simpa using hpre.symm
    · obtain ⟨rfl, -⟩ := List.cons.inj hmid
      exact absurd hpre (later h' h)

/-- **A founded group stays whole.** Whatever entries the log holds, refused
ones included: there is a voter, the voters are members, every record sits under
its own id, and the group id and the settings are the ones of the log's one
successful founding, from that entry on. -/
theorem founded_group_whole (sig : Signing) (log : Log SignedEvent) (hasc : Ascending log)
    (hfounded : (fold sig log).group.isSome) :
    (fold sig log).core ≠ ∅ ∧
      (∀ member ∈ (fold sig log).core, member ∈ (fold sig log).members) ∧
      (∀ (member : MemberId) (record : MemberRecord),
        (fold sig log).members[member]? = some record → record.memberId = member) ∧
      ∃ pre i signed post groupId settings, log = pre ++ (i, signed) :: post ∧
        Founds sig pre i signed groupId settings ∧
        (∀ pre' i' signed' post' groupId' settings', log = pre' ++ (i', signed') :: post' →
          Founds sig pre' i' signed' groupId' settings' → pre' = pre) ∧
        ∀ mid rest, post = mid ++ rest →
          (fold sig (pre ++ (i, signed) :: mid)).group = some groupId ∧
            (fold sig (pre ++ (i, signed) :: mid)).settings = settings := by
  have hsound := sound_fold sig log hasc
  refine ⟨hsound.coreNonempty hfounded, hsound.coreMembers, hsound.keyed, ?_⟩
  obtain ⟨pre, i, signed, post, groupId, settings, rfl, hfounds⟩ := exists_founds sig log hfounded
  refine ⟨pre, i, signed, post, groupId, settings, rfl, hfounds, ?_, ?_⟩
  · intro pre' i' signed' post' groupId' settings' heq hfounds'
    exact hfounds.unique hfounds' heq
  · rintro mid rest -
    obtain ⟨-, hgroup, hsettings⟩ := hfounds.group
    obtain ⟨hstays, hkept⟩ := fold_group_stays hgroup mid
    rw [List.append_assoc, List.singleton_append] at hstays hkept
    exact ⟨hstays, hkept.trans hsettings⟩

/-- Two founders, one of whom proposes to expel the other, and a second founding
that is refused: the core is still there. -/
theorem founded_group_whole_two_founders :
    let log : Log SignedEvent :=
      [(1, .signedBy alice 0 (.groupFounded ⟨9⟩ [(⟨alice, "alice"⟩, default), (⟨bob, "bob"⟩, default)]
        default)),
       (3, .signedBy alice 1 (.memberExpelled bob "gone")),
       (4, .signedBy bob 3 (.groupFounded ⟨8⟩ [(⟨bob, "bob"⟩, default)] default))]
    (fold .accepting log).group = some ⟨9⟩ ∧ (fold .accepting log).core ≠ ∅ :=
  ⟨by decide +kernel,
    (founded_group_whole .accepting _ (by decide) (by decide +kernel)).1⟩

end MembershipState

end Distlib
