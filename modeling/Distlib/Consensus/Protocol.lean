import Distlib.Consensus.Quorum

/-!
# The group protocol

The protocol a group has agreed to speak is raised one step at a time, and only
while the whole core supports the next one. Support is what each member states
about its own build: it can be lowered again, members are expelled and admitted
back at the first protocol, and the core is rewritten while a raise waits. The
rule survives all of this because it is re-read at both places that could break
it: a raise is authorised again on every approval, and a core map is checked
against the protocol when it is enacted.

**Where it does not hold.** The next protocol is `self.protocol + 1` on a `u32`,
and the release build wraps. A group at protocol `2 ^ 32 - 1` therefore accepts
a raise to protocol 0, which every build supports (`protocol_wraps`). That is
the only way down: over runs without such a raise the protocol never falls, and
rises by exactly one (`protocol_safe`).
-/

namespace Distlib

open IndexedLog

namespace MembershipState

variable {s t u : MembershipState} {sig : Signing}

/-! ## Who speaks the protocol -/

/-- Every voter's build speaks the group's protocol. -/
def CoreSpeaks (s : MembershipState) : Prop :=
  ∀ member ∈ s.core, s.speaks member s.protocol = true

theorem speaks_iff {member : MemberId} {protocol : UInt32} :
    s.speaks member protocol = true ↔
      ∃ record, s.members[member]? = some record ∧ protocol ≤ record.protocolMax := by
  rw [speaks]
  rcases s.members[member]? with _ | record
  · simp
  · simp

/-- Rewriting a record leaves every other member's support as it was, and its
own as high as the new record says. -/
theorem speaks_insert {member other : MemberId} {record : MemberRecord} {protocol : UInt32}
    (hother : s.speaks other protocol = true)
    (hrecord : member = other → protocol ≤ record.protocolMax) :
    speaks { s with members := s.members.insert member record } other protocol = true := by
  rw [speaks_iff]
  simp only [Std.ExtTreeMap.getElem?_insert, Std.LawfulEqCmp.compare_eq_iff_eq]
  split
  · rename_i heq
    exact ⟨record, rfl, hrecord heq⟩
  · exact speaks_iff.mp hother

/-- What the authorisation of a raise has checked. -/
theorem authorise_protocolRaised {proposer : MemberId} {newProtocol : UInt32}
    (h : s.authorise proposer (.protocolRaised newProtocol) = .ok ()) :
    newProtocol = s.protocol + 1 ∧ ∀ member ∈ s.core, s.speaks member newProtocol = true := by
  simp only [authorise] at h
  split at h
  · cases h
  · rename_i hnext
    rw [coreSupports_eq_ok] at h
    exact ⟨not_not.mp hnext, fun member hmem => h member (Std.ExtTreeMap.mem_keys.mpr hmem)⟩

theorem authorise_protocolSupported {proposer member : MemberId} {max : UInt32}
    (h : s.authorise proposer (.protocolSupported member max) = .ok ()) : s.protocol ≤ max := by
  simp only [authorise] at h
  split at h
  · cases h
  · split at h
    · cases h
    · rename_i hbelow
      exact UInt32.not_lt.mp hbelow

/-- An authorised event leaves the core speaking the protocol. -/
theorem Effect.coreSpeaks {event : MembershipEvent} {submitter : MemberId} (h : Effect s event t)
    (hs : CoreSpeaks s) (hallowed : s.authorise submitter event = .ok ()) : CoreSpeaks t := by
  intro member hmem
  cases h with
  | memberAdded added =>
    -- a correction keeps the support its member stated
    refine speaks_insert (hs member hmem) fun heq => ?_
    obtain ⟨record, hrecord, hspeaks⟩ := speaks_iff.mp (hs member hmem)
    simp only [MemberRecord.of, ownFields, heq, hrecord]
    exact hspeaks
  | @memberExpelled expelled reason record known =>
    obtain ⟨hne, hcore⟩ := Std.ExtTreeMap.mem_erase.mp hmem
    obtain ⟨record, hrecord, hspeaks⟩ := speaks_iff.mp (hs member hcore)
    refine speaks_iff.mpr ⟨record, ?_, hspeaks⟩
    simp only [Std.ExtTreeMap.getElem?_erase]
    rw [if_neg (by simpa using hne), hrecord]
  | @pledgeChanged promiser pledgeBytes record known =>
    refine speaks_insert (hs member hmem) fun heq => ?_
    obtain ⟨record', hrecord, hspeaks⟩ := speaks_iff.mp (hs member hmem)
    subst heq
    obtain rfl := Option.some.inj (known.symm.trans hrecord)
    exact hspeaks
  | coreGroupChanged nonempty members distinct supported => exact supported member hmem
  | protocolSupported known =>
    exact speaks_insert (hs member hmem) fun _ => authorise_protocolSupported hallowed
  | protocolRaised newProtocol => exact (authorise_protocolRaised hallowed).2 member hmem

/-- What an accepted entry is to the group: its founding, nothing, or the
enactment of one authorised event. -/
theorem Step.moves {index : ℕ} {proposer : MemberId} {payload : MembershipEvent}
    (h : Step s index proposer payload u) :
    (s.group = none ∧ ∃ groupId founders settings, u = s.withFounders groupId founders settings) ∨
      (s.group.isSome ∧ (SameGroup s u ∨ ∃ p event approvals t,
        Carries s index proposer payload p event approvals ∧ Effect s event t ∧ SameGroup t u)) := by
  by_cases hgroup : s.group.isSome
  · exact Or.inr ⟨hgroup, h.carries hgroup⟩
  · cases h with
    | founded fresh checked => exact Or.inl ⟨fresh, _, _, _, rfl⟩
    | atOnce group | waits group | agreed group | carried group | withdrawn group =>
      exact absurd group hgroup

theorem SameGroup.coreSpeaks (h : SameGroup s t) (hs : CoreSpeaks s) : CoreSpeaks t := by
  obtain ⟨hmembers, hcore, hprotocol⟩ := h
  intro member hmem
  rw [hcore] at hmem
  simpa only [speaks, hmembers, hprotocol] using hs member hmem

theorem withFounders_coreSpeaks {groupId : GroupId} {founders : List (MemberProfile × NodeAddr)}
    {settings : GroupSettings} : CoreSpeaks (s.withFounders groupId founders settings) := by
  intro member hmem
  have hmember := withFounders_coreMembers member hmem
  obtain ⟨record, hrecord⟩ :=
    Option.isSome_iff_exists.mp (Std.ExtTreeMap.mem_iff_isSome_getElem?.mp hmember)
  refine speaks_iff.mpr ⟨record, hrecord, ?_⟩
  rw [(withFounders_record hrecord).2]
  exact UInt32.le_refl _

/-- In every reachable state the core speaks the protocol. -/
theorem coreSpeaks_fold (sig : Signing) (log : Log SignedEvent) (hasc : Ascending log) :
    CoreSpeaks (fold sig log) := by
  refine fold_induction (P := fun _ s => CoreSpeaks s) ?_ (fun _ _ _ _ hpre _ => hpre) ?_ log hasc
  · intro member hmem
    simp [new] at hmem
  · intro pre i signed u hasc hpre hu
    change CoreSpeaks u
    rcases hu.step.moves with ⟨-, groupId, founders, settings, rfl⟩ |
      ⟨-, hsame | ⟨p, event, approvals, t, hcarries, heffect, hsame⟩⟩
    · exact withFounders_coreSpeaks
    · exact hsame.coreSpeaks hpre
    · obtain ⟨submitter, hallowed⟩ := hcarries.allowed
      exact hsame.coreSpeaks (heffect.coreSpeaks hpre hallowed)

/-! ## One step up -/

/-- The one protocol that is above no other, by the addition of the release
build: a raise to it is proposed at the last protocol there is. -/
theorem eq_last_of_succ_eq_zero {protocol : UInt32} (h : 0 = protocol + 1) :
    protocol = 4294967295 := by
  have hzero := congrArg UInt32.toNat h
  simp only [UInt32.toNat_add] at hzero
  apply UInt32.toNat_inj.mp
  have hlt := protocol.toNat_lt
  simp at hzero ⊢
  omega

theorem toNat_succ {protocol : UInt32} (h : protocol + 1 ≠ 0) :
    (protocol + 1).toNat = protocol.toNat + 1 := by
  have hlt := protocol.toNat_lt
  have hne : (protocol + 1).toNat ≠ 0 := fun hzero => h (UInt32.toNat_inj.mp hzero)
  simp only [UInt32.toNat_add] at hne ⊢
  simp at hne ⊢
  omega

/-- No entry proposes protocol 0 to a group at the last protocol there is. -/
def NoWrap (sig : Signing) (log : Log SignedEvent) : Prop :=
  ∀ pre i signed post, log = pre ++ (i, signed) :: post →
    (fold sig pre).protocol = 4294967295 → signed.payload ≠ .protocolRaised 0

theorem NoWrap.left {pre post : Log SignedEvent} (h : NoWrap sig (pre ++ post)) :
    NoWrap sig pre := by
  rintro pre' i signed post' rfl
  exact h pre' i signed (post' ++ post) (by simp)

/-- A raise that was accepted was proposed one above the protocol it found. -/
theorem Step.protocolRaised {index : ℕ} {proposer : MemberId} {newProtocol : UInt32}
    (h : Step s index proposer (.protocolRaised newProtocol) u) :
    newProtocol = s.protocol + 1 := by
  cases h with
  | atOnce group member allowed => exact (authorise_protocolRaised allowed).1
  | waits group member allowed => exact (authorise_protocolRaised allowed).1

/-- Without a wrap, no raise to protocol 0 is ever submitted. -/
theorem NoWrap.submitted_ne_zero {log : Log SignedEvent} {p : ℕ} (h : NoWrap sig log) :
    ¬SubmittedAt sig log p (.protocolRaised 0) := by
  rintro ⟨signed, ⟨pre, post, rfl, hok⟩, hpayload⟩
  obtain ⟨u, hu⟩ := succeeds_of_apply hok
  have hstep := hu.step
  rw [hpayload] at hstep
  exact h pre p signed post rfl (eq_last_of_succ_eq_zero hstep.protocolRaised) hpayload

/-- Before there is a group there is no core, and the protocol is 0. -/
theorem unfounded_fold (sig : Signing) (log : Log SignedEvent) :
    (fold sig log).group = none → (fold sig log).core = ∅ ∧ (fold sig log).protocol = 0 := by
  induction log using List.reverseRecOn with
  | nil => exact fun _ => ⟨rfl, rfl⟩
  | append_singleton log entry ih =>
    obtain ⟨i, signed⟩ := entry
    rw [fold_concat]
    rcases apply_cases sig (fold sig log) i signed with hs | ⟨-, -, -, u, hstep, hs⟩
    · rw [hs]
      exact ih
    · rw [hs]
      intro hnone
      change u.group = none at hnone
      rcases hgroup : (fold sig log).group with _ | g
      · rcases hstep.moves with ⟨-, groupId, founders, settings, rfl⟩ | ⟨hsome, -⟩
        · cases hnone
        · rw [hgroup] at hsome
          cases hsome
      · rw [(hstep.founded_stays hgroup).1] at hnone
        cases hnone

theorem Effect.protocol {event : MembershipEvent} (h : Effect s event t) :
    t.protocol = s.protocol ∨ event = .protocolRaised t.protocol := by
  cases h with
  | protocolRaised newProtocol => exact Or.inr rfl
  | memberAdded | memberExpelled | pledgeChanged | coreGroupChanged | protocolSupported =>
    exact Or.inl rfl

/-- An entry leaves the protocol alone, or moves it one up with the support of
everybody in the core it finds. -/
theorem protocol_step {pre : Log SignedEvent} {i : ℕ} {signed : SignedEvent}
    (hasc : Ascending (pre ++ [(i, signed)])) (hwrap : NoWrap sig (pre ++ [(i, signed)])) :
    (fold sig (pre ++ [(i, signed)])).protocol = (fold sig pre).protocol ∨
      ((fold sig (pre ++ [(i, signed)])).protocol.toNat = (fold sig pre).protocol.toNat + 1 ∧
        ∀ member ∈ (fold sig pre).core,
          (fold sig pre).speaks member (fold sig (pre ++ [(i, signed)])).protocol = true) := by
  rcases hs : (fold sig pre).apply sig i signed with ⟨error | ⟨⟩, t⟩
  · rw [fold_concat, hs, apply_error hs]
    exact Or.inl rfl
  · obtain ⟨u, hu⟩ := succeeds_of_apply (congrArg Prod.fst hs)
    rw [hu.next]
    change u.protocol = _ ∨ (u.protocol.toNat = _ ∧ ∀ member ∈ _, speaks _ member u.protocol = true)
    rcases hu.step.moves with ⟨hnone, groupId, founders, settings, rfl⟩ |
      ⟨-, ⟨-, -, hsame⟩ | ⟨p, event, approvals, t, hcarries, heffect, -, -, hsame⟩⟩
    · -- the founding, from protocol 0 and no core
      obtain ⟨hcore, hprotocol⟩ := unfounded_fold sig pre hnone
      refine Or.inr ⟨by rw [hprotocol]; rfl, fun member hmem => ?_⟩
      rw [hcore] at hmem
      simp at hmem
    · exact Or.inl hsame
    · rw [hsame]
      rcases heffect.protocol with hkept | rfl
      · exact Or.inl hkept
      · obtain ⟨submitter, hallowed⟩ := hcarries.allowed
        obtain ⟨hnext, hspeaks⟩ := authorise_protocolRaised hallowed
        have hsubmitted := (hcarries.provenance hasc.left hu).1
        have hne : (fold sig pre).protocol + 1 ≠ 0 := by
          intro hzero
          rw [hnext, hzero] at hsubmitted
          exact hwrap.submitted_ne_zero hsubmitted
        exact Or.inr ⟨by rw [hnext, toNat_succ hne], hspeaks⟩

/-- Over any stretch of a log without a wrap the protocol does not fall. -/
theorem protocol_mono {pre mid : Log SignedEvent} (hasc : Ascending (pre ++ mid))
    (hwrap : NoWrap sig (pre ++ mid)) :
    (fold sig pre).protocol ≤ (fold sig (pre ++ mid)).protocol := by
  induction mid using List.reverseRecOn with
  | nil =>
    rw [List.append_nil]
    exact UInt32.le_refl _
  | append_singleton mid entry ih =>
    obtain ⟨i, signed⟩ := entry
    rw [← List.append_assoc] at hasc hwrap ⊢
    refine UInt32.le_trans (ih hasc.left hwrap.left) ?_
    rcases protocol_step hasc hwrap with hsame | ⟨hup, -⟩
    · rw [hsame]
      exact UInt32.le_refl _
    · rw [UInt32.le_iff_toNat_le, hup]
      omega

/-- **Protocol safety.** Over any run in which protocol 0 is not proposed to a
group at protocol `2 ^ 32 - 1`: in every founded state on the way each voter's
record states support for the group's protocol, the protocol never falls, and an
entry that moves it moves it up by one, to a protocol that everybody in the core
it finds supports. -/
theorem protocol_safe (sig : Signing) (log : Log SignedEvent) (hasc : Ascending log)
    (hwrap : NoWrap sig log) :
    (∀ pre post, log = pre ++ post → (fold sig pre).group.isSome →
      ∀ member ∈ (fold sig pre).core, ∃ record, (fold sig pre).members[member]? = some record ∧
        (fold sig pre).protocol ≤ record.protocolMax) ∧
    (∀ pre mid post, log = pre ++ mid ++ post →
      (fold sig pre).protocol ≤ (fold sig (pre ++ mid)).protocol) ∧
    ∀ pre i signed post, log = pre ++ (i, signed) :: post →
      (fold sig (pre ++ [(i, signed)])).protocol = (fold sig pre).protocol ∨
        ((fold sig (pre ++ [(i, signed)])).protocol.toNat = (fold sig pre).protocol.toNat + 1 ∧
          ∀ member ∈ (fold sig pre).core, ∃ record,
            (fold sig pre).members[member]? = some record ∧
              (fold sig (pre ++ [(i, signed)])).protocol ≤ record.protocolMax) := by
  refine ⟨?_, ?_, ?_⟩
  · rintro pre post rfl - member hmem
    exact speaks_iff.mp (coreSpeaks_fold sig pre hasc.left member hmem)
  · rintro pre mid post rfl
    exact protocol_mono hasc.left hwrap.left
  · rintro pre i signed post rfl
    rw [List.append_cons] at hasc hwrap
    rcases protocol_step hasc.left hwrap.left with hsame | ⟨hup, hspeaks⟩
    · exact Or.inl hsame
    · exact Or.inr ⟨hup, fun member hmem => speaks_iff.mp (hspeaks member hmem)⟩

/-- A log that never proposes protocol 0 does not wrap. -/
theorem noWrap_of_forall {log : Log SignedEvent}
    (h : ∀ entry ∈ log, entry.2.payload ≠ .protocolRaised 0) : NoWrap sig log := by
  rintro pre i signed post rfl -
  exact h (i, signed) (List.mem_append_right _ List.mem_cons_self)

/-- One founder, who states support for protocol 2 and raises the group to it. -/
theorem protocol_safe_raise :
    let pre : Log SignedEvent :=
      [(1, .signedBy alice 0 (.groupFounded ⟨9⟩ [(⟨alice, "alice"⟩, default)] default)),
       (2, .signedBy alice 1 (.protocolSupported alice 2))]
    let raise : SignedEvent := .signedBy alice 2 (.protocolRaised 2)
    (fold .accepting (pre ++ [(3, raise)])).protocol = 2 ∧
      (fold .accepting pre).protocol ≤ (fold .accepting (pre ++ [(3, raise)])).protocol :=
  ⟨by decide +kernel,
    (protocol_safe .accepting _ (by decide) (noWrap_of_forall (by decide))).2.1 _ _ [] rfl⟩

/-! ## The wrap

A group of one, whose member states support for every protocol and then raises
the group one protocol at a time. Nothing ever refuses a raise, so the run is
followed by induction on the number of raises, also through the wrap. -/

/-- The group of one, at protocol 1, its member supporting every protocol. -/
def soloLog : Log SignedEvent :=
  [(1, .signedBy alice 0 (.groupFounded ⟨9⟩ [(⟨alice, "alice"⟩, default)] default)),
   (2, .signedBy alice 1 (.protocolSupported alice 4294967295))]

/-- The `k`-th raise, counted from 0: at index `k + 3`, to protocol `k + 2`. -/
def climbEntry (k : ℕ) : ℕ × SignedEvent :=
  (k + 3, .signedBy alice (k + 2) (.protocolRaised (UInt32.ofNat (k + 2))))

/-- The log of `n` raises. -/
def climb (n : ℕ) : Log SignedEvent := soloLog ++ (List.range n).map climbEntry

/-- The state `n` raises lead to. -/
def climbed (n : ℕ) : MembershipState :=
  { fold .accepting soloLog with
    protocol := UInt32.ofNat (n + 1)
    changedAt := n + 2 }

theorem climb_succ (n : ℕ) : climb (n + 1) = climb n ++ [climbEntry n] := by
  simp [climb, List.range_succ]

theorem climb_ascending (n : ℕ) : Ascending (climb n) := by
  induction n with
  | zero => decide
  | succ n ih =>
    rw [climb_succ]
    refine List.pairwise_append.mpr ⟨ih, List.pairwise_singleton _ _, ?_⟩
    intro entry hentry last hlast
    obtain rfl := List.mem_singleton.mp hlast
    rcases List.mem_append.mp hentry with hentry | hentry
    · have hsolo : ∀ entry ∈ soloLog, entry.1 ≤ 2 := by decide
      have hle := hsolo entry hentry
      simp only [climbEntry]
      omega
    · obtain ⟨k, hk, rfl⟩ := List.mem_map.mp hentry
      have hlt := List.mem_range.mp hk
      simp only [climbEntry]
      omega

/-- The group of one, as far as a raise reads it. -/
theorem soloLog_facts :
    (fold .accepting soloLog).group = some ⟨9⟩ ∧ (fold .accepting soloLog).core.keys = [alice] ∧
      (fold .accepting soloLog).core.contains alice = true ∧
      (fold .accepting soloLog).core.size = 1 ∧
      (fold .accepting soloLog).members.contains alice = true ∧
      (fold .accepting soloLog).members[alice]? = some ⟨alice, "alice", 0, 4294967295⟩ ∧
      (fold .accepting soloLog).pending = ∅ := by
  decide +kernel

theorem climbed_authorise (n : ℕ) :
    (climbed n).authorise alice (.protocolRaised (UInt32.ofNat (n + 2))) = .ok () := by
  obtain ⟨-, hkeys, -, -, -, hrecord, -⟩ := soloLog_facts
  have hnext : UInt32.ofNat (n + 2) = (climbed n).protocol + 1 := by
    rw [show n + 2 = (n + 1) + 1 from rfl, UInt32.ofNat_add]
    rfl
  have hspeaks : (climbed n).coreSupports (climbed n).core.keys (UInt32.ofNat (n + 2)) = .ok () := by
    rw [coreSupports_eq_ok]
    intro member hmem
    rw [show (climbed n).core.keys = [alice] from hkeys, List.mem_singleton] at hmem
    rw [hmem]
    refine speaks_iff.mpr ⟨_, hrecord, ?_⟩
    rw [UInt32.le_iff_toNat_le]
    exact Nat.le_of_lt_succ (UInt32.toNat_lt _)
  simp only [authorise]
  rw [if_neg (not_not.mpr hnext), hspeaks]

theorem climbed_decided (n : ℕ) (newProtocol : UInt32) :
    (climbed n).decided (.protocolRaised newProtocol)
      ((climbed n).firstApprovals alice (.protocolRaised newProtocol)) = true := by
  obtain ⟨-, -, hcore, hsize, -⟩ := soloLog_facts
  have hisCore : (climbed n).isCore alice = true := hcore
  have hneeded : (climbed n).approvalsNeeded (.protocolRaised newProtocol) = 1 := by
    simp only [approvalsNeeded]
    rw [show (climbed n).core.size = 1 from hsize]
  have hcounting : (climbed n).counting {alice} = {alice} := by
    simp [counting, Finset.filter_singleton, hisCore]
  simp [decided, firstApprovals, target, hisCore, hneeded, hcounting]

/-- Every raise is accepted, whatever its number. -/
theorem climbed_apply (n : ℕ) :
    (climbed n).apply .accepting (n + 3) (climbEntry n).2 = (.ok (), climbed (n + 1)) := by
  obtain ⟨hgroup, -, -, -, hmember, -, hpending⟩ := soloLog_facts
  have hsubmit : (climbed n).submit (n + 3) alice (.protocolRaised (UInt32.ofNat (n + 2))) =
      (.ok (), { climbed n with protocol := UInt32.ofNat (n + 2) }) := by
    have hnone : (climbed n).pending = ∅ := hpending
    simp only [submit, climbed_decided, if_true, enact, applyToFoundedGroup, hnone,
      OrdMap.filter_empty]
  have hdispatch : (climbed n).dispatch (n + 3) alice (.protocolRaised (UInt32.ofNat (n + 2))) =
      (.ok (), { climbed n with protocol := UInt32.ofNat (n + 2) }) := by
    have hfounded : (climbed n).group.isNone = false := by
      rw [show (climbed n).group = some ⟨9⟩ from hgroup]
      rfl
    have hcontains : (climbed n).members.contains alice = true := hmember
    simp only [dispatch, hfounded, hcontains, climbed_authorise, hsubmit, Bool.false_eq_true,
      if_false, Bool.not_true]
  have hevent : (climbEntry n).2.event .accepting = .ok (.protocolRaised (UInt32.ofNat (n + 2))) :=
    SignedEvent.event_signedBy _ _ _
  have hcurrent : ¬(climbEntry n).2.changedAt ≠ (climbed n).changedAt := not_not.mpr rfl
  simp only [apply, hevent]
  rw [if_neg hcurrent, show (climbEntry n).2.proposer = alice from rfl, hdispatch]
  simp only [sweep, climbed, hpending, OrdMap.filter_empty]

theorem fold_climb (n : ℕ) : fold .accepting (climb n) = climbed n := by
  induction n with
  | zero => decide +kernel
  | succ n ih =>
    rw [climb_succ, show climbEntry n = (n + 3, (climbEntry n).2) from rfl, fold_concat, ih,
      climbed_apply]

/-- **The protocol wraps.** After `2 ^ 32 - 2` raises the group of one is at the
last protocol there is; its next raise, to protocol 0, is accepted and the
protocol falls. -/
theorem protocol_wraps :
    Ascending (climb 4294967294 ++ [climbEntry 4294967294]) ∧
      (fold .accepting (climb 4294967294)).group.isSome ∧
      ((fold .accepting (climb 4294967294)).apply .accepting 4294967297
        (climbEntry 4294967294).2).1 = .ok () ∧
      (fold .accepting (climb 4294967294)).protocol = 4294967295 ∧
      (fold .accepting (climb 4294967294 ++ [climbEntry 4294967294])).protocol = 0 := by
  refine ⟨?_, ?_, ?_, ?_, ?_⟩
  · rw [← climb_succ]
    exact climb_ascending _
  · rw [fold_climb, show (climbed 4294967294).group = some ⟨9⟩ from soloLog_facts.1]
    rfl
  · rw [fold_climb]
    exact congrArg Prod.fst (climbed_apply 4294967294)
  · rw [fold_climb]
    rfl
  · rw [← climb_succ, fold_climb]
    rfl

end MembershipState

end Distlib
