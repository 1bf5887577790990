import Distlib.Api.Applied

/-!
# A delta of the core group

`group.propose_core` is asked for a change of one core node, and what is committed is a map
of them all. The map is read in one place and the `changed_at` it is signed against in
another, later. Where nothing is folded in between, the fold refuses the map unless the
group is still the one it was read from, and it reverts nobody.

Where something is folded in between, the signature states a membership that the map is
not of. The guard passes, and the map puts everybody but the named member back to where
they were when it was read: `core_delta_iff` says that nobody else is reverted exactly when
nobody else moved in between, and `bob_moved_back` is a run in which bob did.
-/

namespace Distlib

open IndexedLog GuardedRun MembershipState

namespace Propose

namespace World

variable {sig : Signing} {call : Call} {world later : World} {reading signing : MembershipState}

/-- `condition`, of the membership that the call signs against. -/
def AtSignature (sig : Signing) (condition : MembershipState → Prop) (world : World) : Step → Prop
  | .proposeOnce _ _ => ∀ again, world.stage = .proposing again → condition (world.membership sig)
  | _ => True

/-! ## The log only grows -/

theorem step_log (sig : Signing) (call : Call) (world : World) (step : Step) :
    (world.step sig call step).log = world.log ∨
      ∃ index signed, ∃ h : world.log.Next index,
        (world.step sig call step).log = world.log.append index signed h := by
  cases step with
  | entry index signed =>
    simp only [World.step]
    split
    · exact Or.inr ⟨index, signed, by assumption, rfl⟩
    · exact Or.inl rfl
  | commit i index =>
    simp only [World.step]
    split
    · exact Or.inl rfl
    · rename_i copy _
      split
      · rename_i hnext
        exact Or.inr ⟨index, copy.signed, hnext.2, rfl⟩
      · exact Or.inl rfl
  | lose i | handOn i =>
    simp only [World.step]
    split
    · exact Or.inl rfl
    · split
      · exact Or.inl rfl
      · exact Or.inl rfl
  | caughtUp =>
    simp only [World.step]
    split
    · split <;> exact Or.inl rfl
    · split <;> exact Or.inl rfl
    · exact Or.inl rfl
  | hold held => exact Or.inl rfl
  | _ =>
    simp only [World.step]
    split <;> exact Or.inl rfl

/-- The group has been at `membership`. -/
def Been (sig : Signing) (world : World) (membership : MembershipState) : Prop :=
  ∃ count, (world.log.take count).membership sig = membership

theorem been_membership (sig : Signing) (world : World) : world.Been sig (world.membership sig) :=
  ⟨world.held, rfl⟩

theorem Been.step (h : world.Been sig reading) (step : Step) :
    (world.step sig call step).Been sig reading := by
  obtain ⟨count, rfl⟩ := h
  rcases step_log sig call world step with hsame | ⟨index, signed, hnext, hgrown⟩
  · exact ⟨count, by rw [hsame]⟩
  · refine ⟨min count world.log.entries.length, ?_⟩
    have htake : (world.log.append index signed hnext).take (min count world.log.entries.length) =
        world.log.take count := by
      apply GroupLog.ext
      change (world.log.entries ++ [(index, signed)]).take (min count world.log.entries.length) =
        world.log.entries.take count
      rw [List.take_append_of_le_length (min_le_right _ _)]
      exact List.take_eq_take_min.symm
    rw [hgrown, htake]

theorem Been.run (h : world.Been sig reading) (steps : List Step) :
    (exec (World.step sig call) world steps).Been sig reading :=
  exec_invariant (I := fun world => Been sig world reading) (fun _ step h => h.step step) steps h

/-- Of what the group has been at, the index of the last change tells it all. -/
theorem Been.eq (h : world.Been sig reading) (h' : world.Been sig signing)
    (hsame : reading.changedAt = signing.changedAt) : reading = signing := by
  obtain ⟨a, rfl⟩ := h
  obtain ⟨b, rfl⟩ := h'
  exact GroupLog.membership_eq_of_changedAt hsame

/-! ## What is signed once -/

/-- What a stage says of what the call has signed: nothing but against `changedAt`, and it
signs no more. -/
def Signs (changedAt : ℕ) : Stage → Prop
  | .proposing _ | .catchingUp _ => False
  | .submitting round _ | .waiting round _ => round.signed.changedAt = changedAt
  | _ => True

/-- The call has signed, against `changedAt` and nothing else. -/
structure SignedAgainst (changedAt : ℕ) (world : World) : Prop where
  copies : ∀ copy ∈ world.copies, copy.signed.changedAt = changedAt
  stage : Signs changedAt world.stage

/-- The call has yet to sign. -/
structure Unsigned (world : World) : Prop where
  copies : world.copies = []
  stage : world.stage = .proposing false

/-- What is not sent again when it is stale is not signed again. -/
theorem error_signs (honce : sentAgainWhenStale call.event = false) (changedAt : ℕ) (again : Bool)
    (error : NodeError) : Signs changedAt (call.proposeAndRetry again (.error error)) := by
  cases error with
  | event error =>
    cases error with
    | staleProposal seen current =>
      simp only [Call.proposeAndRetry, honce, Bool.and_false, Bool.false_eq_true, if_false]
      trivial
    | _ => trivial
  | _ => trivial

theorem proposeOnce_signs (honce : sentAgainWhenStale call.event = false)
    (membership : MembershipState) (again : Bool) (seat : Seat) (now : Timestamp) :
    Signs membership.changedAt (call.proposeOnce sig membership again seat now) := by
  refine proposeOnce_cases ?_ (error_signs honce _ again) seat now
  intro signed _ hchangedAt way
  exact hchangedAt

theorem hear_signs (honce : sentAgainWhenStale call.event = false) {changedAt : ℕ} {round : Round}
    {way : Way} (h : round.signed.changedAt = changedAt) (answer : Answer) :
    Signs changedAt (world.hear sig call round way answer) :=
  hear_cases h (fun _ => h) (fun _ _ => trivial) (error_signs honce changedAt round.again)

theorem SignedAgainst.around {changedAt : ℕ} (h : SignedAgainst changedAt world)
    (haround : Around sig call world later) : SignedAgainst changedAt later where
  copies := by
    intro copy hcopy
    obtain ⟨before, hbefore, hsame, -⟩ := haround.copies copy hcopy
    rw [hsame]
    exact h.copies before hbefore
  stage := by
    rw [haround.stage]
    exact h.stage

theorem SignedAgainst.step (honce : sentAgainWhenStale call.event = false) {changedAt : ℕ}
    (h : SignedAgainst changedAt world) (hsound : world.AllSound sig call) (step : Step) :
    SignedAgainst changedAt (world.step sig call step) := by
  have hsigns := h.stage
  cases step with
  | entry index signed => exact h.around (around_entry hsound index signed)
  | hold held => exact ⟨h.copies, h.stage⟩
  | commit i index => exact h.around (around_commit hsound i index)
  | lose i => exact h.around (around_lose hsound i)
  | handOn i => exact h.around (around_handOn hsound i)
  | proposeOnce seat now =>
    simp only [World.step]
    split
    · rename_i again hstage
      rw [hstage] at hsigns
      exact hsigns.elim
    · exact h
  | submit =>
    simp only [World.step]
    split
    · rename_i round way hstage
      rw [hstage] at hsigns
      refine ⟨?_, hsigns⟩
      intro copy hcopy
      rcases List.mem_append.mp hcopy with hold | hnew
      · exact h.copies copy hold
      · rw [List.mem_singleton.mp hnew]
        exact hsigns
    · exact h
  | hear answer =>
    simp only [World.step]
    split
    · rename_i round way hstage
      rw [hstage] at hsigns
      exact ⟨h.copies, hear_signs honce hsigns answer⟩
    · exact h
  | caughtUp =>
    simp only [World.step]
    split
    · rename_i current hstage
      rw [hstage] at hsigns
      exact hsigns.elim
    · split
      · exact ⟨h.copies, trivial⟩
      · exact h
    · exact h
  | timedOut =>
    simp only [World.step]
    split
    · exact ⟨h.copies, trivial⟩
    · exact ⟨h.copies, trivial⟩
    · exact h

/-- Once it has signed, a call is at no signature, and what it submits is what it signed. -/
theorem SignedAgainst.run (honce : sentAgainWhenStale call.event = false) {changedAt : ℕ}
    {condition : MembershipState → Prop} (steps : List Step) :
    ∀ {world : World}, SignedAgainst changedAt world → world.Landed sig call →
      SignedAgainst changedAt (exec (World.step sig call) world steps) ∧
        Along (World.step sig call) (AtSignature sig condition) world steps := by
  induction steps with
  | nil =>
    intro world h _
    exact ⟨h, trivial⟩
  | cons step rest ih =>
    intro world h hlanded
    obtain ⟨hrest, halong⟩ := ih (h.step honce hlanded.sound step) (hlanded.step step)
    refine ⟨hrest, ?_, halong⟩
    cases step with
    | proposeOnce seat now =>
      intro again hstage
      have hsigns := h.stage
      rw [hstage] at hsigns
      exact hsigns.elim
    | _ => trivial

theorem Unsigned.around (h : Unsigned world) (haround : Around sig call world later) :
    Unsigned later where
  copies := by
    refine List.eq_nil_iff_forall_not_mem.mpr ?_
    intro copy hcopy
    obtain ⟨before, hbefore, -⟩ := haround.copies copy hcopy
    rw [h.copies] at hbefore
    cases hbefore
  stage := haround.stage.trans h.stage

/-- Before it signs a call does nothing else. -/
theorem Unsigned.step (h : Unsigned world) (hsound : world.AllSound sig call) (step : Step)
    (hother : ∀ seat now, step ≠ .proposeOnce seat now) : Unsigned (world.step sig call step) := by
  cases step with
  | entry index signed => exact h.around (around_entry hsound index signed)
  | hold held => exact ⟨h.copies, h.stage⟩
  | commit i index => exact h.around (around_commit hsound i index)
  | lose i => exact h.around (around_lose hsound i)
  | handOn i => exact h.around (around_handOn hsound i)
  | proposeOnce seat now => exact absurd rfl (hother seat now)
  | _ =>
    simp only [World.step, h.stage]
    exact h

/-- **A call that has submitted something has signed once**, against a membership that the
group has been at; a condition on its signatures is one on that. -/
theorem Unsigned.signed (honce : sentAgainWhenStale call.event = false) (steps : List Step) :
    ∀ {world : World}, Unsigned world → world.Landed sig call →
      (exec (World.step sig call) world steps).copies ≠ [] →
      ∃ signing : MembershipState, (exec (World.step sig call) world steps).Been sig signing ∧
        SignedAgainst signing.changedAt (exec (World.step sig call) world steps) ∧
        ∀ condition : MembershipState → Prop,
          Along (World.step sig call) (AtSignature sig condition) world steps ↔ condition signing := by
  induction steps with
  | nil =>
    intro world h _ hsubmitted
    exact absurd h.copies hsubmitted
  | cons step rest ih =>
    intro world h hlanded hsubmitted
    by_cases hsign : ∃ seat now, step = .proposeOnce seat now
    · obtain ⟨seat, now, rfl⟩ := hsign
      have hnow : SignedAgainst (world.membership sig).changedAt
          (world.step sig call (.proposeOnce seat now)) := by
        simp only [World.step, h.stage]
        refine ⟨?_, proposeOnce_signs honce _ _ _ _⟩
        intro copy hcopy
        rw [h.copies] at hcopy
        cases hcopy
      have hlater := hlanded.step (.proposeOnce seat now)
      have hsigned : SignedAgainst (world.membership sig).changedAt _ ∧
          Along (World.step sig call) (AtSignature sig fun _ => True) _ rest :=
        hnow.run honce rest hlater
      refine ⟨world.membership sig, ((been_membership sig world).step _).run rest,
        hsigned.1, ?_⟩
      intro condition
      constructor
      · rintro ⟨hcondition, -⟩
        exact hcondition false h.stage
      · intro hcondition
        exact ⟨fun _ _ => hcondition, (hnow.run honce rest hlater).2⟩
    · have hother : ∀ seat now, step ≠ .proposeOnce seat now :=
        fun seat now hstep => hsign ⟨seat, now, hstep⟩
      obtain ⟨signing, hbeen, hsigned, hcondition⟩ :=
        ih (h.step hlanded.sound step hother) (hlanded.step step) hsubmitted
      refine ⟨signing, hbeen, hsigned, ?_⟩
      intro condition
      rw [Along, ← hcondition condition]
      refine and_iff_right ?_
      cases step with
      | proposeOnce seat now => exact absurd rfl (hother seat now)
      | _ => trivial

end World

end Propose

namespace Api

open Propose (Call Step World Copy)
open Propose.World (AtSignature)

/-- The member that a request for a change of the core group names. -/
def CoreChange.member : CoreChange → MemberId
  | .set member _ => member
  | .remove member => member

/-- `core`, with the change that is asked for. -/
def CoreChange.changed (core : OrdMap MemberId NodeAddr) : CoreChange → OrdMap MemberId NodeAddr
  | .set member addr => core.insert member addr
  | .remove member => core.erase member

/-- The two core groups differ in nobody but `member`. -/
def AgreeBut (member : MemberId) (core core' : OrdMap MemberId NodeAddr) : Prop :=
  ∀ other, other ≠ member → core[other]? = core'[other]?

/-- A copy of what a call has submitted, accepted by the fold as the entry at `position`. -/
structure Accepted (sig : Signing) (world : World) (copy : Copy) (position index : ℕ) : Prop where
  submitted : copy ∈ world.copies
  committed : copy.fate = .committed position
  ok : world.log.verdictAt sig position = some (.ok index)

section Delta

variable (sig : Signing) (log : GroupLog) (held : ℕ) (call : Call) (params : CoreChange)
  (steps : List Step)

/-- No change of the membership is folded in here between the reading of the core group and
the signature. -/
def NothingLanded : Prop :=
  Along (World.step sig call)
    (AtSignature sig fun signing => signing.changedAt = ((log.take held).membership sig).changedAt)
    (World.start log held) steps

/-- Between the reading of the core group and the signature, nobody but the named member is
moved, added or dropped. -/
def OthersStood : Prop :=
  Along (World.step sig call)
    (AtSignature sig fun signing =>
      AgreeBut params.member signing.core ((log.take held).membership sig).core)
    (World.start log held) steps

/-- Every core map that is accepted is the core group before its entry, but for the named
member. -/
def RevertsNobody : Prop :=
  ∀ copy position index, Accepted sig (handled sig call log held steps) copy position index →
    ∃ core, copy.signed.payload = .coreGroupChanged core ∧
      AgreeBut params.member (coreMap core)
        (((handled sig call log held steps).log.take position).membership sig).core

/-- What a delta promises: it reverts nobody, and what lands in between refuses it. -/
structure DeltaKept : Prop where
  others : RevertsNobody sig log held call params steps
  refuses : ¬NothingLanded sig log held call steps →
    ∀ copy position index, ¬Accepted sig (handled sig call log held steps) copy position index

end Delta

variable {member : MemberId} {core core' core'' : OrdMap MemberId NodeAddr} {params : CoreChange}

theorem AgreeBut.symm (h : AgreeBut member core core') : AgreeBut member core' core :=
  fun other hother => (h other hother).symm

theorem AgreeBut.trans (h : AgreeBut member core core') (h' : AgreeBut member core' core'') :
    AgreeBut member core core'' :=
  fun other hother => (h other hother).trans (h' other hother)

theorem CoreChange.agreeBut_changed (params : CoreChange) (core : OrdMap MemberId NodeAddr) :
    AgreeBut params.member (params.changed core) core := by
  intro other hother
  have hne : ∀ member, member ≠ other → ¬compare member other = .eq :=
    fun member hmember hcmp => hmember (Std.LawfulEqCmp.eq_of_compare hcmp)
  cases params with
  | set member addr =>
    rw [CoreChange.changed, Std.ExtTreeMap.getElem?_insert, if_neg (hne member hother.symm)]
  | remove member =>
    rw [CoreChange.changed, Std.ExtTreeMap.getElem?_erase, if_neg (hne member hother.symm)]

/-- The map that a request commits is what was read, with the change. -/
theorem proposeCore_eq_ok {around : Surroundings} {membership : MembershipState}
    {event : MembershipEvent} (h : proposeCore around membership params = .ok event) :
    event = .coreGroupChanged (params.changed membership.core).toList := by
  cases params with
  | set member addr =>
    simp only [proposeCore] at h
    split at h
    · cases h
    · exact (Except.ok.inj h).symm
  | remove member =>
    simp only [proposeCore] at h
    split at h
    · cases h
    · exact (Except.ok.inj h).symm

theorem coreMap_toList (core : OrdMap MemberId NodeAddr) : coreMap core.toList = core :=
  OrdMap.ofList_toList core

/-- What is accepted was signed against the membership it meets. -/
theorem Accepted.changedAt {sig : Signing} {call : Call} {world : World} {copy : Copy}
    {position index : ℕ} (h : Accepted sig world copy position index)
    (hsound : world.AllSound sig call) :
    copy.signed.changedAt = ((world.log.take position).membership sig).changedAt := by
  obtain ⟨entryIndex, hentry⟩ := (hsound copy h.submitted).placed position h.committed
  exact (GroupLog.changedAt_of_accepted (GroupLog.next_take hentry)
    (GroupLog.accepted_of_verdictAt hentry h.ok)).1

/-- **A delta reverts nobody exactly when nobody else moved before it was signed**, in every
run of every request. Where nothing was folded in between reading and signing it keeps its
promise; and of a request whose map is accepted it keeps it only then, and reverts nobody
exactly when all but the named member stood where they were read. -/
theorem core_delta_iff (sig : Signing) (around : Surroundings) (log : GroupLog) (held : ℕ)
    (call : Call) (params : CoreChange) (steps : List Step)
    (hevent : proposeCore around ((log.take held).membership sig) params = .ok call.event) :
    (NothingLanded sig log held call steps → DeltaKept sig log held call params steps) ∧
      ∀ copy position index, Accepted sig (handled sig call log held steps) copy position index →
        (DeltaKept sig log held call params steps ↔ NothingLanded sig log held call steps) ∧
          (RevertsNobody sig log held call params steps ↔
            OthersStood sig log held call params steps) := by
  have hmap := proposeCore_eq_ok hevent
  have honce : Propose.sentAgainWhenStale call.event = false := by rw [hmap]; rfl
  have hlanded : (handled sig call log held steps).Landed sig call :=
    exec_invariant (I := World.Landed sig call) (fun _ step h => h.step step) steps
      (World.landed_start sig call log held)
  have hread : (handled sig call log held steps).Been sig ((log.take held).membership sig) :=
    (World.been_membership sig (World.start log held)).run steps
  -- an accepted map meets the membership it was signed against
  have hmet : ∀ copy position index,
      Accepted sig (handled sig call log held steps) copy position index →
      ((RevertsNobody sig log held call params steps ↔ OthersStood sig log held call params steps) ∧
        (NothingLanded sig log held call steps → OthersStood sig log held call params steps)) := by
    intro copy position index haccepted
    have hsubmitted : (handled sig call log held steps).copies ≠ [] :=
      List.ne_nil_of_mem haccepted.submitted
    obtain ⟨signing, hbeen, hsigned, hcondition⟩ :=
      World.Unsigned.signed honce steps ⟨rfl, rfl⟩ (World.landed_start sig call log held) hsubmitted
    have hbefore : ∀ copy position index,
        Accepted sig (handled sig call log held steps) copy position index →
        ((handled sig call log held steps).log.take position).membership sig = signing := by
      intro copy position index haccepted
      refine World.Been.eq ⟨position, rfl⟩ hbeen ?_
      rw [← haccepted.changedAt hlanded.sound]
      exact hsigned.copies copy haccepted.submitted
    have hothers : OthersStood sig log held call params steps ↔
        AgreeBut params.member signing.core ((log.take held).membership sig).core := hcondition _
    refine ⟨?_, ?_⟩
    · rw [hothers]
      constructor
      · intro hreverts
        obtain ⟨core, hpayload, hagree⟩ := hreverts copy position index haccepted
        rw [(hlanded.sound copy haccepted.submitted).event, hmap,
          MembershipEvent.coreGroupChanged.injEq] at hpayload
        rw [← hpayload, coreMap_toList, hbefore copy position index haccepted] at hagree
        exact hagree.symm.trans (params.agreeBut_changed _)
      · intro hstood copy position index haccepted
        refine ⟨_, (hlanded.sound copy haccepted.submitted).event.trans hmap, ?_⟩
        rw [coreMap_toList, hbefore copy position index haccepted]
        exact (params.agreeBut_changed _).trans hstood.symm
    · intro hnothing
      have hsame : signing.changedAt = ((log.take held).membership sig).changedAt :=
        (hcondition _).mp hnothing
      rw [hothers, hbeen.eq hread hsame]
      exact fun _ _ => rfl
  have hkept : NothingLanded sig log held call steps → DeltaKept sig log held call params steps := by
    intro hnothing
    refine ⟨?_, fun hlanded => absurd hnothing hlanded⟩
    intro copy position index haccepted
    obtain ⟨hiff, hstood⟩ := hmet copy position index haccepted
    exact hiff.mpr (hstood hnothing) copy position index haccepted
  refine ⟨hkept, ?_⟩
  intro copy position index haccepted
  refine ⟨⟨?_, hkept⟩, (hmet copy position index haccepted).1⟩
  intro hdelta
  by_contra hlate
  exact hdelta.refuses hlate copy position index haccepted

/-! ## Two changes of address -/

namespace Sample

def relayed (relay : String) : NodeAddr := ⟨some relay, ∅⟩

/-- Alice moves. -/
def aliceMoves : Call :=
  ⟨alice, .coreGroupChanged [(alice, relayed "a"), (bob, default)], Propose.aliceKey⟩

/-- Bob's own move is folded in on alice's node after her map was read. -/
def bobMovesFirst : List Step :=
  [.entry 2 (.signedBy bob 1 (.coreGroupChanged [(alice, default), (bob, relayed "b")])), .hold 2,
    .proposeOnce .core ⟨0⟩, .submit, .commit 0 3, .hear (.verdict 0), .hold 3, .caughtUp]

/-- **Alice's move puts bob back**: he has just moved, her map was read before, and it is
signed against the membership in which he moved. It is accepted, and the group's address for
bob is the one he left. -/
theorem bob_moved_back :
    proposeCore ⟨fun _ => "", fun _ => "", fun _ _ reason => .ok reason⟩
        ((Propose.foundedLog.take 1).membership .accepting) (.set alice (relayed "a")) =
      .ok aliceMoves.event ∧
    ((handled .accepting aliceMoves Propose.foundedLog 1 (bobMovesFirst.take 2)).membership
      .accepting).core[bob]? = some (relayed "b") ∧
    ((handled .accepting aliceMoves Propose.foundedLog 1 bobMovesFirst).membership
      .accepting).core[bob]? = some default ∧
    ¬DeltaKept .accepting Propose.foundedLog 1 aliceMoves (.set alice (relayed "a")) bobMovesFirst := by
  refine ⟨by decide +kernel, by decide +kernel, by decide +kernel, ?_⟩
  intro hkept
  have haccepted : Accepted .accepting
      (handled .accepting aliceMoves Propose.foundedLog 1 bobMovesFirst)
      ⟨.signedBy alice 2 aliceMoves.event, 1, .own, .committed 2⟩ 2 3 :=
    ⟨by decide +kernel, rfl, by decide +kernel⟩
  obtain ⟨core, hpayload, hagree⟩ := hkept.others _ _ _ haccepted
  obtain rfl := MembershipEvent.coreGroupChanged.inj hpayload
  exact absurd (hagree bob (by decide)) (by decide +kernel)

/-- Undisturbed, the same request moves alice and nobody else. -/
theorem alice_moved :
    DeltaKept .accepting Propose.foundedLog 1 aliceMoves (.set alice (relayed "a"))
        (undisturbed 2 2) ∧
      ((handled .accepting aliceMoves Propose.foundedLog 1 (undisturbed 2 2)).membership
        .accepting).core[alice]? = some (relayed "a") := by
  refine ⟨?_, by decide +kernel⟩
  refine (core_delta_iff .accepting ⟨fun _ => "", fun _ => "", fun _ _ reason => .ok reason⟩
    Propose.foundedLog 1 aliceMoves (.set alice (relayed "a")) (undisturbed 2 2)
    (by decide +kernel)).1 ?_
  refine ⟨fun _ _ => by decide +kernel, ?_⟩
  exact ⟨trivial, trivial, trivial, trivial, trivial, trivial⟩

end Sample

end Api

end Distlib
