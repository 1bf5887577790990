import Distlib.Consensus.FailedStore
import Distlib.Consensus.Protocol
import Distlib.Consensus.Roles

/-!
# The predecessors of a promotion

A follower that is made a voter replays the log under Raft, from voters it has no
configuration to know. It trusts the core it has read of, and the core immediately
before it was admitted, since the leader that taught it its seat may have gone in
the meantime. The latter is not in the membership: it is taken down while the log
is followed, for every voter, in a table of its own. The table is read back from
the disk at every batch, and every event folded moves it, by the core before the
event and the core after it, whatever the event was.

What the table is to hold is said of the log (`Seats`): an entry seats a member
when the member is not in core before it and is in core ever after. One step of
the fold keeps that (`Recorded.next`).

The log itself is said of the pages (`followed`): one after the other, each up to
the first event that would come under a protocol the build does not speak. A store
that commits its batches, and is opened again between them, holds the fold of that
and its table, and nothing else; and where every build speaks all of the log, that
is the log the pages were cut from.
-/

namespace Distlib

open IndexedLog GuardedRun

/-! ## What the log makes of a seat -/

/-- The entry between `pre` and `post` put `member` into core, and `member` has
been there since. -/
structure Seats (sig : Signing) (member : MemberId) (pre : Log SignedEvent)
    (entry : ℕ × SignedEvent) (post : Log SignedEvent) : Prop where
  before : member ∉ (MembershipState.fold sig pre).core
  since : ∀ mid rest, post = mid ++ rest →
    member ∈ (MembershipState.fold sig (pre ++ entry :: mid)).core

/-- `before` is the core immediately before the entry that last seated `member`. -/
def SeatedAfter (sig : Signing) (log : Log SignedEvent) (member : MemberId)
    (before : Finset MemberId) : Prop :=
  ∃ pre entry post, log = pre ++ entry :: post ∧ Seats sig member pre entry post ∧
    before = OrdMap.keySet (MembershipState.fold sig pre).core

section Log

variable {sig : Signing} {log : Log SignedEvent} {entry : ℕ × SignedEvent} {member : MemberId}
  {before : Finset MemberId}

/-- A seat is held. -/
theorem SeatedAfter.mem_core (h : SeatedAfter sig log member before) :
    member ∈ (MembershipState.fold sig log).core := by
  obtain ⟨pre, entry, post, rfl, hseats, -⟩ := h
  exact hseats.since post [] (List.append_nil post).symm

/-- An entry that brings a member in seats it. -/
theorem seatedAfter_of_enters (hout : member ∉ (MembershipState.fold sig log).core)
    (hin : member ∈ (MembershipState.fold sig (log ++ [entry])).core) :
    SeatedAfter sig (log ++ [entry]) member before ↔
      before = OrdMap.keySet (MembershipState.fold sig log).core := by
  constructor
  · rintro ⟨pre, first, post, hlog, hseats, hbefore⟩
    rcases List.eq_nil_or_concat post with rfl | ⟨mid, last, rfl⟩
    · obtain ⟨rfl, -⟩ := List.append_inj' hlog rfl
      exact hbefore
    · -- it would have been in core before the last entry
      have hsplit : log = pre ++ first :: mid := by
        have hgrown : log ++ [entry] = (pre ++ first :: mid) ++ [last] := by
          rw [hlog, List.concat_eq_append, List.append_assoc, List.cons_append]
        exact (List.append_inj' hgrown rfl).1
      rw [hsplit] at hout
      exact absurd (hseats.since mid [last] (List.concat_eq_append ..)) hout
  · intro hbefore
    refine ⟨log, entry, [], rfl, ⟨hout, fun mid rest hmid => ?_⟩, hbefore⟩
    obtain ⟨rfl, -⟩ := List.append_eq_nil_iff.mp hmid.symm
    exact hin

/-- An entry that leaves a member in leaves it in its seat. -/
theorem seatedAfter_of_stays (hwas : member ∈ (MembershipState.fold sig log).core)
    (hin : member ∈ (MembershipState.fold sig (log ++ [entry])).core) :
    SeatedAfter sig (log ++ [entry]) member before ↔ SeatedAfter sig log member before := by
  constructor
  · rintro ⟨pre, first, post, hlog, hseats, hbefore⟩
    rcases List.eq_nil_or_concat post with rfl | ⟨mid, last, rfl⟩
    · obtain ⟨rfl, -⟩ := List.append_inj' hlog rfl
      exact absurd hwas hseats.before
    · have hsplit : log = pre ++ first :: mid := by
        have hgrown : log ++ [entry] = (pre ++ first :: mid) ++ [last] := by
          rw [hlog, List.concat_eq_append, List.append_assoc, List.cons_append]
        exact (List.append_inj' hgrown rfl).1
      refine ⟨pre, first, mid, hsplit, ⟨hseats.before, ?_⟩, hbefore⟩
      rintro part rest rfl
      exact hseats.since part (rest ++ [last]) (by rw [List.concat_eq_append, List.append_assoc])
  · rintro ⟨pre, first, post, rfl, hseats, hbefore⟩
    refine ⟨pre, first, post ++ [entry], by simp, ⟨hseats.before, fun mid rest hmid => ?_⟩, hbefore⟩
    rcases List.eq_nil_or_concat rest with rfl | ⟨rest, last, rfl⟩
    · rw [List.append_nil] at hmid
      subst hmid
      rw [List.append_assoc, List.cons_append] at hin
      exact hin
    · refine hseats.since mid rest ?_
      have hgrown : post ++ [entry] = (mid ++ rest) ++ [last] := by
        rw [hmid, List.concat_eq_append, List.append_assoc]
      exact (List.append_inj' hgrown rfl).1

/-- Every voter was seated by some entry. -/
theorem exists_seatedAfter (sig : Signing) (log : Log SignedEvent)
    (hin : member ∈ (MembershipState.fold sig log).core) :
    ∃ before, SeatedAfter sig log member before := by
  induction log using List.reverseRecOn with
  | nil => simp [MembershipState.fold, IndexedLog.run, MembershipState.new] at hin
  | append_singleton log entry ih =>
    by_cases hwas : member ∈ (MembershipState.fold sig log).core
    · obtain ⟨before, hseated⟩ := ih hwas
      exact ⟨before, (seatedAfter_of_stays hwas hin).mpr hseated⟩
    · exact ⟨_, (seatedAfter_of_enters hwas hin).mpr rfl⟩

/-- A founder that has kept its seat was seated after nobody. -/
theorem seatedAfter_founding {pre post : Log SignedEvent} {i : ℕ} {signed : SignedEvent}
    {groupId : GroupId} {settings : GroupSettings}
    (hfounds : MembershipState.Founds sig pre i signed groupId settings)
    (hsince : ∀ mid rest, post = mid ++ rest →
      member ∈ (MembershipState.fold sig (pre ++ (i, signed) :: mid)).core) :
    SeatedAfter sig (pre ++ (i, signed) :: post) member ∅ := by
  obtain ⟨hcore, -⟩ := MembershipState.unfounded_fold sig pre hfounds.group.1
  refine ⟨pre, (i, signed), post, rfl, ⟨?_, hsince⟩, ?_⟩
  · rw [hcore]
    exact Std.ExtTreeMap.not_mem_empty
  · rw [hcore, OrdMap.keySet_eq_empty_iff.mpr rfl]

end Log

/-! ## The table -/

namespace Followed

/-- The table after an event, for one member: nothing outside the core, the core
before the event for a member it brought in, and what was there for the others. -/
theorem next_predecessors (sig : Signing) (followed : Followed) (index : ℕ) (event : SignedEvent)
    (member : MemberId) :
    (followed.next sig index event).predecessors[member]? =
      if member ∈ (followed.state.apply sig index event).2.core then
        if member ∈ followed.state.core then followed.predecessors[member]?
        else some (OrdMap.keySet followed.state.core)
      else none := by
  rw [next, OrdMap.getElem?_foldl_insert]
  simp only [Std.ExtTreeMap.mem_keys, OrdMap.mem_keySet]
  by_cases hin : member ∈ (followed.state.apply sig index event).2.core
  · by_cases hwas : member ∈ followed.state.core
    · simp only [hin, hwas, MembershipState.isCore, Std.ExtTreeMap.contains_iff_mem.mpr hin,
        Std.ExtTreeMap.getElem?_filter']
      cases followed.predecessors[member]? <;> simp
    · simp [hin, hwas]
  · simp [hin, MembershipState.isCore]

/-- The table is what the log makes of the seats, and there is a seat for nobody
but the core. -/
def Recorded (sig : Signing) (log : Log SignedEvent) (predecessors : PromotionPredecessors) : Prop :=
  ∀ member before, predecessors[member]? = some before ↔ SeatedAfter sig log member before

/-- **One event keeps the table.** -/
theorem Recorded.next {sig : Signing} {log : Log SignedEvent} {followed : Followed}
    (h : Recorded sig log followed.predecessors)
    (hstate : followed.state = MembershipState.fold sig log) (index : ℕ) (event : SignedEvent) :
    Recorded sig (log ++ [(index, event)]) (followed.next sig index event).predecessors := by
  intro member before
  have hfold : (followed.state.apply sig index event).2 =
      MembershipState.fold sig (log ++ [(index, event)]) := by
    rw [MembershipState.fold_concat, hstate]
  rw [next_predecessors, hfold, hstate]
  split
  · rename_i hin
    split
    · rename_i hwas
      rw [h, seatedAfter_of_stays hwas hin]
    · rename_i hout
      rw [seatedAfter_of_enters hout hin, Option.some_inj, eq_comm]
  · rename_i hout
    exact ⟨(by intro hnone; cases hnone), fun hseated => absurd (SeatedAfter.mem_core hseated) hout⟩

/-- The table of a whole log. -/
theorem recorded_run (sig : Signing) (log : Log SignedEvent) :
    Recorded sig log (unread.run sig log).predecessors := by
  induction log using List.reverseRecOn with
  | nil =>
    intro member before
    refine ⟨fun hnone => ?_, fun hseated => ?_⟩
    · simp [run, unread] at hnone
    · obtain ⟨pre, entry, post, hlog, -⟩ := hseated
      exact absurd hlog (by simp)
  | append_singleton log entry ih =>
    rw [run_append]
    exact ih.next (run_unread_state sig log) entry.1 entry.2

end Followed

/-! ## What there is to fold -/

/-- What a build that has read `log` folds of the events that come after it: all of them,
or those before the first that would come under a protocol it does not speak. -/
def spoken (sig : Signing) (protocolMax : UInt32) : Log SignedEvent → Log SignedEvent →
    Log SignedEvent
  | _, [] => []
  | log, entry :: events =>
    if protocolMax < (MembershipState.fold sig log).protocol then []
    else entry :: spoken sig protocolMax (log ++ [entry]) events

section Spoken

variable {sig : Signing} {protocolMax : UInt32} {log events : Log SignedEvent}

/-- The loop over a page folds what the build speaks of it. -/
theorem followEvents_spoken (upTo : ℕ) : ∀ {log : Log SignedEvent} {current : Followed},
    current.state = MembershipState.fold sig log →
    (followEvents sig protocolMax upTo events current).2 =
      current.run sig (spoken sig protocolMax log events) := by
  induction events with
  | nil => intro log current _; rfl
  | cons entry events ih =>
    intro log current hstate
    have hnext : (current.next sig entry.1 entry.2).state =
        MembershipState.fold sig (log ++ [entry]) := by
      rw [MembershipState.fold_concat, ← hstate]
      rfl
    rw [followEvents, spoken, hstate]
    split
    · rfl
    · exact ih hnext

/-- Of a page whose every event comes under a protocol the build speaks, all is folded. -/
theorem spoken_eq_of_le : ∀ {log : Log SignedEvent},
    (∀ taken, taken <+: events → (MembershipState.fold sig (log ++ taken)).protocol ≤ protocolMax) →
    spoken sig protocolMax log events = events := by
  induction events with
  | nil => intro log _; rfl
  | cons entry events ih =>
    intro log hspoken
    have hfirst := hspoken [] List.nil_prefix
    rw [List.append_nil] at hfirst
    rw [spoken, if_neg (UInt32.not_lt.mpr hfirst), ih]
    intro taken htaken
    rw [List.append_assoc, List.singleton_append]
    exact hspoken (entry :: taken) (List.cons_prefix_cons.mpr ⟨rfl, htaken⟩)

end Spoken

/-! ## A store that follows -/

namespace Following

/-- The store of a follower and the build it runs. -/
structure World where
  inner : Inner
  protocolMax : UInt32

inductive Happening : Type where
  /-- a page is folded and committed -/
  | batch (upTo : ℕ) (events : Log SignedEvent)
  /-- the process is started again, of a build that speaks up to `protocolMax` -/
  | restart (protocolMax : UInt32)

/-- A node that has read nothing. -/
def World.start (protocolMax : UInt32) : World := ⟨.fresh, protocolMax⟩

def World.step (sig : Signing) (world : World) : Happening → World
  | .batch upTo events =>
    { world with
      inner := (world.inner.applyFollowed sig world.protocolMax upTo events .stored).2 }
  | .restart protocolMax => { inner := world.inner.fromDatabase, protocolMax }

/-- The pages of a history, one after the other. -/
def pages : List Happening → Log SignedEvent
  | [] => []
  | .batch _ events :: happenings => events ++ pages happenings
  | .restart _ :: happenings => pages happenings

/-- The builds of a history, beginning with the one that runs. -/
def builds (protocolMax : UInt32) : List Happening → List UInt32
  | [] => [protocolMax]
  | .batch _ _ :: happenings => builds protocolMax happenings
  | .restart next :: happenings => protocolMax :: builds next happenings

/-- The log that the pages of a history make, after what was read before: of each page
what the build of the time speaks. -/
def followed (sig : Signing) (protocolMax : UInt32) (log : Log SignedEvent) :
    List Happening → Log SignedEvent
  | [] => log
  | .batch _ events :: happenings =>
    followed sig protocolMax (log ++ spoken sig protocolMax log events) happenings
  | .restart next :: happenings => followed sig next log happenings

variable {sig : Signing} {world : World} {log : Log SignedEvent}

theorem head_mem_builds (protocolMax : UInt32) (happenings : List Happening) :
    protocolMax ∈ builds protocolMax happenings := by
  induction happenings with
  | nil => exact List.mem_singleton_self _
  | cons happening happenings ih =>
    cases happening with
    | batch _ _ => exact ih
    | restart _ => exact List.mem_cons_self ..

/-- **Cutting a log into pages loses nothing of it**: if no part of it is beyond any build
of the history, what is followed is the log the pages were cut from. -/
theorem followed_eq_pages (happenings : List Happening) :
    ∀ {protocolMax : UInt32} {log : Log SignedEvent},
      (∀ taken, taken <+: pages happenings → ∀ build ∈ builds protocolMax happenings,
        (MembershipState.fold sig (log ++ taken)).protocol ≤ build) →
      followed sig protocolMax log happenings = log ++ pages happenings := by
  induction happenings with
  | nil => intro protocolMax log _; exact (List.append_nil log).symm
  | cons happening happenings ih =>
    intro protocolMax log hspoken
    cases happening with
    | batch upTo events =>
      have hpage : spoken sig protocolMax log events = events := by
        refine spoken_eq_of_le fun taken htaken => ?_
        exact hspoken taken (htaken.trans (List.prefix_append ..)) protocolMax
          (head_mem_builds protocolMax happenings)
      rw [followed, hpage, ih, pages, List.append_assoc]
      intro taken htaken build hbuild
      rw [List.append_assoc]
      exact hspoken (events ++ taken) ((List.prefix_append_right_inj events).mpr htaken) build
        hbuild
    | restart next =>
      rw [followed, ih, pages]
      intro taken htaken build hbuild
      exact hspoken taken htaken build (List.mem_cons_of_mem _ hbuild)

/-- The store is what the log makes of it, in memory and on disk. -/
structure World.Kept (sig : Signing) (log : Log SignedEvent) (world : World) : Prop where
  state : world.inner.applied.state = MembershipState.fold sig log
  predecessors : world.inner.predecessors.getD ∅ = (Followed.unread.run sig log).predecessors
  durable : world.inner.durable.getD .empty = world.inner.applied

theorem World.kept_start (protocolMax : UInt32) : (World.start protocolMax).Kept sig [] :=
  ⟨rfl, rfl, rfl⟩

/-- **A batch folds what it folds as the log does**, wherever the page was cut. -/
theorem World.Kept.batch (h : world.Kept sig log) (upTo : ℕ) (events : Log SignedEvent) :
    (world.step sig (.batch upTo events)).Kept sig
      (log ++ spoken sig world.protocolMax log events) := by
  have hfollow : (world.inner.follow sig world.protocolMax upTo events).2 =
      Followed.run sig
        ⟨world.inner.applied.state, world.inner.predecessors.getD ∅, [],
          world.inner.applied.followedUpto⟩
        (spoken sig world.protocolMax log events) :=
    followEvents_spoken upTo h.state
  have hagrees : (world.inner.follow sig world.protocolMax upTo events).2.Agrees
      (Followed.unread.run sig (log ++ spoken sig world.protocolMax log events)) := by
    rw [hfollow, Followed.run_append]
    refine Followed.Agrees.run sig ⟨?_, h.predecessors⟩
    rw [Followed.run_unread_state]
    exact h.state
  refine ⟨?_, hagrees.2, rfl⟩
  rw [← Followed.run_unread_state]
  exact hagrees.1

/-- A restart finds on disk what was in memory. -/
theorem World.Kept.restart (h : world.Kept sig log) (protocolMax : UInt32) :
    (world.step sig (.restart protocolMax)).Kept sig log := by
  have happlied : (world.step sig (.restart protocolMax)).inner.applied = world.inner.applied := by
    rw [← h.durable]
    exact StateMachineStore.fromDatabase_applied _
  refine ⟨happlied ▸ h.state, ?_, ?_⟩
  · refine Eq.trans ?_ h.predecessors
    exact congrArg (·.getD ∅) (StateMachineStore.fromDatabase_predecessors _)
  · rw [happlied, ← h.durable]
    exact congrArg (·.getD .empty) (StateMachineStore.fromDatabase_durable _)

/-- A whole history: the store is what the pages handed in make of it. -/
theorem World.Kept.exec (happenings : List Happening) :
    ∀ {world : World} {log : Log SignedEvent}, world.Kept sig log →
      (GuardedRun.exec (World.step sig) world happenings).Kept sig
        (followed sig world.protocolMax log happenings) := by
  induction happenings with
  | nil => intro world log h; exact h
  | cons happening happenings ih =>
    intro world log h
    cases happening with
    | batch upTo events => exact ih (h.batch upTo events)
    | restart protocolMax => exact ih (h.restart protocolMax)

/-- **The predecessors of a promotion are those of the log.** However the log was
cut into pages, and wherever between them the node was started again, the store
holds the fold of what the pages say and its table has a set for exactly the
voters of that log: the core immediately before the entry that most recently put
each in core, nobody for a founder that has been in core since the founding. And
a promotion trusts, of the members, the core and those before it. -/
theorem predecessors_of_the_log (sig : Signing) (protocolMax : UInt32)
    (happenings : List Happening) :
    let world := exec (World.step sig) (World.start protocolMax) happenings
    let log := followed sig protocolMax [] happenings
    let group := MembershipState.fold sig log
    let predecessors := world.inner.predecessors.getD ∅
    ((∀ taken, taken <+: pages happenings → ∀ build ∈ builds protocolMax happenings,
        (MembershipState.fold sig taken).protocol ≤ build) → log = pages happenings) ∧
    world.inner.applied.state = group ∧
    (∀ member, member ∈ predecessors ↔ member ∈ group.core) ∧
    (∀ member before, predecessors[member]? = some before ↔ SeatedAfter sig log member before) ∧
    (∀ pre i signed post groupId settings, log = pre ++ (i, signed) :: post →
      MembershipState.Founds sig pre i signed groupId settings →
      ∀ member, (∀ mid rest, post = mid ++ rest →
        member ∈ (MembershipState.fold sig (pre ++ (i, signed) :: mid)).core) →
      predecessors[member]? = some ∅) ∧
    ∀ me, ∃ promotion, (world.inner.preparePromotion me .stored).1 = .ok promotion ∧
      ∀ voter, voter ∈ promotion.voters ↔
        group.isMember voter ∧
          (voter ∈ group.core ∨ ∃ before, SeatedAfter sig log me before ∧ voter ∈ before) := by
  intro world log group predecessors
  have hkept : world.Kept sig log := (World.kept_start protocolMax).exec happenings
  have hrecorded : Followed.Recorded sig log predecessors := by
    have hrun := Followed.recorded_run sig log
    rwa [← hkept.predecessors] at hrun
  refine ⟨fun hspoken => followed_eq_pages happenings hspoken, hkept.state, fun member => ?_,
    hrecorded, ?_, fun me => ⟨world.inner.promotionOf me, rfl, fun voter => ?_⟩⟩
  · rw [OrdMap.mem_iff_exists]
    refine ⟨?_, fun hin => ?_⟩
    · rintro ⟨before, hget⟩
      exact ((hrecorded member before).mp hget).mem_core
    · obtain ⟨before, hseated⟩ := exists_seatedAfter sig log hin
      exact ⟨before, (hrecorded member before).mpr hseated⟩
  · intro pre i signed post groupId settings hlog hfounds member hsince
    rw [hrecorded, hlog]
    exact seatedAfter_founding hfounds hsince
  · have hgroup : world.inner.applied.state = group := hkept.state
    rw [Inner.promotionOf, hgroup, Finset.mem_filter, Finset.mem_union, OrdMap.mem_keySet, and_comm]
    refine and_congr_right fun _ => or_congr_right ?_
    change voter ∈ predecessors[me]?.getD ∅ ↔ _
    rcases hget : predecessors[me]? with _ | before
    · refine ⟨fun hmem => absurd hmem (Finset.notMem_empty voter), ?_⟩
      rintro ⟨before, hseated, -⟩
      rw [(hrecorded me before).mpr hseated] at hget
      cases hget
    · refine ⟨fun hmem => ⟨before, (hrecorded me before).mp hget, hmem⟩, ?_⟩
      rintro ⟨before', hseated, hmem⟩
      rw [(hrecorded me before').mpr hseated] at hget
      obtain rfl := Option.some.inj hget
      exact hmem

/-! ## Carol's promotion, over pages

Alice and bob found the group, and carol is taken into core by a proposal of alice's that
bob's approval enacts. The page it is in ends before the approval, and the node is started
again there. -/

def founded : ℕ × SignedEvent :=
  (1, .signedBy alice 0
    (.groupFounded ⟨9⟩ [(⟨alice, "alice"⟩, default), (⟨bob, "bob"⟩, default)] default))

def carolPromoted : Log SignedEvent :=
  [(2, .signedBy alice 1 (.memberAdded ⟨carol, "carol"⟩)),
    (3, .signedBy alice 2 (.coreGroupChanged [(alice, default), (bob, default), (carol, default)])),
    (4, .signedBy bob 3 (.approved 3))]

def cutBeforeApproval : List Happening :=
  [.batch 1 [founded], .batch 3 (carolPromoted.take 2), .restart 7, .batch 4 (carolPromoted.drop 2)]

/-- The pages are followed to their end. Carol was seated after alice and bob, and bob, who
founded the group, after nobody. -/
theorem predecessors_of_carol :
    followed .accepting 2 [] cutBeforeApproval = founded :: carolPromoted ∧
      (exec (World.step .accepting) (World.start 2) cutBeforeApproval).inner.applied.state =
        MembershipState.fold .accepting (founded :: carolPromoted) ∧
      SeatedAfter .accepting (founded :: carolPromoted) carol {alice, bob} ∧
      SeatedAfter .accepting (founded :: carolPromoted) bob ∅ := by
  obtain ⟨hpages, hstate, -, hseated, -⟩ :=
    predecessors_of_the_log .accepting 2 cutBeforeApproval
  have hfirst : ∀ taken ∈ (founded :: carolPromoted).inits,
      (MembershipState.fold .accepting taken).protocol ≤ 1 := by decide +kernel
  have hlog : followed .accepting 2 [] cutBeforeApproval = founded :: carolPromoted := by
    refine hpages fun taken htaken build hbuild => ?_
    have hprotocol := hfirst taken ((List.mem_inits ..).mpr htaken)
    simp only [builds, cutBeforeApproval, List.mem_cons, List.not_mem_nil, or_false] at hbuild
    obtain rfl | rfl := hbuild
    · exact UInt32.le_trans hprotocol (by decide)
    · exact UInt32.le_trans hprotocol (by decide)
  rw [hlog] at hstate hseated
  exact ⟨hlog, hstate, (hseated carol {alice, bob}).mp (by decide +kernel),
    (hseated bob ∅).mp (by decide +kernel)⟩

end Following

end Distlib
