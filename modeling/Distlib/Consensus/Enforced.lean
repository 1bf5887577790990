import Distlib.Lib.GuardedRun
import Distlib.Consensus.Roles
import Distlib.Consensus.Replay

/-!
# What a node enforces

`follow_membership` carries every membership change from the log to the allowlist.
It is a task of its own: it reads what the state machine has announced, asks whether
a promotion is under way, and publishes. Between any two of its reads the state
machine may announce something else.

A promotion is what makes this hard. The projection is reset and replayed from the
beginning of the log, and a projection older than the promotion's boundary must not
be enforced: it may admit whom the group has expelled since. Whether a projection is
such a one is decided from three values that are published apart, and the window
closes with Raft's configuration, which `apply` announces *before* the membership. A
decision that falls in between, or on a membership read before, takes an old
projection for a current one: `replay_readmits_bob`.

`World.Decides` is the condition on a decision: a membership older than the boundary
is decided on only with the promotion read since it was set, and with Raft's announced
configuration still before the boundary. The main result is `enforced_never_goes_back`:
in every run of such decisions, what is enforced never gets older, and after a
promotion nobody is admitted anew but by a log state as new as its boundary. Decisions
whose reads no announcement disturbs are all of that kind (`decides_of_undisturbed`),
so it takes a race to leave it.
-/

namespace Distlib

open IndexedLog GuardedRun MembershipState

/-- Who may connect. -/
def MembershipState.allowlist (s : MembershipState) : Finset MemberId := OrdMap.keySet s.members

theorem MembershipState.mem_allowlist {s : MembershipState} {member : MemberId} :
    member ∈ s.allowlist ↔ s.isMember member = true := by
  rw [allowlist, OrdMap.mem_keySet, isMember, Std.ExtTreeMap.contains_iff_mem]

namespace Inner

/-! ## Calls of the state machine, up to their announcements -/

/-- `applyFollowed`, its transaction through, before it announces. -/
def foldFollowed (sig : Signing) (protocolMax : UInt32) (inner : Inner) (upTo : ℕ)
    (events : Log SignedEvent) : Inner :=
  let result := inner.toStateMachineStore.follow sig protocolMax upTo events
  let applied := { inner.applied with state := result.2.state, followedUpto := result.1 }
  { inner with applied, durable := some applied, predecessors := some result.2.predecessors }

/-- `apply`, its transaction through, before it announces. -/
def foldApplied (sig : Signing) (inner : Inner) (entries : List Entry) : Inner :=
  let applied := (inner.applied.applyEntries sig entries).2
  { inner with applied, durable := some applied }

/-- `preparePromotion`, with the promotion set, before it announces. -/
def resetForReplay (inner : Inner) (me : MemberId) : Inner :=
  let promotion := some (inner.promotionOf me)
  { inner.resetMemory.resetTransaction promotion with authority := promotion }

end Inner

namespace Enforced

/-! ## The state machine and the task -/

/-- One announcement. -/
inductive Write : Type where
  | raft (membership : StoredMembership)
  | membership (state : MembershipState)

/-- Where `follow_membership` is in its loop, and what it has read. -/
inductive Task : Type where
  | waiting
  | read (membership : MembershipState)
  | asked (membership : MembershipState) (authority : Option Promotion)

/-- A node that follows the log and is then made a voter. -/
structure World where
  store : Inner
  /-- Raft runs: the node has been promoted -/
  voting : Bool
  /-- how many entries of the log Raft has applied since -/
  replayed : ℕ
  /-- what the call under way has still to announce -/
  pending : List Write
  task : Task
  allowlist : Finset MemberId
  enforced : MembershipState

inductive Step : Type where
  /-- a follower applies a page of the log -/
  | follow (upTo : ℕ)
  | promote (me : MemberId)
  /-- Raft applies the next `count` entries -/
  | apply (count : ℕ)
  /-- the next announcement of the call under way -/
  | write
  /-- the task reads the membership -/
  | read
  /-- the task reads the promotion -/
  | ask
  /-- the task looks at Raft's configuration, decides and publishes -/
  | publish
  deriving DecidableEq

namespace World

/-- A node over an empty database, admitting whom its configuration names. -/
def start (bootstrap : Finset MemberId) : World where
  store := .fresh
  voting := false
  replayed := 0
  pending := []
  task := .waiting
  allowlist := bootstrap
  enforced := .new

/-- Whether what the task has read counts as replayed history. -/
def replaying (world : World) (membership : MembershipState) (authority : Option Promotion) : Bool :=
  ({ world.store with authority } : Inner).promotion.any fun promotion =>
    membership.changedAt < promotion.boundary

/-- What the task publishes. A blank or historically replayed projection must not
replace either bootstrap membership or the newer pre-promotion allowlist. -/
def publish (world : World) (membership : MembershipState) (authority : Option Promotion) : World :=
  let replaying := world.replaying membership authority
  let world :=
    if membership.group.isSome && !replaying then { world with allowlist := membership.allowlist }
    else world
  if replaying then world else { world with enforced := membership }

/-- One step of the state machine or of the task. A call starts when the one before
has announced everything. -/
def step (sig : Signing) (log : CommittedLog) (protocolMax : UInt32) (world : World) : Step → World
  | .follow upTo =>
    if world.voting || !world.pending.isEmpty || upTo ≤ world.store.applied.followedUpto then world
    else
      let store := world.store.foldFollowed sig protocolMax upTo
        (between world.store.applied.followedUpto upTo log.events)
      { world with store, pending := [.membership store.applied.state] }
  | .promote me =>
    if world.voting || !world.pending.isEmpty then world
    else
      { world with
        store := world.store.resetForReplay me
        voting := true
        replayed := 0
        pending := [.raft Applied.empty.membership, .membership .new] }
  | .apply count =>
    if !world.voting || !world.pending.isEmpty then world
    else
      let entries := (log.entries.drop world.replayed).take count
      let store := world.store.foldApplied sig entries
      { world with
        store
        replayed := world.replayed + entries.length
        pending := [.raft store.applied.membership, .membership store.applied.state] }
  | .write =>
    match world.pending with
    | [] => world
    | .raft membership :: pending =>
      { world with store := world.store.announceRaft membership, pending }
    | .membership state :: pending => { world with store := world.store.announce state, pending }
  | .read =>
    match world.task with
    | .waiting => { world with task := .read world.store.membership }
    | _ => world
  | .ask =>
    match world.task with
    | .read membership => { world with task := .asked membership world.store.authority }
    | _ => world
  | .publish =>
    match world.task with
    | .asked membership authority => { world.publish membership authority with task := .waiting }
    | _ => world

/-- **The condition on a decision**: on a membership older than the boundary of the
promotion that is set, the task decides only with that promotion read, and with Raft's
announced configuration before the boundary. -/
def Decides (world : World) (step : Step) : Prop :=
  match step, world.task with
  | .publish, .asked membership authority =>
    ∀ promotion ∈ world.store.authority, membership.changedAt < promotion.boundary →
      authority = some promotion ∧
        world.store.raftMembership.logId.all (fun logId => logId.index < promotion.boundary) = true
  | _, _ => True

theorem decides_publish {world : World} {membership : MembershipState} {authority : Option Promotion}
    (htask : world.task = .asked membership authority) :
    world.Decides .publish ↔ ∀ promotion ∈ world.store.authority,
      membership.changedAt < promotion.boundary → authority = some promotion ∧
        world.store.raftMembership.logId.all (fun logId => logId.index < promotion.boundary) =
          true := by
  rw [Decides.eq_def, htask]

instance (world : World) : (step : Step) → Decidable (world.Decides step)
  | .publish =>
    match htask : world.task with
    | .asked _ _ => decidable_of_iff _ (decides_publish htask).symm
    | .waiting => .isTrue (by rw [Decides.eq_def, htask]; trivial)
    | .read _ => .isTrue (by rw [Decides.eq_def, htask]; trivial)
  | .follow _ | .promote _ | .apply _ | .write | .read | .ask => .isTrue trivial

end World

/-! ## The states of the log -/

section LogStates

variable {sig : Signing} {log : CommittedLog}

/-- The projection a voter has after the first `count` entries of the log. -/
def projection (sig : Signing) (log : CommittedLog) (count : ℕ) : MembershipState :=
  (Applied.reached sig log count).state

theorem projection_zero : projection sig log 0 = .new := rfl

theorem changedAt_projection_mono {count more : ℕ} (h : count ≤ more) :
    (projection sig log count).changedAt ≤ (projection sig log more).changedAt := by
  rcases count with _ | n
  · exact Nat.zero_le _
  · obtain ⟨m, rfl⟩ : ∃ m, more = m + 1 := ⟨more - 1, by omega⟩
    rw [projection, projection, Applied.reached_state, Applied.reached_state,
      ← through_append_between CommittedLog.ascending_events (show n ≤ m by omega)]
    refine changedAt_fold_le sig _ _ ?_
    rw [through_append_between CommittedLog.ascending_events (show n ≤ m by omega)]
    exact CommittedLog.ascending_events.filter _

end LogStates

/-! ## What is older than what -/

namespace World

variable {sig : Signing} {log : CommittedLog} {protocolMax : UInt32} {world : World}

/-- The boundary of the promotion that is set, or zero. -/
def boundary (world : World) : ℕ := world.store.authority.elim 0 Promotion.boundary

/-- The membership the task has read, or would read now. -/
def seen (world : World) : MembershipState :=
  match world.task with
  | .waiting => world.store.membership
  | .read membership | .asked membership _ => membership

/-- What is enforced is no newer than what the task has read, which is no newer than
what is announced, which is no newer than the projection: counting everything before
the boundary of a promotion as equally old. All of them are states of the log. -/
structure InOrder (sig : Signing) (log : CommittedLog) (protocolMax : UInt32) (world : World) :
    Prop where
  enforced : world.enforced.changedAt ≤ max world.boundary world.seen.changedAt
  seen : world.seen.changedAt ≤ max world.boundary world.store.membership.changedAt
  announced : world.store.membership.changedAt ≤ max world.boundary world.store.applied.state.changedAt
  pending : ∀ state, .membership state ∈ world.pending → state = world.store.applied.state
  seenLog : ∃ count, world.seen = projection sig log count
  announcedLog : ∃ count, world.store.membership = projection sig log count
  follower : world.voting = false → world.store.authority = none ∧
    ∃ folded, Reads sig log protocolMax world.store.applied folded
  voter : world.voting = true → world.store.applied = Applied.reached sig log world.replayed

theorem InOrder.appliedLog (h : InOrder sig log protocolMax world) :
    ∃ count, world.store.applied.state = projection sig log count := by
  rcases hvoting : world.voting with _ | _
  · obtain ⟨-, folded, hreads⟩ := h.follower hvoting
    exact ⟨_, hreads.state_eq_reached⟩
  · exact ⟨world.replayed, by rw [h.voter hvoting]; rfl⟩

theorem inOrder_start (bootstrap : Finset MemberId) :
    InOrder sig log protocolMax (start bootstrap) where
  enforced := Nat.zero_le _
  seen := Nat.zero_le _
  announced := Nat.zero_le _
  pending := by simp [start]
  seenLog := ⟨0, rfl⟩
  announcedLog := ⟨0, rfl⟩
  follower _ := ⟨rfl, [], reads_empty log protocolMax⟩
  voter h := by cases h

/-- A follower applies a page: its projection gets no older. -/
theorem InOrder.follow (h : InOrder sig log protocolMax world) (upTo : ℕ) :
    InOrder sig log protocolMax (world.step sig log protocolMax (.follow upTo)) := by
  rw [step]
  split
  · exact h
  · rename_i hlegal
    simp only [Bool.or_eq_true, decide_eq_true_eq, not_or, Bool.not_eq_true, not_le] at hlegal
    obtain ⟨⟨hvoting, -⟩, hcursor⟩ := hlegal
    obtain ⟨hauthority, folded, hreads⟩ := h.follower hvoting
    have hnext : Reads sig log protocolMax
        (world.store.foldFollowed sig protocolMax upTo
          (between world.store.applied.followedUpto upTo log.events)).applied _ :=
      (hreads.follow (UInt32.le_refl _) hcursor rfl rfl rfl rfl rfl).1
    have hlater : world.store.applied.state.changedAt ≤
        (world.store.foldFollowed sig protocolMax upTo
          (between world.store.applied.followedUpto upTo log.events)).applied.state.changedAt := by
      rw [hreads.state, hnext.state]
      refine changedAt_fold_le sig _ _ ?_
      rw [hnext.cursor]
      exact CommittedLog.ascending_events.filter _
    exact
      { enforced := h.enforced
        seen := h.seen
        announced := h.announced.trans (max_le_max_left _ hlater)
        pending := fun state hmem => by
          simp only [List.mem_singleton, Write.membership.injEq] at hmem
          exact hmem
        seenLog := h.seenLog
        announcedLog := h.announcedLog
        follower := fun _ => ⟨hauthority, _, hnext⟩
        voter := fun hvotes => by
          rw [hvoting] at hvotes
          cases hvotes }

/-- At a promotion everything the node has enforced, read or announced is at most as
new as the boundary. -/
theorem InOrder.promote (h : InOrder sig log protocolMax world) (me : MemberId) :
    InOrder sig log protocolMax (world.step sig log protocolMax (.promote me)) := by
  rw [step]
  split
  · exact h
  · rename_i hlegal
    simp only [Bool.or_eq_true, not_or, Bool.not_eq_true] at hlegal
    obtain ⟨hauthority, -⟩ := h.follower hlegal.1
    have hzero : world.boundary = 0 := by rw [boundary, hauthority]; rfl
    have henforced := h.enforced
    have hseen := h.seen
    have hannounced := h.announced
    rw [hzero, Nat.zero_max] at henforced hseen hannounced
    exact
      { enforced := le_max_of_le_left (henforced.trans (hseen.trans hannounced))
        seen := le_max_of_le_left (hseen.trans hannounced)
        announced := le_max_of_le_left hannounced
        pending := by
          intro state hmem
          simp only [List.mem_cons, reduceCtorEq, Write.membership.injEq, List.not_mem_nil, or_false,
            false_or] at hmem
          exact hmem
        seenLog := h.seenLog
        announcedLog := h.announcedLog
        follower := fun hvoting => by cases hvoting
        voter := fun _ => rfl }

/-- Applying the next entries of the log goes on from where Raft is. -/
theorem reached_add (sig : Signing) (log : CommittedLog) (replayed count : ℕ) :
    let entries := (log.entries.drop replayed).take count
    ((Applied.reached sig log replayed).applyEntries sig entries).2 =
      Applied.reached sig log (replayed + entries.length) := by
  intro entries
  have htaken : (log.entries.drop replayed).take entries.length = entries := by
    simp [entries]
  rw [Applied.reached, ← Applied.applyEntries_append, Applied.reached, List.take_add, htaken]

theorem InOrder.apply (h : InOrder sig log protocolMax world) (count : ℕ) :
    InOrder sig log protocolMax (world.step sig log protocolMax (.apply count)) := by
  rw [step]
  split
  · exact h
  · rename_i hlegal
    have hvoting : world.voting = true := by
      by_contra hnot
      simp [hnot] at hlegal
    have hvoter := h.voter hvoting
    have hnext : (world.store.foldApplied sig ((log.entries.drop world.replayed).take count)).applied =
        Applied.reached sig log
          (world.replayed + ((log.entries.drop world.replayed).take count).length) := by
      rw [Inner.foldApplied, hvoter]
      exact reached_add sig log world.replayed count
    have hlater : world.store.applied.state.changedAt ≤
        (world.store.foldApplied sig
          ((log.entries.drop world.replayed).take count)).applied.state.changedAt := by
      rw [hvoter, hnext]
      exact changedAt_projection_mono (Nat.le_add_right _ _)
    exact
      { enforced := h.enforced
        seen := h.seen
        announced := h.announced.trans (max_le_max_left _ hlater)
        pending := by
          intro state hmem
          simp only [List.mem_cons, reduceCtorEq, Write.membership.injEq, List.not_mem_nil, or_false,
            false_or] at hmem
          exact hmem
        seenLog := h.seenLog
        announcedLog := h.announcedLog
        follower := fun hnot => absurd (hvoting.symm.trans hnot) (by simp)
        voter := fun _ => hnext }

/-- What is announced is the projection. -/
theorem InOrder.write (h : InOrder sig log protocolMax world) :
    InOrder sig log protocolMax (world.step sig log protocolMax .write) := by
  rw [step]
  split
  · exact h
  · rename_i membership pending hpending
    exact
      { enforced := h.enforced
        seen := h.seen
        announced := h.announced
        pending := fun state hmem => h.pending state (hpending ▸ List.mem_cons_of_mem _ hmem)
        seenLog := h.seenLog
        announcedLog := h.announcedLog
        follower := h.follower
        voter := h.voter }
  · rename_i state pending hpending
    obtain rfl := h.pending state (hpending ▸ List.mem_cons_self)
    have hchain : world.seen.changedAt ≤ max world.boundary world.store.applied.state.changedAt :=
      h.seen.trans (max_le (le_max_left _ _) h.announced)
    have hboundary : ({ world with
        store := world.store.announce world.store.applied.state, pending } : World).boundary =
        world.boundary := rfl
    -- a task that waits would read what is announced now
    have hseen : ∃ state, ({ world with
        store := world.store.announce world.store.applied.state, pending } : World).seen = state ∧
        (state = world.seen ∨ state = world.store.applied.state) := by
      refine ⟨_, rfl, ?_⟩
      rcases htask : world.task with _ | membership | ⟨membership, authority⟩ <;>
        simp [World.seen, htask, Inner.announce]
    obtain ⟨seen, heq, hcases⟩ := hseen
    have hle : world.enforced.changedAt ≤ max world.boundary seen.changedAt ∧
        seen.changedAt ≤ max world.boundary world.store.applied.state.changedAt := by
      rcases hcases with rfl | rfl
      · exact ⟨h.enforced, hchain⟩
      · exact ⟨h.enforced.trans (max_le (le_max_left _ _) hchain), le_max_right _ _⟩
    exact
      { enforced := by rw [heq, hboundary]; exact hle.1
        seen := by rw [heq, hboundary]; exact hle.2
        announced := le_max_right _ _
        pending := fun state hmem => h.pending state (hpending ▸ List.mem_cons_of_mem _ hmem)
        seenLog := by
          rw [heq]
          rcases hcases with rfl | rfl
          · exact h.seenLog
          · exact h.appliedLog
        announcedLog := h.appliedLog
        follower := h.follower
        voter := h.voter }

/-- What a decision comes to. -/
theorem publish_cases (world : World) (membership : MembershipState) (authority : Option Promotion) :
    (world.replaying membership authority = true ∧ world.publish membership authority = world) ∨
      (world.replaying membership authority = false ∧
        world.publish membership authority =
          { world with
            enforced := membership
            allowlist := if membership.group.isSome then membership.allowlist
              else world.allowlist }) := by
  rcases hreplaying : world.replaying membership authority with _ | _
  · right
    refine ⟨rfl, ?_⟩
    rcases hgroup : membership.group.isSome with _ | _ <;> simp [publish, hreplaying, hgroup]
  · left
    exact ⟨rfl, by simp [publish, hreplaying]⟩

/-- The task's own steps. -/
theorem InOrder.reads (h : InOrder sig log protocolMax world) {step : Step}
    (hstep : step = .read ∨ step = .ask) :
    InOrder sig log protocolMax (world.step sig log protocolMax step) := by
  -- neither step changes what the task has read, or would read
  have htask : ∀ task, ({ world with task } : World).seen = world.seen →
      InOrder sig log protocolMax { world with task } := by
    intro task hseen
    exact
      { enforced := by rw [hseen]; exact h.enforced
        seen := by rw [hseen]; exact h.seen
        announced := h.announced
        pending := h.pending
        seenLog := by rw [hseen]; exact h.seenLog
        announcedLog := h.announcedLog
        follower := h.follower
        voter := h.voter }
  rcases hstep with rfl | rfl
  · rw [World.step]
    split
    · rename_i hwaiting
      exact htask _ (by simp [World.seen, hwaiting])
    · exact h
  · rw [World.step]
    split
    · rename_i membership hread
      exact htask _ (by simp [World.seen, hread])
    · exact h

theorem InOrder.publish (h : InOrder sig log protocolMax world) :
    InOrder sig log protocolMax (world.step sig log protocolMax .publish) := by
  rw [World.step]
  split
  · rename_i membership authority htask
    have hmembership : world.seen = membership := by simp [World.seen, htask]
    have hread := h.seen
    rw [hmembership] at hread
    rcases publish_cases world membership authority with ⟨-, heq⟩ | ⟨-, heq⟩
    · rw [heq]
      exact
        { enforced := h.enforced.trans (max_le (le_max_left _ _) h.seen)
          seen := le_max_right _ _
          announced := h.announced
          pending := h.pending
          seenLog := h.announcedLog
          announcedLog := h.announcedLog
          follower := h.follower
          voter := h.voter }
    · rw [heq]
      exact
        { enforced := hread
          seen := le_max_right _ _
          announced := h.announced
          pending := h.pending
          seenLog := h.announcedLog
          announcedLog := h.announcedLog
          follower := h.follower
          voter := h.voter }
  · exact h

/-- **Every step keeps the order.** -/
theorem InOrder.step (h : InOrder sig log protocolMax world) (step : Step) :
    InOrder sig log protocolMax (world.step sig log protocolMax step) := by
  cases step with
  | follow upTo => exact h.follow upTo
  | promote me => exact h.promote me
  | apply count => exact h.apply count
  | write => exact h.write
  | read => exact h.reads (Or.inl rfl)
  | ask => exact h.reads (Or.inr rfl)
  | publish => exact h.publish

/-! ## What is published -/

/-- A step publishes nothing, or a membership the task has read. -/
theorem publishes (sig : Signing) (log : CommittedLog) (protocolMax : UInt32) (world : World)
    (step : Step) :
    ((world.step sig log protocolMax step).enforced = world.enforced ∧
      (world.step sig log protocolMax step).allowlist = world.allowlist) ∨
    ∃ membership authority, step = .publish ∧ world.task = .asked membership authority ∧
      world.replaying membership authority = false ∧
      (world.step sig log protocolMax step).enforced = membership ∧
      (world.step sig log protocolMax step).allowlist =
        if membership.group.isSome then membership.allowlist else world.allowlist := by
  cases step with
  | publish =>
    rcases htask : world.task with _ | membership | ⟨membership, authority⟩
    · exact Or.inl (by simp [World.step, htask])
    · exact Or.inl (by simp [World.step, htask])
    · rcases publish_cases world membership authority with ⟨hreplaying, heq⟩ | ⟨hreplaying, heq⟩
      · exact Or.inl (by simp [World.step, htask, heq])
      · exact Or.inr ⟨membership, authority, rfl, rfl, hreplaying, by simp [World.step, htask, heq],
          by simp [World.step, htask, heq]⟩
  | follow upTo => left; rw [World.step]; split <;> exact ⟨rfl, rfl⟩
  | promote me => left; rw [World.step]; split <;> exact ⟨rfl, rfl⟩
  | apply count => left; rw [World.step]; split <;> exact ⟨rfl, rfl⟩
  | write => left; rw [World.step]; split <;> exact ⟨rfl, rfl⟩
  | read => left; rw [World.step]; split <;> exact ⟨rfl, rfl⟩
  | ask => left; rw [World.step]; split <;> exact ⟨rfl, rfl⟩

/-- A decision that meets the condition publishes nothing older than the boundary. -/
theorem boundary_le_of_decides {membership : MembershipState} {authority : Option Promotion}
    (hdecides : world.Decides .publish) (htask : world.task = .asked membership authority)
    (hcurrent : world.replaying membership authority = false) :
    world.boundary ≤ membership.changedAt := by
  rw [boundary]
  rcases hset : world.store.authority with _ | promotion
  · exact Nat.zero_le _
  · by_contra hold
    rw [Option.elim_some, not_le] at hold
    obtain ⟨rfl, hraft⟩ := (decides_publish htask).mp hdecides promotion hset hold
    have hreplaying : world.replaying membership (some promotion) = true := by
      rw [replaying, Inner.promotion, Option.filter_some, if_pos hraft]
      simpa using hold
    rw [hcurrent] at hreplaying
    cases hreplaying

/-- What is enforced gets no older. -/
theorem InOrder.enforced_le (h : InOrder sig log protocolMax world) {step : Step}
    (hdecides : world.Decides step) :
    world.enforced.changedAt ≤ (world.step sig log protocolMax step).enforced.changedAt := by
  rcases publishes sig log protocolMax world step with
    ⟨hsame, -⟩ | ⟨membership, authority, rfl, htask, hcurrent, hpublished, -⟩
  · rw [hsame]
  · rw [hpublished]
    have hle := boundary_le_of_decides hdecides htask hcurrent
    have henforced := h.enforced
    rw [show world.seen = membership by simp [World.seen, htask], max_eq_right hle] at henforced
    exact henforced

/-- Once the membership that is enforced has a group, the allowlist is its members. -/
def Enforces (world : World) : Prop :=
  world.enforced.group.isSome = true → world.allowlist = world.enforced.allowlist

theorem Enforces.step (h : Enforces world) (step : Step) :
    Enforces (world.step sig log protocolMax step) := by
  intro hgroup
  rcases publishes sig log protocolMax world step with
    ⟨hsame, hallows⟩ | ⟨membership, authority, -, -, -, hpublished, hallows⟩
  · rw [hsame] at hgroup ⊢
    rw [hallows]
    exact h hgroup
  · rw [hpublished] at hgroup ⊢
    rw [hallows, if_pos hgroup]

/-- A voter stays one, under the promotion it was made one by. -/
theorem step_voting (sig : Signing) (log : CommittedLog) (protocolMax : UInt32)
    (hvoting : world.voting = true) (step : Step) :
    (world.step sig log protocolMax step).voting = true ∧
      (world.step sig log protocolMax step).boundary = world.boundary := by
  cases step with
  | follow upTo => simp [World.step, hvoting]
  | promote me => simp [World.step, hvoting]
  | apply count =>
    rw [World.step]
    split <;> exact ⟨hvoting, rfl⟩
  | write =>
    rw [World.step]
    split <;> exact ⟨hvoting, rfl⟩
  | read =>
    rw [World.step]
    split <;> exact ⟨hvoting, rfl⟩
  | ask =>
    rw [World.step]
    split <;> exact ⟨hvoting, rfl⟩
  | publish =>
    rw [World.step]
    split
    · rename_i membership authority _
      rcases publish_cases world membership authority with ⟨-, heq⟩ | ⟨-, heq⟩ <;> rw [heq] <;>
        exact ⟨hvoting, rfl⟩
    · exact ⟨hvoting, rfl⟩

/-- Since its promotion a node admits those it admitted then, and those a log state as
new as the boundary admits. -/
structure AdmitsSince (sig : Signing) (log : CommittedLog) (old world : World) : Prop where
  voting : world.voting = true
  boundary : world.boundary = old.store.applied.state.changedAt
  admits : ∀ member ∈ world.allowlist, member ∈ old.allowlist ∨
    ∃ count, old.store.applied.state.changedAt ≤ (projection sig log count).changedAt ∧
      (projection sig log count).isMember member = true

theorem AdmitsSince.step {old : World} (h : AdmitsSince sig log old world)
    (horder : InOrder sig log protocolMax world) {step : Step} (hdecides : world.Decides step) :
    AdmitsSince sig log old (world.step sig log protocolMax step) := by
  obtain ⟨hvoting, hboundary⟩ := step_voting sig log protocolMax h.voting step
  refine ⟨hvoting, hboundary.trans h.boundary, fun member hmem => ?_⟩
  rcases publishes sig log protocolMax world step with
    ⟨-, hallows⟩ | ⟨membership, authority, rfl, htask, hcurrent, -, hallows⟩
  · exact h.admits member (hallows ▸ hmem)
  · rw [hallows] at hmem
    split at hmem
    · right
      obtain ⟨count, hcount⟩ := horder.seenLog
      rw [show world.seen = membership by simp [World.seen, htask]] at hcount
      subst hcount
      refine ⟨count, ?_, mem_allowlist.mp hmem⟩
      rw [← h.boundary]
      exact boundary_le_of_decides hdecides htask hcurrent
    · exact h.admits member hmem

theorem admitsSince_promote (hvoting : world.voting = false) (hpending : world.pending = [])
    (me : MemberId) : AdmitsSince sig log world (world.step sig log protocolMax (.promote me)) := by
  rw [World.step, hvoting, hpending]
  exact ⟨rfl, rfl, fun member hmem => Or.inl hmem⟩

end World

/-! ## Decisions that no announcement disturbs -/

section Undisturbed

variable {sig : Signing} {log : CommittedLog} {protocolMax : UInt32} {world : World}

/-- Where the log changed last, it has just changed. -/
theorem changedAt_projection_changedAt (sig : Signing) (log : CommittedLog) (count : ℕ) :
    (projection sig log ((projection sig log count).changedAt + 1)).changedAt =
      (projection sig log count).changedAt := by
  rcases count with _ | n
  · rw [projection_zero, projection, Applied.reached_state,
      show (MembershipState.new).changedAt = 0 from rfl, CommittedLog.through_zero_events]
    rfl
  · have hread : Ascending (through n log.events) := CommittedLog.ascending_events.filter _
    rw [projection, projection, Applied.reached_state, Applied.reached_state]
    have hle : (fold sig (through n log.events)).changedAt ≤ n := by
      rcases changedAt_mem sig _ hread with hzero | ⟨last, hlast⟩
      · omega
      · exact (mem_through.mp hlast).2
    rw [← through_through hle, fold_through_changedAt sig _ hread]

/-- Raft's configuration comes from an entry that has been applied. -/
theorem reached_membership (sig : Signing) (log : CommittedLog) (count : ℕ) :
    ∀ logId ∈ (Applied.reached sig log count).membership.logId, logId.index < count := by
  induction count with
  | zero => intro logId hid; cases hid
  | succ n ih =>
    intro logId hid
    rcases hget : log.entries[n]? with _ | entry
    · rw [Applied.reached, List.take_add_one, hget, Option.toList_none, List.append_nil] at hid
      exact (ih logId hid).trans (Nat.lt_succ_self n)
    · have hindex := CommittedLog.index_of_get hget
      rw [Applied.reached, List.take_add_one, hget, Option.toList_some,
        Applied.applyEntries_append] at hid
      change logId ∈ (((Applied.reached sig log n).applyEntry sig entry).2).membership.logId at hid
      rw [Applied.applyEntry] at hid
      rcases hpayload : entry.payload with _ | event | membership <;> rw [hpayload] at hid
      · exact (ih logId hid).trans (Nat.lt_succ_self n)
      · exact (ih logId hid).trans (Nat.lt_succ_self n)
      · obtain rfl : entry.logId = logId := Option.some.inj hid
        omega

/-- Once Raft's configuration is past a change, so is the projection. -/
theorem changedAt_le_of_configured (sig : Signing) (log : CommittedLog) {boundary count : ℕ}
    (hboundary : ∃ changed, boundary = (projection sig log changed).changedAt)
    (hconfigured : ∃ logId ∈ (Applied.reached sig log count).membership.logId,
      boundary ≤ logId.index) : boundary ≤ (projection sig log count).changedAt := by
  obtain ⟨changed, rfl⟩ := hboundary
  obtain ⟨logId, hid, hpast⟩ := hconfigured
  have hcount := reached_membership sig log count logId hid
  calc (projection sig log changed).changedAt
      = (projection sig log ((projection sig log changed).changedAt + 1)).changedAt :=
        (changedAt_projection_changedAt sig log changed).symm
    _ ≤ (projection sig log count).changedAt := changedAt_projection_mono (by omega)

namespace World

/-- What is announced is the projection, but for what is still to be announced. -/
structure Announces (sig : Signing) (log : CommittedLog) (world : World) : Prop where
  raft : ∀ membership, .raft membership ∈ world.pending →
    membership = world.store.applied.membership
  raftDone : world.voting = true → (∀ membership, .raft membership ∉ world.pending) →
    world.store.raftMembership = world.store.applied.membership
  membershipDone : (∀ state, .membership state ∉ world.pending) →
    world.store.membership = world.store.applied.state
  boundary : ∃ changed, world.boundary = (projection sig log changed).changedAt

theorem announces_start (bootstrap : Finset MemberId) : Announces sig log (start bootstrap) where
  raft := by simp [start]
  raftDone h := by cases h
  membershipDone _ := rfl
  boundary := ⟨0, rfl⟩

/-- What the task does changes nothing that is announced. -/
theorem Announces.task (h : Announces sig log world) {later : World}
    (hstore : later.store = world.store) (hvoting : later.voting = world.voting)
    (hpending : later.pending = world.pending) : Announces sig log later where
  raft := by
    rw [hpending, hstore]
    exact h.raft
  raftDone := by
    rw [hpending, hstore, hvoting]
    exact h.raftDone
  membershipDone := by
    rw [hpending, hstore]
    exact h.membershipDone
  boundary := by
    rw [World.boundary, hstore]
    exact h.boundary

/-- One announcement: it is of the projection, and the other kind waits as before. -/
theorem Announces.write (h : Announces sig log world) (horder : InOrder sig log protocolMax world) :
    Announces sig log (world.step sig log protocolMax .write) := by
  rw [World.step]
  split
  · exact h
  · rename_i membership pending hpending
    refine ⟨fun other hmem => h.raft other (hpending ▸ List.mem_cons_of_mem _ hmem),
      fun _ _ => h.raft membership (hpending ▸ List.mem_cons_self), fun hnone => ?_, h.boundary⟩
    refine h.membershipDone fun state hmem => ?_
    rw [hpending] at hmem
    exact hnone state ((List.mem_cons.mp hmem).resolve_left (by simp))
  · rename_i state pending hpending
    refine ⟨fun other hmem => h.raft other (hpending ▸ List.mem_cons_of_mem _ hmem),
      fun hvoting hnone => ?_, fun _ => horder.pending state (hpending ▸ List.mem_cons_self),
      h.boundary⟩
    refine h.raftDone hvoting fun membership hmem => ?_
    rw [hpending] at hmem
    exact hnone membership ((List.mem_cons.mp hmem).resolve_left (by simp))

theorem Announces.step (h : Announces sig log world) (horder : InOrder sig log protocolMax world)
    (step : Step) : Announces sig log (world.step sig log protocolMax step) := by
  cases step with
  | follow upTo =>
    rw [World.step]
    split
    · exact h
    · rename_i hlegal
      have hfollows : world.voting = false := by
        by_contra hnot
        simp [hnot] at hlegal
      exact ⟨by simp, fun hvoting => absurd (hfollows.symm.trans hvoting) (by simp), by simp,
        h.boundary⟩
  | promote me =>
    rw [World.step]
    split
    · exact h
    · refine ⟨fun membership hmem => ?_, by simp, by simp, ?_⟩
      · have heq : membership = Applied.empty.membership := by simpa using hmem
        exact heq
      · obtain ⟨count, hcount⟩ := horder.appliedLog
        exact ⟨count, congrArg MembershipState.changedAt hcount⟩
  | apply count =>
    rw [World.step]
    split
    · exact h
    · refine ⟨fun membership hmem => ?_, by simp, by simp, h.boundary⟩
      simpa using hmem
  | write => exact h.write horder
  | read =>
    rw [World.step]
    split
    · exact h.task rfl rfl rfl
    · exact h
  | ask =>
    rw [World.step]
    split
    · exact h.task rfl rfl rfl
    · exact h
  | publish =>
    rw [World.step]
    split
    · rename_i membership authority _
      rcases publish_cases world membership authority with ⟨-, heq⟩ | ⟨-, heq⟩
      · rw [heq]
        exact h.task rfl rfl rfl
      · rw [heq]
        exact h.task rfl rfl rfl
    · exact h

/-- **It takes a race**: in every run, a decision whose reads all saw what is announced
now, with nothing still to be announced, meets the condition. -/
theorem decides_of_undisturbed (sig : Signing) (log : CommittedLog) (protocolMax : UInt32)
    (bootstrap : Finset MemberId) (steps : List Step) :
    let world := exec (World.step sig log protocolMax) (.start bootstrap) steps
    world.pending = [] → world.task = .asked world.store.membership world.store.authority →
      world.Decides .publish := by
  intro world hpending htask
  have hinv : InOrder sig log protocolMax world ∧ Announces sig log world :=
    exec_invariant (I := fun world => InOrder sig log protocolMax world ∧ Announces sig log world)
      (fun _ step h => ⟨h.1.step step, h.2.step h.1 step⟩) steps
      ⟨inOrder_start bootstrap, announces_start bootstrap⟩
  obtain ⟨horder, hannounces⟩ := hinv
  have hmembership := hannounces.membershipDone (by simp [hpending])
  rw [decides_publish htask]
  intro promotion hset hold
  refine ⟨hset, ?_⟩
  -- only a voter is under a promotion, and its configuration is what it has replayed
  have hvoting : world.voting = true := by
    by_contra hnot
    have hnone := (horder.follower (by simpa using hnot)).1
    rw [Option.mem_def, hnone] at hset
    cases hset
  have hraft := hannounces.raftDone hvoting (by simp [hpending])
  have hvoter := horder.voter hvoting
  have hboundary : world.boundary = promotion.boundary := by
    rw [boundary, Option.mem_def.mp hset]
    rfl
  rw [Option.all_eq_true]
  intro logId hid
  by_contra hpast
  rw [hraft, hvoter] at hid
  have hreached := changedAt_le_of_configured sig log hannounces.boundary
    ⟨logId, hid, by simpa [hboundary] using hpast⟩
  rw [hmembership, hvoter] at hold
  rw [hboundary] at hreached
  exact absurd hold (not_lt.mpr hreached)

end World

end Undisturbed

/-! ## Every run -/

open World

/-- **What a node enforces never goes back**, as long as no decision on an old
projection falls behind the promotion it has read, or behind the configuration that
closes the window. Over any interleaving of the task's reads with the announcements of
the state machine, as the node follows the log, is promoted and replays it in any
batches: the membership enforced later is no older, and after the promotion nobody is
admitted who was no member in what was enforced before it, unless a state of the log as
new as the promotion's boundary admits them. -/
theorem enforced_never_goes_back (sig : Signing) (log : CommittedLog) (protocolMax : UInt32)
    (bootstrap : Finset MemberId) (steps : List Step)
    (h : Along (World.step sig log protocolMax) World.Decides (.start bootstrap) steps) :
    let run := exec (World.step sig log protocolMax) (.start bootstrap)
    (∀ before after, steps = before ++ after →
      (run before).enforced.changedAt ≤ (run steps).enforced.changedAt) ∧
    ∀ before me after, steps = before ++ .promote me :: after →
      (run before).voting = false → (run before).pending = [] →
      (run before).enforced.group.isSome = true →
      ∀ member, (run before).enforced.isMember member = false → member ∈ (run steps).allowlist →
        ∃ count, (run before).store.applied.state.changedAt ≤ (projection sig log count).changedAt ∧
          (projection sig log count).isMember member = true := by
  intro run
  have hinv : ∀ before, InOrder sig log protocolMax (run before) ∧ Enforces (run before) := by
    intro before
    refine exec_invariant (I := fun world => InOrder sig log protocolMax world ∧ Enforces world)
      (fun _ step hworld => ⟨hworld.1.step step, hworld.2.step step⟩) before
      ⟨inOrder_start bootstrap, fun hgroup => by cases hgroup⟩
  constructor
  · rintro before after rfl
    obtain ⟨-, hafter⟩ := along_append.mp h
    have hsplit : run (before ++ after) = exec (World.step sig log protocolMax) (run before) after :=
      exec_append _ _ _
    rw [hsplit]
    exact Along.related (I := InOrder sig log protocolMax)
      (R := fun world next => world.enforced.changedAt ≤ next.enforced.changedAt)
      (fun _ step hworld hdecides => ⟨hworld.step step, hworld.enforced_le hdecides⟩)
      (fun _ => le_rfl) (fun _ _ _ => le_trans) (hinv before).1 hafter
  · rintro before me after rfl hvoting hpending hgroup member hnot hadmitted
    obtain ⟨-, -, hafter⟩ := along_append.mp h
    obtain ⟨horder, henforces⟩ := hinv before
    have hsplit : run (before ++ Step.promote me :: after) =
        exec (World.step sig log protocolMax)
          ((run before).step sig log protocolMax (.promote me)) after :=
      exec_append _ _ _
    rw [hsplit] at hadmitted
    have hsince := Along.invariant
      (I := fun world => InOrder sig log protocolMax world ∧ AdmitsSince sig log (run before) world)
      (fun _ step hworld hdecides => ⟨hworld.1.step step, hworld.2.step hworld.1 hdecides⟩)
      ⟨horder.step (.promote me), admitsSince_promote hvoting hpending me⟩ hafter
    rcases hsince.2.admits member hadmitted with hbefore | hlater
    · rw [henforces hgroup, mem_allowlist, hnot] at hbefore
      cases hbefore
    · exact hlater

/-! ## A race

Alice founds the group, admits bob and expels him; a configuration of Raft follows.
Carol's node has read all of it and enforces it, and is promoted. -/

def expelledLog : CommittedLog where
  entries :=
    [⟨⟨1, alice, 0⟩, .membership ⟨[{alice}], ∅⟩⟩,
     ⟨⟨1, alice, 1⟩, .normal (.signedBy alice 0
        (.groupFounded ⟨9⟩ [(⟨alice, "alice"⟩, default)] default))⟩,
     ⟨⟨1, alice, 2⟩, .normal (.signedBy alice 1 (.memberAdded ⟨bob, "bob"⟩))⟩,
     ⟨⟨1, alice, 3⟩, .normal (.signedBy alice 2 (.memberExpelled bob "left"))⟩,
     ⟨⟨1, alice, 4⟩, .membership ⟨[{alice}], ∅⟩⟩]
  placed := by decide
  configured := by decide
  bounded := by decide

/-- The node reads the log, enforces what it says, and is promoted. -/
def untilPromoted : List Step := [.follow 4, .write, .read, .ask, .publish]

/-- It replays bob's admission in one batch and his expulsion in another. The task
reads the membership after the first, and decides once the second has announced its
configuration. -/
def replayInTwo : List Step :=
  [.promote carol, .write, .write, .apply 3, .write, .write, .read, .apply 2, .write, .ask, .publish]

/-- The same replay, each decision before or after both announcements of a batch. -/
def replayUndisturbed : List Step :=
  [.promote carol, .write, .write, .apply 3, .write, .write, .read, .ask, .publish, .apply 2, .write,
    .write, .read, .ask, .publish]

def raced (steps : List Step) : World :=
  exec (World.step .accepting expelledLog 1) (.start ∅) steps

/-- **The replay readmits bob.** Carol's node has expelled him, and so does every state
of the log as new as its promotion; after the race it enforces an older membership, and
admits him. -/
theorem replay_readmits_bob :
    (raced untilPromoted).enforced.changedAt = 3 ∧
      (raced (untilPromoted ++ replayInTwo)).enforced.changedAt = 2 ∧
      (raced untilPromoted).enforced.isMember bob = false ∧
      bob ∈ (raced (untilPromoted ++ replayInTwo)).allowlist ∧
      ∀ count, (raced untilPromoted).store.applied.state.changedAt ≤
        (projection .accepting expelledLog count).changedAt →
        (projection .accepting expelledLog count).isMember bob = false := by
  refine ⟨by decide +kernel, by decide +kernel, by decide +kernel, by decide +kernel, ?_⟩
  intro count
  -- past the end of the log nothing changes
  have hend : projection .accepting expelledLog count =
      projection .accepting expelledLog (min count 5) := by
    rw [projection, projection, Applied.reached, Applied.reached]
    exact congrArg _ (congrArg _ (congrArg _ List.take_eq_take_min))
  have hsix : ∀ c ∈ List.range 6, (raced untilPromoted).store.applied.state.changedAt ≤
      (projection .accepting expelledLog c).changedAt →
      (projection .accepting expelledLog c).isMember bob = false := by decide +kernel
  rw [hend]
  exact hsix _ (List.mem_range.mpr (by omega))

/-- Undisturbed, the replay ends with bob expelled and what is enforced as new as
before. -/
theorem enforced_never_goes_back_replayed :
    (raced untilPromoted).enforced.changedAt ≤
        (raced (untilPromoted ++ replayUndisturbed)).enforced.changedAt ∧
      (raced (untilPromoted ++ replayUndisturbed)).enforced.changedAt = 3 :=
  ⟨(enforced_never_goes_back .accepting expelledLog 1 ∅ (untilPromoted ++ replayUndisturbed)
      (by decide +kernel)).1 untilPromoted replayUndisturbed rfl, by decide +kernel⟩

end Enforced

end Distlib
