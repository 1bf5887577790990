import Distlib.Consensus.StateMachine

/-!
# The store of a node that changes its role

A node follows the log, is made a voter, is retired and follows again. Its store
is one through all of it, and holds more than the projection: the snapshot Raft
asks for, the authority a promotion replays under, and a generation that moves
whenever the projection is reset.

Every call that changes the store has the same shape: the copy in memory first,
then a transaction, then the announcements. The parts are kept apart here, since
what other tasks see between them is what several results are about; the calls
put them together, with the `Fate` of the database.

An install replaces the projection by the one in a snapshot. A snapshot is only
ever made by a builder, from the state it describes, and a `StoredSnapshot`
carries that: the log id in its metadata is the one its state has applied.
-/

namespace Distlib

open IndexedLog

/-! ## The order of log ids -/

namespace LogId

/-- Where an id stands among ids: by the term, the leader, and the index. -/
def place (logId : LogId) : ℕ ×ₗ ℕ ×ₗ ℕ :=
  toLex (logId.term, toLex (logId.node.key.toNat, logId.index))

theorem place_injective : Function.Injective place := by
  rintro ⟨term, ⟨key⟩, index⟩ ⟨term', ⟨key'⟩, index'⟩ h
  simp only [place, EmbeddingLike.apply_eq_iff_eq, Prod.mk.injEq] at h
  obtain ⟨rfl, hkey, rfl⟩ := h
  rw [BitVec.eq_of_toNat_eq hkey]

instance : LinearOrder LogId := LinearOrder.lift' place place_injective

end LogId

/-- An optional log id in the order the program compares them in: nothing is
before everything. -/
def asOf : Option LogId → WithBot LogId
  | none => ⊥
  | some logId => logId

/-- How far a node has got through the log, whichever way it gets it. -/
def Applied.position (applied : Applied) : ℕ := max applied.lastAppliedIndex applied.followedUpto

/-! ## Snapshots and promotions -/

structure SnapshotMeta where
  lastLogId : Option LogId
  lastMembership : StoredMembership
  /-- what the text of the id is made of: the log id, and a count -/
  snapshotId : Option LogId × ℕ

/-- A snapshot as stored: its metadata, and the state openraft streams. -/
structure StoredSnapshot where
  metadata : SnapshotMeta
  data : Applied
  described : metadata.lastLogId = data.lastApplied

/-- The snapshot of a state, the `seq`-th of its node. -/
def StoredSnapshot.of (applied : Applied) (seq : ℕ) : StoredSnapshot where
  metadata :=
    { lastLogId := applied.lastApplied
      lastMembership := applied.membership
      snapshotId := (applied.lastApplied, seq) }
  data := applied
  described := rfl

/-- What a node made a voter replays the log under: the membership it was made
one by, and the voters it may hear the log from. -/
structure Promotion where
  /-- the index of the last change it knew of -/
  boundary : ℕ
  voters : Finset MemberId
  deriving DecidableEq

/-! ## The store -/

/-- Everything a state machine handle shares with its clones. -/
structure Inner extends StateMachineStore where
  /-- on disk, under `snapshot` -/
  snapshot : Option StoredSnapshot
  /-- on disk, under `promotion` -/
  durablePromotion : Option Promotion
  /-- in memory -/
  authority : Option Promotion
  /-- moves at every reset of the projection -/
  generation : ℕ
  snapshotSeq : ℕ

namespace Inner

/-- A store over a database nothing was ever written to. -/
def fresh : Inner where
  toStateMachineStore := .fresh
  snapshot := none
  durablePromotion := none
  authority := none
  generation := 0
  snapshotSeq := 0

/-- Opens the store again in the database it left. -/
def fromDatabase (inner : Inner) : Inner :=
  { inner with
    toStateMachineStore := inner.toStateMachineStore.fromDatabase
    authority := inner.durablePromotion
    generation := 0
    snapshotSeq := 0 }

/-- How far this node has got through the log. -/
def position (inner : Inner) : ℕ := inner.applied.position

def announce (inner : Inner) (state : MembershipState) : Inner := { inner with membership := state }

def announceRaft (inner : Inner) (membership : StoredMembership) : Inner :=
  { inner with raftMembership := membership }

/-- Raft's `apply`. -/
def apply (sig : Signing) (inner : Inner) (entries : List Entry) (fate : Fate) :
    Except StorageError (List (Except ConsensusError Unit)) × Inner :=
  let (verdicts, store) := inner.toStateMachineStore.apply sig entries fate
  (verdicts, { inner with toStateMachineStore := store })

/-- A follower's `applyFollowed`. -/
def applyFollowed (sig : Signing) (protocolMax : UInt32) (inner : Inner) (upTo : ℕ)
    (events : Log SignedEvent) (fate : Fate) :
    Except StorageError (List (Except ConsensusError Unit)) × Inner :=
  let (verdicts, store) := inner.toStateMachineStore.applyFollowed sig protocolMax upTo events fate
  (verdicts, { inner with toStateMachineStore := store })

/-! ### Resetting the projection -/

/-- The first half of a reset: the copy in memory, and the generation with it. -/
def resetMemory (inner : Inner) : Inner :=
  { inner with applied := .empty, generation := inner.generation + 1 }

/-- The transaction of a reset. -/
def resetTransaction (promotion : Option Promotion) (inner : Inner) : Inner :=
  { inner with durable := some .empty, snapshot := none, durablePromotion := promotion }

/-- The projection and its snapshot are reset together; Raft's history stays. -/
def resetProjection (inner : Inner) (promotion : Option Promotion) (fate : Fate) :
    Except StorageError Unit × Inner :=
  let inner := inner.resetMemory
  match fate with
  | .stored =>
    let inner := { inner.resetTransaction promotion with authority := promotion }
    (.ok (), (inner.announceRaft Applied.empty.membership).announce .new)
  | _ => (.error .writing, inner)

/-- Resets the derived projection before a follower resumes Raft replay. -/
def resetForPromotion (inner : Inner) (fate : Fate) : Except StorageError Unit × Inner :=
  inner.resetProjection none fate

/-- What `me` would be promoted under. -/
def promotionOf (inner : Inner) (me : MemberId) : Promotion :=
  let membership := inner.applied.state
  let predecessors := (inner.predecessors.getD ∅)[me]?.getD ∅
  { boundary := membership.changedAt
    voters := (OrdMap.keySet membership.core ∪ predecessors).filter fun member =>
      membership.isMember member }

/-- Resets the projection, keeping what the replay is to be trusted by. -/
def preparePromotion (inner : Inner) (me : MemberId) (fate : Fate) :
    Except StorageError Promotion × Inner :=
  match fate with
  | .unread => (.error .reading, inner)
  | fate =>
    let promotion := inner.promotionOf me
    let (done, inner) := inner.resetProjection (some promotion) fate
    (done.map fun _ => promotion, inner)

/-- The promotion under way, if one is: until Raft's own configuration reaches
its boundary. -/
def promotion (inner : Inner) : Option Promotion :=
  inner.authority.filter fun promotion =>
    inner.raftMembership.logId.all fun logId => logId.index < promotion.boundary

/-- Points the follow cursor at what this node has already applied. -/
def resumeFollowing (inner : Inner) (fate : Fate) : Except StorageError Unit × Inner :=
  let applied := { inner.applied with followedUpto := inner.applied.lastAppliedIndex }
  match fate with
  | .stored => (.ok (), { inner with applied, durable := some applied })
  | _ => (.error .writing, { inner with applied })

/-! ### Snapshots -/

/-- The first half of an install. -/
def installMemory (inner : Inner) (snapshot : StoredSnapshot) : Inner :=
  { inner with applied := snapshot.data }

/-- The transaction of an install. -/
def installTransaction (inner : Inner) (snapshot : StoredSnapshot) : Inner :=
  { inner with durable := some snapshot.data, snapshot := some snapshot }

/-- Replaces the projection by that of a snapshot; `unread` is a snapshot whose
bytes do not decode. -/
def installSnapshot (inner : Inner) (snapshot : StoredSnapshot) (fate : Fate) :
    Except StorageError Unit × Inner :=
  match fate with
  | .unread => (.error .reading, inner)
  | .unwritten => (.error .writing, inner.installMemory snapshot)
  | .stored =>
    let inner := (inner.installMemory snapshot).installTransaction snapshot
    (.ok (), (inner.announceRaft snapshot.data.membership).announce snapshot.data.state)

end Inner

/-- Builds a snapshot from a copy of the state taken when it was created. -/
structure SnapshotBuilder where
  captured : Applied
  /-- the generation the copy was taken in -/
  generation : ℕ
  seq : ℕ

namespace Inner

/-- A builder, with its copy. -/
def getSnapshotBuilder (inner : Inner) : SnapshotBuilder × Inner :=
  (⟨inner.applied, inner.generation, inner.snapshotSeq⟩,
    { inner with snapshotSeq := inner.snapshotSeq + 1 })

/-- Whether a builder's transaction stores nothing: a newer snapshot exists, or
the projection has been reset since the copy was taken. -/
def heldBack (inner : Inner) (builder : SnapshotBuilder) : Bool :=
  let newerExists := inner.snapshot.any fun stored =>
    asOf builder.captured.lastApplied < asOf stored.metadata.lastLogId
  let resetSince := inner.generation ≠ builder.generation
  newerExists || resetSince

/-- The transaction of a builder. -/
def buildTransaction (inner : Inner) (builder : SnapshotBuilder) : Inner :=
  if inner.heldBack builder then inner
  else { inner with snapshot := some (.of builder.captured builder.seq) }

/-- What a builder stores is of the current generation, and not behind what is
stored. -/
theorem heldBack_eq_false {inner : Inner} {builder : SnapshotBuilder} :
    inner.heldBack builder = false ↔
      inner.generation = builder.generation ∧
        ∀ stored ∈ inner.snapshot,
          asOf stored.metadata.lastLogId ≤ asOf builder.captured.lastApplied := by
  rw [heldBack]
  rcases inner.snapshot with _ | stored <;> simp [and_comm]

end Inner

end Distlib
