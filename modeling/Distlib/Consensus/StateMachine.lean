import Distlib.Consensus.LogStore

/-!
# The state machine: the projection, kept and announced

Two paths put committed events into a node's projection. A voter is handed
entries by Raft, event or not, and `apply`s them; a follower fetches events and
a cursor, and `applyFollowed`s them. Both run the same fold. What differs is
what they do around it: a voter notes the id of every entry, and a follower
stops in the middle of a page when the group raises its protocol beyond what
its build speaks, leaving its cursor where a newer build resumes.

A store holds a copy in memory, what its last transactions left on disk, and
what it has announced to its watchers. The memory is changed first and the
transaction follows, so a transaction that fails leaves the three apart; `Fate`
says what the database does during a call, and a restart forgets the memory.

The fold of the two paths is compared through one function of the log,
`reached`: what a voter has applied after so many entries.
-/

namespace Distlib

open IndexedLog MembershipState

/-! ## What a node has applied -/

/-- Raft's configuration as the state machine keeps it, with the entry it came
from. -/
structure StoredMembership where
  logId : Option LogId
  membership : RaftMembership
  deriving DecidableEq

/-- Everything one node has applied, stored as a unit. -/
structure Applied where
  lastApplied : Option LogId
  membership : StoredMembership
  state : MembershipState
  /-- how far a follower has read the log it fetches -/
  followedUpto : ℕ
  deriving DecidableEq

namespace Applied

/-- What a node without a database starts from. -/
def empty : Applied where
  lastApplied := none
  membership := ⟨none, ⟨[], ∅⟩⟩
  state := .new
  followedUpto := 0

/-- One committed entry, and the verdict on it. -/
def applyEntry (sig : Signing) (applied : Applied) (entry : Entry) :
    Except ConsensusError Unit × Applied :=
  let applied := { applied with lastApplied := some entry.logId }
  match entry.payload with
  | .blank => (.ok (), applied)
  | .normal event =>
    let (verdict, state) := applied.state.apply sig entry.logId.index event
    (verdict, { applied with state })
  | .membership membership =>
    (.ok (), { applied with membership := ⟨some entry.logId, membership⟩ })

/-- A batch of committed entries, with a verdict for each. -/
def applyEntries (sig : Signing) : Applied → List Entry → List (Except ConsensusError Unit) × Applied
  | applied, [] => ([], applied)
  | applied, entry :: entries =>
    let (verdict, applied) := applied.applyEntry sig entry
    let (verdicts, applied) := applied.applyEntries sig entries
    (verdict :: verdicts, applied)

/-- The index of the last entry applied, or zero. -/
def lastAppliedIndex (applied : Applied) : ℕ := applied.lastApplied.elim 0 LogId.index

/-- What a voter has applied after the first `count` entries of the log. -/
def reached (sig : Signing) (log : CommittedLog) (count : ℕ) : Applied :=
  (empty.applyEntries sig (log.entries.take count)).2

end Applied

/-! ## Following -/

/-- For each voter, the core immediately before it was admitted. -/
abbrev PromotionPredecessors : Type := OrdMap MemberId (Finset MemberId)

/-- The local state of `applyFollowed`'s loop. -/
structure Followed where
  state : MembershipState
  predecessors : PromotionPredecessors
  verdicts : List (Except ConsensusError Unit)
  /-- the index of the last event folded, or the old cursor -/
  lastApplied : ℕ

/-- One fetched event folded in. -/
def Followed.next (sig : Signing) (followed : Followed) (index : ℕ) (event : SignedEvent) :
    Followed :=
  let before := OrdMap.keySet followed.state.core
  let (verdict, state) := followed.state.apply sig index event
  let kept := followed.predecessors.filter fun member _ => state.isCore member
  { state
    predecessors := state.core.keys.foldl
      (fun predecessors member =>
        if member ∈ before then predecessors else predecessors.insert member before) kept
    verdicts := followed.verdicts ++ [verdict]
    lastApplied := index }

/-- The loop over a fetched page, and the cursor it ends with: `upTo`, or where
it stopped because the group speaks a protocol beyond `protocolMax`. -/
def followEvents (sig : Signing) (protocolMax : UInt32) (upTo : ℕ) :
    Log SignedEvent → Followed → ℕ × Followed
  | [], followed => (upTo, followed)
  | (index, event) :: events, followed =>
    if followed.state.protocol > protocolMax then (followed.lastApplied, followed)
    else followEvents sig protocolMax upTo events (followed.next sig index event)

/-! ## The store -/

/-- What the database does during a call. -/
inductive Fate : Type where
  /-- the read before the fold fails -/
  | unread
  /-- the transaction after the fold fails -/
  | unwritten
  | stored
  deriving DecidableEq

/-- Why a call did not go through. -/
inductive StorageError : Type where
  | reading
  | writing
  deriving DecidableEq

/-- The state machine's three copies. -/
structure StateMachineStore where
  /-- in memory -/
  applied : Applied
  /-- on disk, under `applied` -/
  durable : Option Applied
  /-- on disk, under `promotion_predecessors` -/
  predecessors : Option PromotionPredecessors
  /-- announced to whoever watches the membership -/
  membership : MembershipState
  /-- announced to whoever watches Raft's configuration -/
  raftMembership : StoredMembership

namespace StateMachineStore

/-- A store over a database nothing was ever written to. -/
def fresh : StateMachineStore where
  applied := .empty
  durable := none
  predecessors := none
  membership := .new
  raftMembership := Applied.empty.membership

/-- Opens the state machine again in the database it left. -/
def fromDatabase (store : StateMachineStore) : StateMachineStore :=
  match store.durable with
  | none => { fresh with predecessors := store.predecessors }
  | some applied =>
    { store with
      applied := applied
      membership := applied.state
      raftMembership := applied.membership }

theorem fromDatabase_applied (store : StateMachineStore) :
    store.fromDatabase.applied = store.durable.getD .empty := by
  rw [fromDatabase]
  rcases store.durable with _ | applied <;> rfl

theorem fromDatabase_durable (store : StateMachineStore) :
    store.fromDatabase.durable = store.durable := by
  rw [fromDatabase]
  rcases store.durable with _ | applied <;> rfl

theorem fromDatabase_predecessors (store : StateMachineStore) :
    store.fromDatabase.predecessors = store.predecessors := by
  rw [fromDatabase]
  rcases store.durable with _ | applied <;> rfl

/-- Raft's `apply`: committed entries, in order. -/
def apply (sig : Signing) (store : StateMachineStore) (entries : List Entry) (fate : Fate) :
    Except StorageError (List (Except ConsensusError Unit)) × StateMachineStore :=
  let (responses, applied) := store.applied.applyEntries sig entries
  let store := { store with applied }
  match fate with
  | .stored =>
    (.ok responses,
      { store with
        durable := some applied
        membership := applied.state
        raftMembership := applied.membership })
  | _ => (.error .writing, store)

/-- The fold of a fetched page over what the store holds. -/
def follow (sig : Signing) (protocolMax : UInt32) (store : StateMachineStore) (upTo : ℕ)
    (events : Log SignedEvent) : ℕ × Followed :=
  followEvents sig protocolMax upTo events
    { state := store.applied.state
      predecessors := store.predecessors.getD ∅
      verdicts := []
      lastApplied := store.applied.followedUpto }

/-- Folds fetched events in, and records how far they reached. -/
def applyFollowed (sig : Signing) (protocolMax : UInt32) (store : StateMachineStore) (upTo : ℕ)
    (events : Log SignedEvent) (fate : Fate) :
    Except StorageError (List (Except ConsensusError Unit)) × StateMachineStore :=
  let (followedUpto, followed) := store.follow sig protocolMax upTo events
  let applied := { store.applied with state := followed.state, followedUpto }
  match fate with
  | .unread => (.error .reading, store)
  | .unwritten => (.error .writing, { store with applied })
  | .stored =>
    (.ok followed.verdicts,
      { store with
        applied
        durable := some applied
        predecessors := some followed.predecessors
        membership := followed.state })

end StateMachineStore

/-! ## The two folds are one -/

section Folds

variable {sig : Signing}

/-- One event of the fold both paths run. -/
def foldStep (sig : Signing) (state : MembershipState) (index : ℕ) (event : SignedEvent) :
    MembershipState :=
  (state.apply sig index event).2

namespace Applied

theorem applyEntries_append (applied : Applied) (first second : List Entry) :
    (applied.applyEntries sig (first ++ second)).2 =
      ((applied.applyEntries sig first).2.applyEntries sig second).2 := by
  induction first generalizing applied with
  | nil => rfl
  | cons entry first ih => exact ih _

theorem applyEntry_state (applied : Applied) (entry : Entry) :
    (applied.applyEntry sig entry).2.state =
      run (foldStep sig) applied.state (eventsOf [(entry.logId.index, entry)]) := by
  rw [applyEntry]
  rcases hpayload : entry.payload with _ | event | membership <;>
    simp [eventsOf, hpayload, EntryPayload.event?, run, foldStep]

/-- A voter's projection is the fold of the events among the entries it was
handed; blank entries and Raft's own configuration do not touch it. -/
theorem applyEntries_state (applied : Applied) (entries : List Entry) :
    (applied.applyEntries sig entries).2.state =
      run (foldStep sig) applied.state
        (eventsOf (entries.map fun entry => (entry.logId.index, entry))) := by
  induction entries generalizing applied with
  | nil => rfl
  | cons entry entries ih =>
    have hsplit : eventsOf ((entry :: entries).map fun entry => (entry.logId.index, entry)) =
        eventsOf [(entry.logId.index, entry)] ++
          eventsOf (entries.map fun entry => (entry.logId.index, entry)) :=
      List.filterMap_append (l := [(entry.logId.index, entry)])
    rw [hsplit, run_append, ← applyEntry_state]
    exact ih _

theorem applyEntry_lastApplied (applied : Applied) (entry : Entry) :
    (applied.applyEntry sig entry).2.lastApplied = some entry.logId := by
  rw [applyEntry]
  rcases entry.payload with _ | event | membership <;> rfl

variable {log : CommittedLog}

/-- What a voter reaches by applying the log through index `n` is the fold of
the events through `n`. -/
theorem reached_state (n : ℕ) :
    (reached sig log (n + 1)).state = fold sig (through n log.events) := by
  rw [reached, applyEntries_state, List.map_take]
  change run _ _ (eventsOf (log.indexed.take (n + 1))) = _
  rw [CommittedLog.take_indexed]
  exact congrArg (run _ _) (eventsOf_filter log.indexed fun i => i ≤ n)

/-- The index of the last entry a voter has applied, once it has applied any. -/
theorem reached_lastAppliedIndex {n : ℕ} (h : n < log.entries.length) :
    (reached sig log (n + 1)).lastAppliedIndex = n := by
  have hget : log.entries[n]? = some log.entries[n] := List.getElem?_eq_getElem h
  rw [reached, List.take_add_one, hget, Option.toList_some, applyEntries_append, lastAppliedIndex]
  change (applyEntry sig _ _).2.lastApplied.elim 0 LogId.index = n
  rw [applyEntry_lastApplied]
  exact CommittedLog.index_of_get hget

end Applied

/-- The index of the last entry of a log, or `start` if there is none. -/
def lastIndex (start : ℕ) (log : Log SignedEvent) : ℕ := log.getLast?.elim start Prod.fst

/-- What the loop over a page did: it folded `taken` and left `rest`. -/
structure FollowsPart (sig : Signing) (protocolMax : UInt32) (upTo : ℕ) (followed : Followed)
    (result : ℕ × Followed) (taken rest : Log SignedEvent) : Prop where
  counted : result.2.verdicts.length = followed.verdicts.length + taken.length
  state : result.2.state = run (foldStep sig) followed.state taken
  /-- nothing was folded under a protocol the build does not speak -/
  spoken : Throughout (foldStep sig) (·.protocol ≤ protocolMax) followed.state taken
  /-- the cursor: all of the page, or up to the last event folded -/
  cursor : (rest = [] ∧ result.1 = upTo) ∨
    (protocolMax < result.2.state.protocol ∧ result.1 = lastIndex followed.lastApplied taken)

/-- **What the loop folds**: a first part of the page, all of it unless the
protocol is in the way. -/
theorem followEvents_part (sig : Signing) (protocolMax : UInt32) (upTo : ℕ)
    (events : Log SignedEvent) : ∀ (followed : Followed), ∃ taken rest, events = taken ++ rest ∧
      FollowsPart sig protocolMax upTo followed (followEvents sig protocolMax upTo events followed)
        taken rest := by
  induction events with
  | nil =>
    intro followed
    exact ⟨[], [], rfl, rfl, rfl, trivial, Or.inl ⟨rfl, rfl⟩⟩
  | cons entry events ih =>
    obtain ⟨index, event⟩ := entry
    intro followed
    rw [followEvents]
    split
    · rename_i hbeyond
      exact ⟨[], (index, event) :: events, rfl, rfl, rfl, trivial, Or.inr ⟨hbeyond, rfl⟩⟩
    · rename_i hwithin
      obtain ⟨taken, rest, rfl, hpart⟩ := ih (followed.next sig index event)
      refine ⟨(index, event) :: taken, rest, rfl, ?_, hpart.state, ⟨UInt32.not_lt.mp hwithin, hpart.spoken⟩,
        ?_⟩
      · rw [hpart.counted, Followed.next, List.length_append, List.length_cons]
        simp only [List.length_cons, List.length_nil]
        omega
      · refine hpart.cursor.imp_right ?_
        rintro ⟨hbeyond, hcursor⟩
        refine ⟨hbeyond, hcursor.trans ?_⟩
        rw [lastIndex, lastIndex, List.getLast?_cons]
        cases taken.getLast? <;> rfl

/-- **Where the loop leaves the cursor.** Of a page that holds what lies between
the cursor and `upTo`, the loop has folded what lies between the old cursor and
the new; and unless it was beyond the build before, the cursor has moved. -/
theorem FollowsPart.between_eq {log : CommittedLog} {protocolMax : UInt32} {upTo : ℕ}
    {followed : Followed} {result : ℕ × Followed} {taken rest : Log SignedEvent}
    (h : FollowsPart sig protocolMax upTo followed result taken rest)
    (hupTo : followed.lastApplied < upTo)
    (hpage : between followed.lastApplied upTo log.events = taken ++ rest) :
    taken = between followed.lastApplied result.1 log.events ∧
      followed.lastApplied ≤ result.1 ∧
      (followed.state.protocol ≤ protocolMax → followed.lastApplied < result.1) := by
  rcases h.cursor with ⟨rfl, hcursor⟩ | ⟨hbeyond, hcursor⟩
  · rw [hcursor, hpage, List.append_nil]
    exact ⟨rfl, hupTo.le, fun _ => hupTo⟩
  · rcases hend : taken.getLast? with _ | last
    · -- nothing was folded: the copy was beyond the build before
      obtain rfl := List.getLast?_eq_none_iff.mp hend
      have hstay : result.1 = followed.lastApplied := hcursor
      rw [hstay, between_of_le le_rfl]
      refine ⟨rfl, le_rfl, fun hwithin => ?_⟩
      rw [h.state] at hbeyond
      exact absurd hbeyond (UInt32.not_lt.mpr hwithin)
    · have hmoved : result.1 = last.1 := by
        rw [hcursor, lastIndex, hend]
        rfl
      have hbetween := between_of_cut CommittedLog.ascending_events hpage hend
      have hlt : followed.lastApplied < last.1 :=
        (mem_between.mp (hbetween ▸ List.mem_of_getLast? hend)).2.1
      rw [hmoved]
      exact ⟨hbetween.symm, hlt.le, fun _ => hlt⟩

/-! ## A copy that has read the log -/

/-- A copy of the projection that has folded `folded`, and nothing else: every
event of the log through its cursor, once and in order, and none of them under
a protocol beyond `bound`. -/
structure Reads (sig : Signing) (log : CommittedLog) (bound : UInt32) (applied : Applied)
    (folded : Log SignedEvent) : Prop where
  cursor : folded = through applied.followedUpto log.events
  state : applied.state = fold sig folded
  spoken : Throughout (foldStep sig) (·.protocol ≤ bound) MembershipState.new folded

theorem reads_empty (log : CommittedLog) (bound : UInt32) : Reads sig log bound .empty [] :=
  ⟨CommittedLog.through_zero_events.symm, rfl, trivial⟩

variable {log : CommittedLog} {bound : UInt32} {applied : Applied} {folded : Log SignedEvent}

theorem Reads.state_eq_reached (h : Reads sig log bound applied folded) :
    applied.state = (Applied.reached sig log (applied.followedUpto + 1)).state := by
  rw [Applied.reached_state, h.state, h.cursor]

/-- **Nothing after a raise is folded**: where the log leaves a voter at a
protocol beyond `bound`, nothing above that index has been folded. -/
theorem Reads.le_raise (h : Reads sig log bound applied folded) {raise : ℕ}
    (hraise : bound < (Applied.reached sig log (raise + 1)).state.protocol) :
    ∀ entry ∈ folded, entry.1 ≤ raise := by
  intro entry hentry
  by_contra hlate
  rw [not_le] at hlate
  have hbelow : entry.1 ≤ applied.followedUpto := (mem_through.mp (h.cursor ▸ hentry)).2
  have hsplit : folded =
      through raise log.events ++ between raise applied.followedUpto log.events := by
    rw [through_append_between CommittedLog.ascending_events (by omega), h.cursor]
  have hlater : entry ∈ between raise applied.followedUpto log.events :=
    mem_between.mpr ⟨(mem_through.mp (h.cursor ▸ hentry)).1, hlate, hbelow⟩
  have hspoken := h.spoken
  rw [hsplit, throughout_append] at hspoken
  -- the first event past the raise was folded over the state at the raise
  rcases hnext : between raise applied.followedUpto log.events with _ | ⟨next, rest⟩
  · rw [hnext] at hlater
    cases hlater
  · rw [hnext] at hspoken
    rw [Applied.reached_state] at hraise
    exact absurd hspoken.2.1 (UInt32.not_le.mpr hraise)

/-- **A page is read without loss.** A copy that has read through its cursor,
handed the events between its cursor and `upTo`, has read through its new cursor
afterwards, whether or not it got to the end of the page. -/
theorem Reads.follow {protocolMax : UInt32} (hbuild : protocolMax ≤ bound)
    (h : Reads sig log bound applied folded) {upTo : ℕ} (hupTo : applied.followedUpto < upTo)
    {followed : Followed} (hstate : followed.state = applied.state)
    (hlast : followed.lastApplied = applied.followedUpto) (hnone : followed.verdicts = [])
    {result : ℕ × Followed} {events : Log SignedEvent}
    (hevents : events = between applied.followedUpto upTo log.events)
    (hresult : followEvents sig protocolMax upTo events followed = result) :
    Reads sig log bound { applied with state := result.2.state, followedUpto := result.1 }
        (folded ++ events.take result.2.verdicts.length) ∧
      (applied.state.protocol ≤ protocolMax → applied.followedUpto < result.1) := by
  obtain ⟨taken, rest, hsplit, hpart⟩ := followEvents_part sig protocolMax upTo events followed
  rw [hresult] at hpart
  have htaken : events.take result.2.verdicts.length = taken := by
    rw [hpart.counted, hnone, List.length_nil, Nat.zero_add, hsplit, List.take_left]
  obtain ⟨hbetween, hle, hmoves⟩ :=
    hpart.between_eq (hlast ▸ hupTo) (hlast ▸ hevents.symm.trans hsplit)
  rw [hlast] at hbetween hle hmoves
  rw [hstate] at hmoves
  have hstart : followed.state = run (foldStep sig) MembershipState.new folded :=
    hstate.trans h.state
  rw [htaken]
  refine ⟨⟨?_, ?_, ?_⟩, hmoves⟩
  · rw [hbetween, h.cursor, through_append_between CommittedLog.ascending_events hle]
  · rw [hpart.state, hstart]
    exact (run_append ..).symm
  · refine throughout_append.mpr ⟨h.spoken, ?_⟩
    rw [← hstart]
    exact hpart.spoken.imp fun s hs => UInt32.le_trans hs hbuild

end Folds

end Distlib
