import Distlib.Core.Id
import Distlib.Lib.GuardedRun

/-!
# Whom a node stays connected to

A connection is let in by a hook that runs once the handshake has proven who is at the other
end: it asks whether the peer is admitted for the protocol, and if so records the connection in
a table. A task wakes up whenever the allowlist or the Raft peers change and walks that table,
closing what is no longer admitted. So a member who is expelled loses the connections it has,
and not only the next one.

The check and the record are two moments. The check reads the allowlist, and the Raft peers if
the allowlist does not have the peer; the record waits for the lock of the table, which a walk
holds from its first handle to its last. Everything else may happen between any two of these,
between two handles of a walk as well, and every such moment is a step here.

What a walk does not find in the table it does not close. A handshake that was admitted before
an expulsion and is recorded after the walk that followed it escapes, and nothing looks at it
again before the next change. `no_escape` says that no connection escapes in any other way.

A closed peer's connections are also let go of when it has moved, which is not modelled: it only
ever closes more.
-/

namespace Distlib

open OrdMap GuardedRun

/-- The Raft protocol's name. -/
def alpnRaft : String := "distlib/raft/0"

namespace AllowlistHooks

/-- Names a connection of this endpoint. -/
abbrev ConnectionId := ℕ

/-- Where the hook has got to with a connection. -/
inductive Stage : Type where
  /-- the peer's identity is proven, and nothing has been read yet -/
  | arrived
  /-- the allowlist does not have the peer; the Raft peers are asked next -/
  | unlisted
  /-- admitted, and not recorded yet -/
  | admitted
  /-- recorded, and accepted -/
  | accepted
  | rejected
  deriving DecidableEq

structure Connection where
  remoteId : MemberId
  alpn : String
  /-- its handle still upgrades, and neither side has closed it -/
  live : Bool
  stage : Stage
  deriving DecidableEq

/-- A walk through the table, under its lock. -/
structure Walk where
  /-- the handles to come to yet, each under its peer -/
  left : List (MemberId × ConnectionId)
  /-- the allowlist does not have the peer of the first of them; the Raft peers are asked next -/
  unlisted : Bool
  /-- how many changes there had been when it began -/
  began : ℕ
  deriving DecidableEq

/-- Where the task that closes connections has got to. -/
inductive Evictor : Type where
  | unstarted
  | waiting
  | woken
  | walking (walk : Walk)
  | returned
  deriving DecidableEq

/-- What can wake it. -/
inductive Branch : Type where
  | allowlist
  | raftPeers
  deriving DecidableEq

end AllowlistHooks

open AllowlistHooks

/-- The hooks of an endpoint, its connections, and the task beside it. -/
structure AllowlistHooks where
  selfId : MemberId
  members : Finset MemberId
  /-- the Raft configuration still being retired -/
  raftPeers : Finset MemberId
  /-- nobody can replace the allowlist any more -/
  writerGone : Bool
  /-- every connection there has been -/
  seen : OrdMap ConnectionId Connection
  /-- the table: the handles recorded, by peer -/
  connections : OrdMap MemberId (List ConnectionId)
  evictor : Evictor
  /-- the allowlist has been written to since the task last woke for it -/
  allowlistChanged : Bool
  raftPeersChanged : Bool
  /-- how many changes of the allowlist and of the Raft peers there have been -/
  changes : ℕ
  /-- how many of them had been made when the last completed walk began -/
  passed : ℕ

namespace AllowlistHooks

/-! ## The hook -/

/-- Whether the allowlist lets `id` connect. -/
def isAllowed (hooks : AllowlistHooks) (id : MemberId) : Bool :=
  id == hooks.selfId || decide (id ∈ hooks.members)

/-- Whether the Raft peers let `peer` connect, for `alpn`. -/
def isRaftPeer (hooks : AllowlistHooks) (peer : MemberId) (alpn : String) : Bool :=
  alpn == alpnRaft && decide (peer ∈ hooks.raftPeers)

def admits (hooks : AllowlistHooks) (peer : MemberId) (alpn : String) : Bool :=
  hooks.isAllowed peer || hooks.isRaftPeer peer alpn

/-- Whether a recorded connection is still worth keeping. -/
def isLive (hooks : AllowlistHooks) (handle : ConnectionId) : Bool :=
  match hooks.seen[handle]? with
  | some connection => connection.live
  | none => false

/-- Whether a walk holds the lock of the table. -/
def locked (hooks : AllowlistHooks) : Bool :=
  match hooks.evictor with
  | .walking _ => true
  | _ => false

/-- What is recorded of a peer. -/
def handles (hooks : AllowlistHooks) (peer : MemberId) : List ConnectionId :=
  (hooks.connections[peer]?).getD []

def put (hooks : AllowlistHooks) (id : ConnectionId) (connection : Connection) : AllowlistHooks :=
  { hooks with seen := hooks.seen.insert id connection }

/-- Records a connection, and forgets this peer's finished ones. -/
def remember (hooks : AllowlistHooks) (peer : MemberId) (id : ConnectionId) : AllowlistHooks :=
  { hooks with
    connections := hooks.connections.insert peer ((hooks.handles peer).filter hooks.isLive ++ [id]) }

/-- The next thing the hook does with a connection. -/
def afterHandshake (hooks : AllowlistHooks) (id : ConnectionId) : AllowlistHooks :=
  match hooks.seen[id]? with
  | none => hooks
  | some connection =>
    match connection.stage with
    | .arrived =>
      if hooks.isAllowed connection.remoteId then hooks.put id { connection with stage := .admitted }
      else hooks.put id { connection with stage := .unlisted }
    | .unlisted =>
      if hooks.isRaftPeer connection.remoteId connection.alpn then
        hooks.put id { connection with stage := .admitted }
      else hooks.put id { connection with live := false, stage := .rejected }
    | .admitted =>
      if hooks.locked then hooks
      else
        (hooks.remember connection.remoteId id).put id { connection with stage := .accepted }
    | .accepted | .rejected => hooks

/-! ## The task -/

/-- Forgets a handle, and its peer with the last one. -/
def forget (hooks : AllowlistHooks) (peer : MemberId) (handle : ConnectionId) : AllowlistHooks :=
  let handles := (hooks.handles peer).filter (· ≠ handle)
  { hooks with
    connections :=
      if handles.isEmpty then hooks.connections.erase peer else hooks.connections.insert peer handles }

/-- The next thing a walk does. -/
def evictOnce (hooks : AllowlistHooks) (walk : Walk) : AllowlistHooks :=
  match walk.left with
  | [] => { hooks with evictor := .waiting, passed := walk.began }
  | (peer, handle) :: left =>
    let next : AllowlistHooks := { hooks with evictor := .walking { walk with left, unlisted := false } }
    match hooks.seen[handle]? with
    | none => next.forget peer handle
    | some connection =>
      if walk.unlisted then
        if hooks.isRaftPeer peer connection.alpn then next
        else (next.forget peer handle).put handle { connection with live := false }
      else if !connection.live then next.forget peer handle
      else if hooks.isAllowed peer then next
      else { hooks with evictor := .walking { walk with unlisted := true } }

/-- The task wakes up, if `branch` has something new for it. -/
def wake (hooks : AllowlistHooks) : Branch → AllowlistHooks
  | .allowlist =>
    if hooks.allowlistChanged then { hooks with evictor := .woken, allowlistChanged := false }
    else hooks
  | .raftPeers =>
    if hooks.raftPeersChanged then { hooks with evictor := .woken, raftPeersChanged := false }
    else hooks

/-! ## Who may connect -/

/-- Replaces the whole allowlist. Whoever waits for a change is told, whatever the set is. -/
def replace (hooks : AllowlistHooks) (members : Finset MemberId) : AllowlistHooks :=
  { hooks with
    members
    allowlistChanged := true
    changes := if hooks.members = members then hooks.changes else hooks.changes + 1 }

/-- Keeps the applied Raft configuration reachable. -/
def setRaftPeers (hooks : AllowlistHooks) (peers : Finset MemberId) : AllowlistHooks :=
  if hooks.raftPeers = peers then hooks
  else { hooks with raftPeers := peers, raftPeersChanged := true, changes := hooks.changes + 1 }

/-! ## One thing after another -/

inductive Step : Type where
  /-- a handshake completes, and the hook is called -/
  | arrives (id : ConnectionId) (remoteId : MemberId) (alpn : String)
  /-- the hook does the next thing it does with a connection -/
  | afterHandshake (id : ConnectionId)
  /-- a connection ends by itself -/
  | ends (id : ConnectionId)
  | replace (members : Finset MemberId)
  | dropsWriter
  | setRaftPeers (peers : Finset MemberId)
  /-- the task starts -/
  | subscribes
  | wakes (branch : Branch)
  /-- the task stops, since the allowlist can no longer change -/
  | returns
  /-- the task takes the lock, and finds the peers of the table in this order -/
  | walks (peers : List MemberId)
  /-- the walk does the next thing it does -/
  | evicts

def step (hooks : AllowlistHooks) : Step → AllowlistHooks
  | .arrives id remoteId alpn =>
    if id ∈ hooks.seen then hooks
    else hooks.put id { remoteId, alpn, live := true, stage := .arrived }
  | .afterHandshake id => hooks.afterHandshake id
  | .ends id =>
    match hooks.seen[id]? with
    | none => hooks
    | some connection => hooks.put id { connection with live := false }
  | .replace members => if hooks.writerGone then hooks else hooks.replace members
  | .dropsWriter => { hooks with writerGone := true }
  | .setRaftPeers peers => hooks.setRaftPeers peers
  | .subscribes =>
    if hooks.evictor = .unstarted then { hooks with evictor := .waiting, raftPeersChanged := false }
    else hooks
  | .wakes branch => if hooks.evictor = .waiting then hooks.wake branch else hooks
  | .returns =>
    if hooks.evictor = .waiting ∧ hooks.writerGone = true ∧ hooks.allowlistChanged = false then
      { hooks with evictor := .returned }
    else hooks
  | .walks peers =>
    if hooks.evictor = .woken ∧ peers.Perm hooks.connections.keys then
      let left := peers.flatMap fun peer => (hooks.handles peer).map (peer, ·)
      { hooks with evictor := .walking ⟨left, false, hooks.changes⟩ }
    else hooks
  | .evicts =>
    match hooks.evictor with
    | .walking walk => hooks.evictOnce walk
    | _ => hooks

/-- A node that has just started. -/
def start (selfId : MemberId) (members : Finset MemberId) : AllowlistHooks :=
  ⟨selfId, members, ∅, false, ∅, ∅, .unstarted, false, false, 0, 0⟩

/-! ## What is to hold -/

/-- A connection that was accepted and is still open. -/
def Stands (hooks : AllowlistHooks) (id : ConnectionId) (connection : Connection) : Prop :=
  hooks.seen[id]? = some connection ∧ connection.stage = .accepted ∧ connection.live = true

/-- Once every change has been followed by a completed walk and no handshake is between its
check and its record, only peers that are admitted are connected. -/
def NoneEscaped (hooks : AllowlistHooks) : Prop :=
  hooks.passed = hooks.changes →
    (∀ (id : ConnectionId) (connection : Connection),
        hooks.seen[id]? = some connection → connection.stage ≠ .admitted) →
      ∀ id connection, hooks.Stands id connection →
        hooks.admits connection.remoteId connection.alpn = true

/-- Every handshake is recorded while a walk is still to follow the last change, while its peer
is still admitted, or when its connection is over already. -/
def RecordedInTime (hooks : AllowlistHooks) : Step → Prop
  | .afterHandshake id =>
    ∀ connection ∈ hooks.seen[id]?, connection.stage = .admitted → hooks.locked = false →
      hooks.passed = hooks.changes → connection.live = true →
        hooks.admits connection.remoteId connection.alpn = true
  | _ => True

instance (hooks : AllowlistHooks) : DecidablePred hooks.RecordedInTime
  | .afterHandshake id =>
    inferInstanceAs (Decidable (∀ connection ∈ hooks.seen[id]?, connection.stage = .admitted →
      hooks.locked = false → hooks.passed = hooks.changes → connection.live = true →
        hooks.admits connection.remoteId connection.alpn = true))
  | .arrives .. | .ends _ | .replace _ | .dropsWriter | .setRaftPeers _ | .subscribes | .wakes _
  | .returns | .walks _ | .evicts => .isTrue trivial

/-! ## The table -/

variable {hooks next : AllowlistHooks} {id : ConnectionId} {connection : Connection}
  {peer : MemberId} {handle : ConnectionId} {walk : Walk} {left : List (MemberId × ConnectionId)}

/-- What stands after one connection was written down stood before, or is that one. -/
theorem stands_put {other : ConnectionId} {found : Connection}
    (h : (hooks.put id connection).Stands other found) :
    other ≠ id ∧ hooks.Stands other found ∨
      other = id ∧ found = connection ∧ connection.stage = .accepted ∧ connection.live = true := by
  obtain ⟨hseen, hstage, hlive⟩ := h
  rw [put, Std.ExtTreeMap.getElem?_insert] at hseen
  split at hseen
  · rename_i heq
    cases hseen
    exact Or.inr ⟨(compare_eq_iff_eq.mp heq).symm, rfl, hstage, hlive⟩
  · rename_i hne
    exact Or.inl ⟨fun heq => hne (compare_eq_iff_eq.mpr heq.symm), hseen, hstage, hlive⟩

/-- A connection that is seen once more is of the same peer. -/
theorem remoteId_of_seen (hseen : hooks.seen[id]? = some connection) (old : Connection)
    (hold : hooks.seen[id]? = some old) : connection.remoteId = old.remoteId :=
  congrArg Connection.remoteId (Option.some.inj (hseen.symm.trans hold))

theorem seen_put
    (hseen : ∀ old : Connection, hooks.seen[id]? = some old → connection.remoteId = old.remoteId)
    (other : ConnectionId) (found : Connection) (hfound : hooks.seen[other]? = some found) :
    ∃ later : Connection, (hooks.put id connection).seen[other]? = some later ∧
      later.remoteId = found.remoteId := by
  rw [put, Std.ExtTreeMap.getElem?_insert]
  split
  · rename_i heq
    obtain rfl := compare_eq_iff_eq.mp heq
    exact ⟨connection, rfl, hseen found hfound⟩
  · exact ⟨found, hfound, rfl⟩

/-- Remembering a connection drops those of its peer that are closed, and none of another. -/
theorem mem_handles_remember {other : MemberId} {found : ConnectionId} :
    found ∈ (hooks.remember peer id).handles other ↔
      if other = peer then found ∈ hooks.handles peer ∧ hooks.isLive found = true ∨ found = id
      else found ∈ hooks.handles other := by
  rw [remember, handles, Std.ExtTreeMap.getElem?_insert]
  by_cases heq : other = peer
  · subst heq
    rw [if_pos Std.compare_self, if_pos rfl, Option.getD_some, List.mem_append,
      List.mem_filter, List.mem_singleton]
  · rw [if_neg fun h => heq (Std.LawfulEqOrd.eq_of_compare h).symm, if_neg heq, handles]

/-- Forgetting one drops that one. -/
theorem mem_handles_forget {other : MemberId} {found : ConnectionId} :
    found ∈ (hooks.forget peer handle).handles other ↔
      found ∈ hooks.handles other ∧ (other = peer → found ≠ handle) := by
  have hfilter : found ∈ (hooks.handles peer).filter (· ≠ handle) ↔
      found ∈ hooks.handles peer ∧ found ≠ handle := by
    rw [List.mem_filter, decide_eq_true_eq]
  by_cases heq : other = peer
  · subst heq
    rw [forget, handles]
    dsimp only
    split
    · rename_i hempty
      rw [List.isEmpty_iff] at hempty
      rw [Std.ExtTreeMap.getElem?_erase, if_pos Std.compare_self, Option.getD_none]
      rw [hempty] at hfilter
      exact hfilter.trans (and_congr_right fun _ => ⟨fun h _ => h, fun h => h rfl⟩)
    · rw [Std.ExtTreeMap.getElem?_insert, if_pos Std.compare_self, Option.getD_some, hfilter]
      exact and_congr_right fun _ => ⟨fun h _ => h, fun h => h rfl⟩
  · have hne : ¬ compare peer other = .eq := fun h => heq (Std.LawfulEqOrd.eq_of_compare h).symm
    rw [forget, handles]
    dsimp only
    split
    · rw [Std.ExtTreeMap.getElem?_erase, if_neg hne]
      exact ⟨fun h => ⟨h, fun h' => absurd h' heq⟩, fun h => h.1⟩
    · rw [Std.ExtTreeMap.getElem?_insert, if_neg hne]
      exact ⟨fun h => ⟨h, fun h' => absurd h' heq⟩, fun h => h.1⟩

/-- What was recorded of a peer and was open is recorded still. -/
theorem isLive_of_stands (h : hooks.Stands id connection) : hooks.isLive id = true := by
  rw [isLive, h.1]
  exact h.2.2

/-! ## What a step leaves aside -/

/-- A step that accepts nothing, and changes neither the table nor who is admitted. A walk goes on
as it was, or there is none. -/
structure Aside (hooks next : AllowlistHooks) : Prop where
  stands : ∀ id connection, next.Stands id connection → hooks.Stands id connection
  seen : ∀ (id : ConnectionId) (connection : Connection), hooks.seen[id]? = some connection →
    ∃ later : Connection, next.seen[id]? = some later ∧ later.remoteId = connection.remoteId
  connections : next.connections = hooks.connections
  evictor : next.evictor = hooks.evictor ∨ ∀ walk, next.evictor ≠ .walking walk
  isAllowed : next.isAllowed = hooks.isAllowed
  isRaftPeer : next.isRaftPeer = hooks.isRaftPeer
  changes : next.changes = hooks.changes
  passed : next.passed = hooks.passed

theorem Aside.refl (hooks : AllowlistHooks) : Aside hooks hooks :=
  ⟨fun _ _ h => h, fun _ connection h => ⟨connection, h, rfl⟩, rfl, Or.inl rfl, rfl, rfl, rfl, rfl⟩

/-- What only the task and its channels have to do with. -/
theorem Aside.of_seen (hseen : next.seen = hooks.seen) (hconnections : next.connections = hooks.connections)
    (hevictor : next.evictor = hooks.evictor ∨ ∀ walk, next.evictor ≠ .walking walk)
    (hself : next.selfId = hooks.selfId) (hmembers : next.members = hooks.members)
    (hraft : next.raftPeers = hooks.raftPeers) (hchanges : next.changes = hooks.changes)
    (hpassed : next.passed = hooks.passed) : Aside hooks next where
  stands id connection h := ⟨hseen ▸ h.1, h.2⟩
  seen id connection h := ⟨connection, hseen ▸ h, rfl⟩
  connections := hconnections
  evictor := hevictor
  isAllowed := by funext id; rw [AllowlistHooks.isAllowed, hself, hmembers]; rfl
  isRaftPeer := by funext id alpn; rw [AllowlistHooks.isRaftPeer, hraft]; rfl
  changes := hchanges
  passed := hpassed

/-- A connection that is not thereby accepted. -/
theorem aside_put (hstands : connection.stage = .accepted → connection.live = true →
      hooks.Stands id connection)
    (hseen : ∀ old : Connection, hooks.seen[id]? = some old → connection.remoteId = old.remoteId) :
    Aside hooks (hooks.put id connection) where
  stands other found h := by
    rcases stands_put h with ⟨-, hbefore⟩ | ⟨rfl, rfl, hstage, hlive⟩
    · exact hbefore
    · exact hstands hstage hlive
  seen := seen_put hseen
  connections := rfl
  evictor := Or.inl rfl
  isAllowed := rfl
  isRaftPeer := rfl
  changes := rfl
  passed := rfl

/-! ## The table has what is open -/

/-- The table has every accepted connection that is open, under its peer, and a walk comes to
what was in the table. -/
structure Kept (hooks : AllowlistHooks) : Prop where
  named : ∀ peer id, id ∈ hooks.handles peer →
    ∃ connection : Connection, hooks.seen[id]? = some connection ∧ connection.remoteId = peer
  tracked : ∀ id connection, hooks.Stands id connection → id ∈ hooks.handles connection.remoteId
  walked : ∀ walk, hooks.evictor = .walking walk → ∀ peer id, (peer, id) ∈ walk.left →
    ∃ connection : Connection, hooks.seen[id]? = some connection ∧ connection.remoteId = peer
  began : ∀ walk, hooks.evictor = .walking walk → walk.began ≤ hooks.changes
  passed : hooks.passed ≤ hooks.changes

/-- What has been seen of a peer is still there under its peer. -/
theorem Aside.stays (h : Aside hooks next) (hbefore : ∃ connection : Connection,
      hooks.seen[id]? = some connection ∧ connection.remoteId = peer) :
    ∃ connection : Connection, next.seen[id]? = some connection ∧ connection.remoteId = peer := by
  obtain ⟨found, hfound, rfl⟩ := hbefore
  exact h.seen id found hfound

/-- What is left aside keeps the table. -/
theorem Kept.aside (h : Kept hooks) (haside : Aside hooks next) : Kept next := by
  have hhandles : next.handles = hooks.handles := by
    funext peer
    rw [handles, haside.connections, handles]
  have hwalking : ∀ walk, next.evictor = .walking walk → hooks.evictor = .walking walk := by
    intro walk hwalk
    rcases haside.evictor with hsame | hnone
    · exact hsame ▸ hwalk
    · exact absurd hwalk (hnone walk)
  refine ⟨?_, ?_, ?_, ?_, ?_⟩
  · intro peer id hmem
    exact haside.stays (h.named peer id (hhandles ▸ hmem))
  · intro id connection hstands
    exact hhandles ▸ h.tracked id connection (haside.stands id connection hstands)
  · intro walk hwalk peer id hmem
    exact haside.stays (h.walked walk (hwalking walk hwalk) peer id hmem)
  · intro walk hwalk
    exact haside.changes ▸ h.began walk (hwalking walk hwalk)
  · rw [haside.changes, haside.passed]
    exact h.passed

/-! ## What each step does -/

/-- A change of who is admitted. -/
structure Alters (hooks next : AllowlistHooks) : Prop where
  seen : next.seen = hooks.seen
  connections : next.connections = hooks.connections
  evictor : next.evictor = hooks.evictor
  changes : next.changes = hooks.changes + 1
  passed : next.passed = hooks.passed

/-- The hooks once a connection has been recorded. -/
def recorded (hooks : AllowlistHooks) (id : ConnectionId) (connection : Connection) : AllowlistHooks :=
  (hooks.remember connection.remoteId id).put id { connection with stage := .accepted }

/-- The hooks once the task has begun to walk. -/
def walkStarted (hooks : AllowlistHooks) (peers : List MemberId) : AllowlistHooks :=
  { hooks with
    evictor := .walking ⟨peers.flatMap fun peer => (hooks.handles peer).map (peer, ·), false, hooks.changes⟩ }

/-- A list of members that is the one there is changes nothing. -/
theorem alters_replace (members : Finset MemberId) :
    Aside hooks (hooks.replace members) ∨ Alters hooks (hooks.replace members) := by
  by_cases hsame : hooks.members = members
  · left
    exact .of_seen rfl rfl (Or.inl rfl) rfl hsame.symm rfl (if_pos hsame) rfl
  · right
    exact ⟨rfl, rfl, rfl, if_neg hsame, rfl⟩

/-- Nor does a list of peers. -/
theorem alters_setRaftPeers (peers : Finset MemberId) :
    Aside hooks (hooks.setRaftPeers peers) ∨ Alters hooks (hooks.setRaftPeers peers) := by
  rw [setRaftPeers]
  split
  · exact Or.inl (.refl hooks)
  · exact Or.inr ⟨rfl, rfl, rfl, rfl, rfl⟩

/-- Being woken is no change either: it only says there may have been one. -/
theorem aside_wake (branch : Branch) : Aside hooks (hooks.wake branch) := by
  have hwoken : ∀ walk, Evictor.woken ≠ .walking walk := fun walk heq => by cases heq
  cases branch with
  | allowlist =>
    rw [wake]
    split
    · exact .of_seen rfl rfl (Or.inr hwoken) rfl rfl rfl rfl rfl
    · exact .refl hooks
  | raftPeers =>
    rw [wake]
    split
    · exact .of_seen rfl rfl (Or.inr hwoken) rfl rfl rfl rfl rfl
    · exact .refl hooks

/-- The hook reads something about a connection, or records it. -/
theorem afterHandshake_cases (hooks : AllowlistHooks) (id : ConnectionId) :
    Aside hooks (hooks.afterHandshake id) ∨
      ∃ connection : Connection, hooks.seen[id]? = some connection ∧ connection.stage = .admitted ∧
        hooks.locked = false ∧ hooks.afterHandshake id = hooks.recorded id connection := by
  rw [afterHandshake]
  split
  · exact Or.inl (.refl hooks)
  · rename_i connection hseen
    have hseen' := remoteId_of_seen hseen
    -- whatever is read, the connection is not accepted yet
    split
    · left
      split
      · exact aside_put (fun h => by cases h) hseen'
      · exact aside_put (fun h => by cases h) hseen'
    · left
      split
      · exact aside_put (fun h => by cases h) hseen'
      · exact aside_put (fun h => by cases h) hseen'
    · rename_i hstage
      split
      · exact Or.inl (.refl hooks)
      · rename_i hlocked
        exact Or.inr ⟨connection, hseen, hstage, Bool.eq_false_iff.mpr hlocked, rfl⟩
    · exact Or.inl (.refl hooks)
    · exact Or.inl (.refl hooks)

/-- **What one step can do**: it accepts nothing and closes what it likes, changes who is
admitted, records a connection, begins a walk or goes on with one. -/
theorem step_cases (hooks : AllowlistHooks) (s : Step) :
    Aside hooks (hooks.step s) ∨ Alters hooks (hooks.step s) ∨
      (∃ (id : ConnectionId) (connection : Connection), s = .afterHandshake id ∧
        hooks.seen[id]? = some connection ∧ connection.stage = .admitted ∧ hooks.locked = false ∧
        hooks.step s = hooks.recorded id connection) ∨
      (∃ peers : List MemberId, peers.Perm hooks.connections.keys ∧ hooks.step s = hooks.walkStarted peers) ∨
      ∃ walk, hooks.evictor = .walking walk ∧ hooks.step s = hooks.evictOnce walk := by
  have hwaits : ∀ walk, Evictor.waiting ≠ .walking walk := fun walk heq => by cases heq
  have hreturned : ∀ walk, Evictor.returned ≠ .walking walk := fun walk heq => by cases heq
  cases s with
  | arrives id remoteId alpn =>
    left
    rw [step]
    split
    · exact .refl hooks
    · rename_i hnew
      refine aside_put (fun h => by cases h) fun old hold => ?_
      exact absurd (OrdMap.mem_iff_exists.mpr ⟨old, hold⟩) hnew
  | afterHandshake id =>
    rcases afterHandshake_cases hooks id with haside | ⟨connection, hseen, hstage, hlocked, hnext⟩
    · exact Or.inl haside
    · exact Or.inr (Or.inr (Or.inl ⟨id, connection, rfl, hseen, hstage, hlocked, hnext⟩))
  | ends id =>
    left
    rw [step]
    split
    · exact .refl hooks
    · rename_i connection hseen
      have hremote := remoteId_of_seen hseen
      exact aside_put (fun _ h => by cases h) hremote
  | replace members =>
    rw [step]
    split
    · exact Or.inl (.refl hooks)
    · exact (alters_replace members).imp_right Or.inl
  | dropsWriter => exact Or.inl (.of_seen rfl rfl (Or.inl rfl) rfl rfl rfl rfl rfl)
  | setRaftPeers peers => exact (alters_setRaftPeers peers).imp_right Or.inl
  | subscribes =>
    left
    rw [step]
    split
    · exact .of_seen rfl rfl (Or.inr hwaits) rfl rfl rfl rfl rfl
    · exact .refl hooks
  | wakes branch =>
    left
    rw [step]
    split
    · exact aside_wake branch
    · exact .refl hooks
  | returns =>
    left
    rw [step]
    split
    · exact .of_seen rfl rfl (Or.inr hreturned) rfl rfl rfl rfl rfl
    · exact .refl hooks
  | walks peers =>
    rw [step]
    split
    · rename_i hwoken
      exact Or.inr (Or.inr (Or.inr (Or.inl ⟨peers, hwoken.2, rfl⟩)))
    · exact Or.inl (.refl hooks)
  | evicts =>
    rw [step]
    split
    · rename_i walk hwalk
      exact Or.inr (Or.inr (Or.inr (Or.inr ⟨walk, hwalk, rfl⟩)))
    · exact Or.inl (.refl hooks)

/-- A walk has come to a connection: it goes on with the rest, and has kept the connection only
if it is admitted. -/
structure Visits (hooks next : AllowlistHooks) (walk : Walk) (handle : ConnectionId)
    (connection : Connection) (left : List (MemberId × ConnectionId)) : Prop where
  stands : ∀ id found, next.Stands id found → hooks.Stands id found
  admitted : next.Stands handle connection →
    hooks.admits connection.remoteId connection.alpn = true
  seen : ∀ (id : ConnectionId) (found : Connection), hooks.seen[id]? = some found →
    ∃ later : Connection, next.seen[id]? = some later ∧ later.remoteId = found.remoteId
  named : ∀ peer id, id ∈ next.handles peer → id ∈ hooks.handles peer
  tracked : ∀ id found, next.Stands id found → id ∈ hooks.handles found.remoteId →
    id ∈ next.handles found.remoteId
  evictor : next.evictor = .walking { walk with left, unlisted := false }
  isAllowed : next.isAllowed = hooks.isAllowed
  isRaftPeer : next.isRaftPeer = hooks.isRaftPeer
  changes : next.changes = hooks.changes
  passed : next.passed = hooks.passed

/-- The walk goes on to the rest of the handles. -/
def walkOn (hooks : AllowlistHooks) (walk : Walk) (left : List (MemberId × ConnectionId)) :
    AllowlistHooks :=
  { hooks with evictor := .walking { walk with left, unlisted := false } }

/-- A connection whose peer is admitted is left open. -/
theorem visits_kept (h : hooks.admits connection.remoteId connection.alpn = true) :
    Visits hooks (hooks.walkOn walk left) walk handle connection left :=
  ⟨fun _ _ h => h, fun _ => h, fun _ found h => ⟨found, h, rfl⟩, fun _ _ h => h, fun _ _ _ h => h,
    rfl, rfl, rfl, rfl, rfl⟩

/-- One that has closed by itself is forgotten. -/
theorem visits_forgotten (hseen : hooks.seen[handle]? = some connection)
    (hdead : connection.live = false) :
    Visits hooks ((hooks.walkOn walk left).forget connection.remoteId handle) walk handle connection left where
  stands _ _ h := h
  admitted h := by
    rw [h.2.2] at hdead
    cases hdead
  seen _ found h := ⟨found, h, rfl⟩
  named _ _ h := (mem_handles_forget.mp h).1
  tracked id found h hmem := by
    refine mem_handles_forget.mpr ⟨hmem, fun _ heq => ?_⟩
    obtain ⟨hfound, -, hlive⟩ := h
    subst heq
    rw [Option.some.inj (hfound.symm.trans hseen), hdead] at hlive
    cases hlive
  evictor := rfl
  isAllowed := rfl
  isRaftPeer := rfl
  changes := rfl
  passed := rfl

/-- And one whose peer is not admitted is closed, and forgotten. -/
theorem visits_closed (hseen : hooks.seen[handle]? = some connection) :
    Visits hooks (((hooks.walkOn walk left).forget connection.remoteId handle).put handle
      { connection with live := false }) walk handle connection left where
  stands id found h := by
    rcases stands_put h with ⟨-, hbefore⟩ | ⟨-, -, -, hlive⟩
    · exact hbefore
    · cases hlive
  admitted h := by
    rcases stands_put h with ⟨hne, -⟩ | ⟨-, -, -, hlive⟩
    · exact absurd rfl hne
    · cases hlive
  seen :=
    have hremote := remoteId_of_seen hseen
    @seen_put ((hooks.walkOn walk left).forget connection.remoteId handle) handle
      { connection with live := false } hremote
  named _ _ h := (mem_handles_forget.mp h).1
  tracked id found h hmem := by
    refine mem_handles_forget.mpr ⟨hmem, fun _ heq => ?_⟩
    rcases stands_put h with ⟨hne, -⟩ | ⟨-, -, -, hlive⟩
    · exact hne heq
    · cases hlive
  evictor := rfl
  isAllowed := rfl
  isRaftPeer := rfl
  changes := rfl
  passed := rfl

/-- **What a walk does next**: it ends, comes to a connection, or has found that a peer is not on
the allowlist. -/
theorem evictOnce_cases (hwalked : ∀ peer id, (peer, id) ∈ walk.left →
      ∃ connection : Connection, hooks.seen[id]? = some connection ∧ connection.remoteId = peer) :
    (walk.left = [] ∧ hooks.evictOnce walk = { hooks with evictor := .waiting, passed := walk.began }) ∨
      ∃ handle connection left, walk.left = (connection.remoteId, handle) :: left ∧
        hooks.seen[handle]? = some connection ∧
        ((Visits hooks (hooks.evictOnce walk) walk handle connection left) ∨
          (hooks.isAllowed connection.remoteId = false ∧
            hooks.evictOnce walk = { hooks with evictor := .walking { walk with unlisted := true } })) := by
  rw [evictOnce]
  split
  · rename_i hleft
    exact Or.inl ⟨hleft, rfl⟩
  · rename_i peer handle left hleft
    right
    obtain ⟨connection, hseen, rfl⟩ := hwalked peer handle (hleft ▸ List.mem_cons_self)
    refine ⟨handle, connection, left, hleft, hseen, ?_⟩
    dsimp only
    rw [hseen]
    dsimp only
    split
    · left
      split
      · rename_i hraft
        exact visits_kept (Bool.or_eq_true_iff.mpr (Or.inr hraft))
      · exact visits_closed hseen
    · split
      · rename_i hdead
        exact Or.inl (visits_forgotten hseen ((Bool.not_eq_true' _).mp hdead))
      · split
        · rename_i hallowed
          exact Or.inl (visits_kept (Bool.or_eq_true_iff.mpr (Or.inl hallowed)))
        · rename_i hnot
          exact Or.inr ⟨Bool.eq_false_iff.mpr hnot, rfl⟩

/-! ## The table keeps what is open -/

/-- A change of who is admitted leaves the table as it is. -/
theorem Kept.alters (h : Kept hooks) (halters : Alters hooks next) : Kept next := by
  have hhandles : next.handles = hooks.handles := by
    funext peer
    rw [handles, halters.connections, handles]
  refine ⟨?_, ?_, ?_, ?_, ?_⟩
  · rw [hhandles, halters.seen]
    exact h.named
  · intro id connection hstands
    rw [hhandles]
    exact h.tracked id connection ⟨halters.seen ▸ hstands.1, hstands.2⟩
  · rw [halters.evictor, halters.seen]
    exact h.walked
  · intro walk hwalk
    rw [halters.changes]
    exact (h.began walk (halters.evictor ▸ hwalk)).trans (Nat.le_succ _)
  · rw [halters.changes, halters.passed]
    exact h.passed.trans (Nat.le_succ _)

/-- A connection is put into the table under its peer, and is there from then on. -/
theorem Kept.recorded (h : Kept hooks) (hseen : hooks.seen[id]? = some connection) :
    Kept (hooks.recorded id connection) := by
  have hstays : ∀ (peer : MemberId) (other : ConnectionId), (∃ found : Connection, hooks.seen[other]? = some found ∧ found.remoteId = peer) →
      ∃ found : Connection, (hooks.recorded id connection).seen[other]? = some found ∧
        found.remoteId = peer := by
    rintro _ other ⟨found, hfound, rfl⟩
    have hremote := remoteId_of_seen hseen
    exact @seen_put (hooks.remember connection.remoteId id) id { connection with stage := .accepted }
      hremote other found hfound
  refine ⟨?_, ?_, ?_, h.began, h.passed⟩
  · intro peer other hmem
    refine hstays peer other ?_
    replace hmem := mem_handles_remember.mp hmem
    split at hmem
    · rename_i heq
      rcases hmem with ⟨hbefore, -⟩ | rfl
      · exact heq ▸ h.named _ other hbefore
      · exact ⟨connection, hseen, heq.symm⟩
    · exact h.named peer other hmem
  · intro other found hstands
    refine mem_handles_remember.mpr ?_
    rcases stands_put hstands with ⟨-, hbefore⟩ | ⟨rfl, rfl, -, -⟩
    · have hmem := h.tracked other found hbefore
      split
      · rename_i heq
        exact Or.inl ⟨heq ▸ hmem, isLive_of_stands hbefore⟩
      · exact hmem
    · rw [if_pos rfl]
      exact Or.inr rfl
  · intro walk hwalk peer other hmem
    exact hstays peer other (h.walked walk hwalk peer other hmem)

theorem Kept.walkStarted (h : Kept hooks) (peers : List MemberId) : Kept (hooks.walkStarted peers) where
  named := h.named
  tracked := h.tracked
  walked walk hwalk peer id hmem := by
    cases hwalk
    obtain ⟨other, -, hother⟩ := List.mem_flatMap.mp hmem
    obtain ⟨found, hfound, heq⟩ := List.mem_map.mp hother
    cases heq
    exact h.named _ _ hfound
  began walk hwalk := by
    cases hwalk
    exact le_rfl
  passed := h.passed

/-- A walk forgets nothing that is open: what it drops has closed. -/
theorem Kept.visits (h : Kept hooks) (hwalk : hooks.evictor = .walking walk)
    (hleft : walk.left = (peer, handle) :: left)
    (hvisits : Visits hooks next walk handle connection left) : Kept next := by
  have hstays : ∀ (peer : MemberId) (other : ConnectionId), (∃ found : Connection, hooks.seen[other]? = some found ∧ found.remoteId = peer) →
      ∃ found : Connection, next.seen[other]? = some found ∧ found.remoteId = peer := by
    rintro _ other ⟨found, hfound, rfl⟩
    exact hvisits.seen other found hfound
  refine ⟨?_, ?_, ?_, ?_, ?_⟩
  · intro peer id hmem
    exact hstays peer id (h.named peer id (hvisits.named peer id hmem))
  · intro id found hstands
    exact hvisits.tracked id found hstands (h.tracked id found (hvisits.stands id found hstands))
  · intro later hlater peer id hmem
    rw [hvisits.evictor] at hlater
    cases hlater
    exact hstays peer id (h.walked walk hwalk peer id (hleft ▸ List.mem_cons_of_mem _ hmem))
  · intro later hlater
    rw [hvisits.evictor] at hlater
    cases hlater
    exact hvisits.changes ▸ h.began walk hwalk
  · rw [hvisits.changes, hvisits.passed]
    exact h.passed

theorem Kept.evictOnce (h : Kept hooks) (hwalk : hooks.evictor = .walking walk) :
    Kept (hooks.evictOnce walk) := by
  rcases evictOnce_cases (h.walked walk hwalk) with
    ⟨-, hnext⟩ | ⟨handle, connection, left, hleft, -, hvisits | ⟨-, hnext⟩⟩
  · rw [hnext]
    exact ⟨h.named, h.tracked, (fun later hlater => by cases hlater), (fun later hlater => by cases hlater),
      h.began walk hwalk⟩
  · exact h.visits hwalk hleft hvisits
  · rw [hnext]
    refine ⟨h.named, h.tracked, ?_, ?_, h.passed⟩
    · intro later hlater
      cases hlater
      exact h.walked walk hwalk
    · intro later hlater
      cases hlater
      exact h.began walk hwalk

/-- **The table has what is open**, after every step. -/
theorem Kept.step (h : Kept hooks) (s : Step) : Kept (hooks.step s) := by
  rcases step_cases hooks s with haside | halters | ⟨id, connection, -, hseen, -, -, hnext⟩ |
    ⟨peers, -, hnext⟩ | ⟨walk, hwalk, hnext⟩
  · exact h.aside haside
  · exact h.alters halters
  · exact hnext ▸ h.recorded hseen
  · exact hnext ▸ h.walkStarted peers
  · exact hnext ▸ h.evictOnce hwalk

theorem kept_start (selfId : MemberId) (members : Finset MemberId) : Kept (start selfId members) := by
  have hnothing : ∀ id : ConnectionId, (start selfId members).seen[id]? = none := fun id =>
    Std.ExtTreeMap.getElem?_empty
  refine ⟨?_, ?_, (fun walk hwalk => by cases hwalk), (fun walk hwalk => by cases hwalk), le_rfl⟩
  · intro peer id hmem
    rw [handles, start, Std.ExtTreeMap.getElem?_empty] at hmem
    cases hmem
  · intro id connection hstands
    exact absurd hstands.1 (by rw [hnothing]; exact fun h => by cases h)

/-! ## Who is let in is admitted -/

/-- Once every change has been followed by a completed walk only admitted peers are connected, and
a walk that began after the last change has those behind it that are. -/
structure Covered (hooks : AllowlistHooks) : Prop where
  now : hooks.passed = hooks.changes → ∀ id connection, hooks.Stands id connection →
    hooks.admits connection.remoteId connection.alpn = true
  walk : ∀ walk, hooks.evictor = .walking walk → walk.began = hooks.changes →
    ∀ id connection, hooks.Stands id connection →
      hooks.admits connection.remoteId connection.alpn = true ∨ (connection.remoteId, id) ∈ walk.left

/-- Who is admitted is for the members and the Raft peers to say. -/
theorem admits_congr (hallowed : next.isAllowed = hooks.isAllowed)
    (hraft : next.isRaftPeer = hooks.isRaftPeer) : next.admits = hooks.admits := by
  funext peer alpn
  rw [admits, hallowed, hraft, admits]

/-- What is left aside covers what was covered. -/
theorem Covered.aside (h : Covered hooks) (haside : Aside hooks next) : Covered next := by
  have hadmits : next.admits = hooks.admits := admits_congr haside.isAllowed haside.isRaftPeer
  refine ⟨?_, ?_⟩
  · intro hpassed id connection hstands
    rw [haside.passed, haside.changes] at hpassed
    exact hadmits ▸ h.now hpassed id connection (haside.stands id connection hstands)
  · intro walk hwalk hbegan id connection hstands
    rcases haside.evictor with hsame | hnone
    · rw [hsame] at hwalk
      rw [haside.changes] at hbegan
      exact hadmits ▸ h.walk walk hwalk hbegan id connection (haside.stands id connection hstands)
    · exact absurd hwalk (hnone walk)

/-- A change has yet to be followed by a walk, and the walk under way began before it. -/
theorem covered_alters (h : Kept hooks) (halters : Alters hooks next) : Covered next := by
  refine ⟨?_, ?_⟩
  · intro hpassed
    rw [halters.passed, halters.changes] at hpassed
    exact absurd h.passed (hpassed ▸ Nat.not_succ_le_self _)
  · intro walk hwalk hbegan
    rw [halters.evictor] at hwalk
    rw [halters.changes] at hbegan
    exact absurd (h.began walk hwalk) (hbegan ▸ Nat.not_succ_le_self _)

/-- What is recorded has to be admitted only if nothing is to walk the table any more. -/
theorem Covered.recorded (h : Covered hooks) (hlocked : hooks.locked = false)
    (hok : hooks.passed = hooks.changes → connection.live = true →
      hooks.admits connection.remoteId connection.alpn = true) :
    Covered (hooks.recorded id connection) := by
  refine ⟨?_, ?_⟩
  · intro hpassed other found hstands
    rcases stands_put hstands with ⟨-, hbefore⟩ | ⟨-, rfl, -, hlive⟩
    · exact h.now hpassed other found hbefore
    · exact hok hpassed hlive
  · intro walk hwalk
    -- a walk has the lock
    rw [locked, show hooks.evictor = .walking walk from hwalk] at hlocked
    cases hlocked

/-- A walk that starts has the whole table before it. -/
theorem covered_walkStarted (h : Kept hooks) (hcovered : Covered hooks) {peers : List MemberId}
    (hpeers : peers.Perm hooks.connections.keys) : Covered (hooks.walkStarted peers) := by
  refine ⟨hcovered.now, ?_⟩
  intro walk hwalk _ id connection hstands
  cases hwalk
  right
  have hmem : id ∈ hooks.handles connection.remoteId := h.tracked id connection hstands
  refine List.mem_flatMap.mpr ⟨connection.remoteId, ?_, List.mem_map.mpr ⟨id, hmem, rfl⟩⟩
  rw [hpeers.mem_iff, Std.ExtTreeMap.mem_keys]
  by_contra hnot
  rw [handles, Std.ExtTreeMap.getElem?_eq_none hnot] at hmem
  cases hmem

/-- What a walk leaves open behind it is admitted. -/
theorem Covered.visits (h : Covered hooks) (hwalk : hooks.evictor = .walking walk)
    (hleft : walk.left = (connection.remoteId, handle) :: left)
    (hseen : hooks.seen[handle]? = some connection)
    (hvisits : Visits hooks next walk handle connection left) : Covered next := by
  have hadmits : next.admits = hooks.admits := admits_congr hvisits.isAllowed hvisits.isRaftPeer
  refine ⟨?_, ?_⟩
  · intro hpassed id found hstands
    rw [hvisits.passed, hvisits.changes] at hpassed
    exact hadmits ▸ h.now hpassed id found (hvisits.stands id found hstands)
  · intro later hlater hbegan id found hstands
    rw [hvisits.evictor] at hlater
    cases hlater
    rw [hadmits]
    have hbefore := hvisits.stands id found hstands
    rcases h.walk walk hwalk (hbegan.trans hvisits.changes) id found hbefore with hadmitted | hmem
    · exact Or.inl hadmitted
    · rw [hleft, List.mem_cons] at hmem
      rcases hmem with heq | hmem
      · -- the one it has come to
        obtain ⟨-, rfl⟩ := Prod.mk.inj heq
        obtain rfl := Option.some.inj (hbefore.1.symm.trans hseen)
        exact Or.inl (hvisits.admitted hstands)
      · exact Or.inr hmem

/-- A walk that has come to its end has left nobody in who is not admitted. -/
theorem Covered.evictOnce (h : Covered hooks) (hkept : Kept hooks) (hwalk : hooks.evictor = .walking walk) :
    Covered (hooks.evictOnce walk) := by
  rcases evictOnce_cases (hkept.walked walk hwalk) with
    ⟨hleft, hnext⟩ | ⟨handle, connection, left, hleft, hseen, hvisits | ⟨-, hnext⟩⟩
  · rw [hnext]
    refine ⟨?_, fun later hlater => by cases hlater⟩
    intro hpassed id found hstands
    rcases h.walk walk hwalk hpassed id found hstands with hadmitted | hmem
    · exact hadmitted
    · rw [hleft] at hmem
      cases hmem
  · exact h.visits hwalk hleft hseen hvisits
  · rw [hnext]
    refine ⟨h.now, ?_⟩
    intro later hlater
    cases hlater
    exact h.walk walk hwalk

/-- **After every change a walk covers the table**, as long as no connection is recorded
behind its back. -/
theorem Covered.step (h : Covered hooks) (hkept : Kept hooks) {s : Step} (hok : hooks.RecordedInTime s) :
    Covered (hooks.step s) := by
  rcases step_cases hooks s with haside | halters | ⟨id, connection, rfl, hseen, hstage, hlocked, hnext⟩ |
    ⟨peers, hpeers, hnext⟩ | ⟨walk, hwalk, hnext⟩
  · exact h.aside haside
  · exact covered_alters hkept halters
  · rw [hnext]
    exact h.recorded hlocked (hok connection hseen hstage hlocked)
  · exact hnext ▸ covered_walkStarted hkept h hpeers
  · exact hnext ▸ h.evictOnce hkept hwalk

theorem covered_start (selfId : MemberId) (members : Finset MemberId) : Covered (start selfId members) := by
  refine ⟨?_, fun walk hwalk => by cases hwalk⟩
  intro _ id connection hstands
  have hnone : (start selfId members).seen[id]? = none := Std.ExtTreeMap.getElem?_empty
  exact absurd (hnone.symm.trans hstands.1) fun h => by cases h

/-! ## No connection escapes -/

section Run

variable {selfId : MemberId} {members : Finset MemberId}

/-- As long as every handshake is recorded in time, the table has what is open and what is open is
admitted. -/
theorem reached {steps : List Step} (h : Along step RecordedInTime (start selfId members) steps) :
    Kept (exec step (start selfId members) steps) ∧ Covered (exec step (start selfId members) steps) := by
  refine Along.invariant (I := fun hooks => Kept hooks ∧ Covered hooks) ?_
    ⟨kept_start selfId members, covered_start selfId members⟩ h
  rintro hooks s ⟨hkept, hcovered⟩ hok
  exact ⟨hkept.step s, hcovered.step hkept hok⟩

/-- Where a handshake is recorded too late, and no other is between its check and its record, its
connection has escaped. -/
theorem recorded_in_time (halone : ∀ (other : ConnectionId) (found : Connection),
      hooks.seen[other]? = some found → found.stage = .admitted → other = id)
    (hnone : (hooks.step (.afterHandshake id)).NoneEscaped) : hooks.RecordedInTime (.afterHandshake id) := by
  intro connection hseen hstage hlocked hpassed hlive
  have hnext : hooks.step (.afterHandshake id) = hooks.recorded id connection := by
    rw [step, afterHandshake, show hooks.seen[id]? = some connection from hseen]
    dsimp only
    rw [hstage]
    dsimp only
    rw [hlocked, if_neg Bool.false_ne_true, AllowlistHooks.recorded]
  rw [hnext] at hnone
  refine hnone hpassed ?_ id { connection with stage := .accepted } ?_
  · intro other found hfound hadmitted
    rw [recorded, put, Std.ExtTreeMap.getElem?_insert] at hfound
    split at hfound
    · cases hfound
      cases hadmitted
    · rename_i hne
      exact hne (compare_eq_iff_eq.mpr (halone other found hfound hadmitted).symm)
  · exact ⟨Std.ExtTreeMap.getElem?_insert_self, rfl, hlive⟩

/-- **No connection escapes that is recorded in time.** Whatever the order of handshakes, changes
and walks: as long as every handshake is recorded while a walk is still to follow the last
change, while its peer is admitted, or when its connection is over, everybody connected is
admitted once every change has been followed by a completed walk and no handshake is under way.
And the next handshake to be recorded, if no other is under way, leaves that so only if it is in
time as well. -/
theorem no_escape (steps : List Step) (h : Along step RecordedInTime (start selfId members) steps) :
    NoneEscaped (exec step (start selfId members) steps) ∧
      ∀ id, (∀ (other : ConnectionId) (found : Connection),
          (exec step (start selfId members) steps).seen[other]? = some found →
          found.stage = .admitted → other = id) →
        (NoneEscaped (exec step (start selfId members) (steps ++ [.afterHandshake id])) ↔
          RecordedInTime (exec step (start selfId members) steps) (.afterHandshake id)) := by
  refine ⟨fun hpassed _ => (reached h).2.now hpassed, fun id halone => ⟨?_, ?_⟩⟩
  · rw [exec_append, exec_cons, exec_nil]
    exact recorded_in_time halone
  · intro hok
    have hlonger : Along step RecordedInTime (start selfId members) (steps ++ [.afterHandshake id]) :=
      along_append.mpr ⟨h, hok, trivial⟩
    exact fun hpassed _ => (reached hlonger).2.now hpassed

end Run

namespace Sample

/-- this node -/
def me : MemberId := ⟨0⟩

def bob : MemberId := ⟨1⟩

/-- Bob connects, and is expelled once his connection is recorded. -/
def expelled : List Step :=
  [.subscribes, .arrives 0 bob "distlib/ping/0", .afterHandshake 0, .afterHandshake 0, .replace ∅,
    .wakes .allowlist, .walks [bob], .evicts, .evicts, .evicts]

/-- Bob is expelled between the check and the record. -/
def escapes : List Step :=
  [.subscribes, .arrives 0 bob "distlib/ping/0", .afterHandshake 0, .replace ∅,
    .wakes .allowlist, .walks [], .evicts, .afterHandshake 0]

/-- An expulsion closes what is recorded. -/
theorem bob_closed :
    Along step RecordedInTime (start me {bob}) expelled ∧
      NoneEscaped (exec step (start me {bob}) expelled) :=
  have hinTime : Along step RecordedInTime (start me {bob}) expelled := by decide +kernel
  ⟨hinTime, (no_escape expelled hinTime).1⟩

/-- An expulsion that is over before the record leaves Bob connected. -/
theorem bob_escapes : ¬ NoneEscaped (exec step (start me {bob}) escapes) := by
  intro hnone
  have hseen : (exec step (start me {bob}) escapes).seen =
      (∅ : OrdMap ConnectionId Connection).insert 0 ⟨bob, "distlib/ping/0", true, .accepted⟩ := by
    decide +kernel
  have hadmits : (exec step (start me {bob}) escapes).admits bob "distlib/ping/0" = true := by
    refine hnone (by decide +kernel) ?_ 0 ⟨bob, "distlib/ping/0", true, .accepted⟩ ⟨?_, rfl, rfl⟩
    · intro id connection hfound
      rw [hseen, Std.ExtTreeMap.getElem?_insert, Std.ExtTreeMap.getElem?_empty] at hfound
      split at hfound
      · cases hfound
        exact fun h => by cases h
      · cases hfound
    · rw [hseen, Std.ExtTreeMap.getElem?_insert_self]
  have hnot : (exec step (start me {bob}) escapes).admits bob "distlib/ping/0" = false := by
    decide +kernel
  rw [hnot] at hadmits
  cases hadmits

end Sample

end AllowlistHooks

end Distlib
