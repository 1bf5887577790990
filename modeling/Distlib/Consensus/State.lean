import Distlib.Lib.IndexedLog
import Distlib.Consensus.Event

/-!
# The projection: committed events folded into who the group is

`MembershipState` and every function of the program that reads or writes it.
A method that mutates is a function returning the verdict *and* the state left
behind, also when the verdict is a refusal: what a refused entry leaves behind
is exactly what is at stake, so it must not be dropped by the embedding.

The fold is a pure function of the log. `apply` verifies an entry, checks that
it was proposed against the current membership, and dispatches: the founding,
an approval, a withdrawal, or a submission. A submission takes effect at once
(`enact`) when the approvals it arrives with decide it, and waits in `pending`
otherwise.

Protocol numbers are `UInt32`, as in the program, and their arithmetic is that
of its release build, which wraps.
-/

namespace Distlib

/-- The group protocol every group is founded at, and what a member supports
until it states otherwise. -/
def FIRST_PROTOCOL : UInt32 := 1

/-- The newest group protocol this build speaks. -/
def PROTOCOL_MAX : UInt32 := 1

/-- What is known about one member: who they are, and what they pledge. -/
structure MemberRecord where
  memberId : MemberId
  displayName : String
  pledgeBytes : ℕ
  protocolMax : UInt32
  deriving DecidableEq

/-- `profile`'s record, with that pledge and that protocol support. -/
def MemberRecord.of (profile : MemberProfile) (pledgeBytes : ℕ) (protocolMax : UInt32) :
    MemberRecord where
  memberId := profile.memberId
  displayName := profile.displayName
  pledgeBytes := pledgeBytes
  protocolMax := protocolMax

/-- A submitted change that has not yet collected the approvals it needs. -/
structure Proposal where
  event : MembershipEvent
  proposer : MemberId
  /-- everyone who ever approved; not all of them still count -/
  approvals : Finset MemberId
  deriving DecidableEq

/-- Who the group is, as of the events applied so far. -/
structure MembershipState where
  group : Option GroupId
  members : OrdMap MemberId MemberRecord
  /-- the Raft voters, each with the address the group records for it -/
  core : OrdMap MemberId NodeAddr
  /-- proposals waiting for approvals, by the log index they were made at -/
  pending : OrdMap ℕ Proposal
  /-- log index of the last entry that changed this state -/
  changedAt : ℕ
  settings : GroupSettings
  protocol : UInt32
  deriving DecidableEq

/-- A verdict, and the state the call leaves behind whatever the verdict. -/
abbrev Outcome : Type := Except ConsensusError Unit × MembershipState

/-! ## What an event is about -/

/-- The member an event is *about*, where their own approval must not count:
expulsion only. -/
def target : MembershipEvent → Option MemberId
  | .memberExpelled member _ => some member
  | _ => none

/-- What an event is about, for deciding which pending proposals conflict. -/
inductive Subject : Type where
  | member : MemberId → Subject
  | coreGroup
  | protocol
  deriving DecidableEq

def subject : MembershipEvent → Option Subject
  | .memberAdded member => some (.member member.memberId)
  | .memberExpelled member _ => some (.member member)
  | .coreGroupChanged _ => some .coreGroup
  | .protocolRaised _ => some .protocol
  | _ => none

/-- A proposed core group as the map it folds into; of two entries for one
member the later one stands. -/
def coreMap (core : List (MemberId × NodeAddr)) : OrdMap MemberId NodeAddr :=
  .ofList core compare

/-- Whether the core group just enacted leaves `proposed` unsafe to approve: it
names a member the change moved, at anything other than where the change put
them. -/
def supersededBy (proposed : List (MemberId × NodeAddr))
    (before now : OrdMap MemberId NodeAddr) : Bool :=
  let proposed := coreMap proposed
  (before.keys ++ now.keys).any fun member =>
    before[member]? ≠ now[member]? &&
      proposed[member]?.any fun wants => some wants ≠ now[member]?

namespace MembershipState

/-- An empty state, before any event has been applied. -/
def new : MembershipState where
  group := none
  members := ∅
  core := ∅
  pending := ∅
  changedAt := 0
  settings := default
  protocol := 0

/-! ## Reading the state -/

/-- Whether `member` is currently a Raft voter. -/
def isCore (s : MembershipState) (member : MemberId) : Bool := s.core.contains member

/-- Whether `member` currently belongs to the group. -/
def isMember (s : MembershipState) (member : MemberId) : Bool := s.members.contains member

/-- Whether `member` is one whose build speaks `protocol`. -/
def speaks (s : MembershipState) (member : MemberId) (protocol : UInt32) : Bool :=
  s.members[member]?.any fun record => record.protocolMax ≥ protocol

/-- Refuses a pledge below the group's minimum. -/
def checkPledge (s : MembershipState) (pledgeBytes : ℕ) : Except ConsensusError Unit :=
  let minPledgeBytes := s.settings.minPledgeBytes
  if pledgeBytes < minPledgeBytes then .error (.pledgeBelowMinimum pledgeBytes minPledgeBytes)
  else .ok ()

/-- Refuses if any of `core` does not support `protocol`, naming the first. -/
def coreSupports (s : MembershipState) (core : List MemberId) (protocol : UInt32) :
    Except ConsensusError Unit :=
  match core.find? fun member => !s.speaks member protocol with
  | some member => .error (.coreLacksProtocol member protocol)
  | none => .ok ()

/-- Whether this proposer may *submit* this event. -/
def authorise (s : MembershipState) (proposer : MemberId) (event : MembershipEvent) :
    Except ConsensusError Unit :=
  match event with
  | .pledgeChanged member pledgeBytes =>
    if member ≠ proposer then .error (.pledgeNotOwn proposer member)
    else s.checkPledge pledgeBytes
  | .coreGroupChanged _ =>
    if !s.core.contains proposer then .error (.notCoreMember proposer) else .ok ()
  | .approved _ =>
    if !s.core.contains proposer then .error (.approverNotCore proposer) else .ok ()
  | .protocolSupported member max =>
    if member ≠ proposer then .error (.protocolSupportNotOwn proposer member)
    else if max < s.protocol then .error (.protocolSupportBelowGroup max s.protocol)
    else .ok ()
  | .protocolRaised newProtocol =>
    -- the addition wraps at 2 ^ 32
    if newProtocol ≠ s.protocol + 1 then .error (.protocolNotNext newProtocol s.protocol)
    else s.coreSupports s.core.keys newProtocol
  | _ => .ok ()

/-- Whether `event` would move the set of Raft voters. -/
def changesTheVoters (s : MembershipState) : MembershipEvent → Bool
  | .memberExpelled member _ => s.isCore member
  | .coreGroupChanged core =>
    core.length ≠ s.core.size || core.any fun entry => !s.core.contains entry.1
  | _ => false

/-- How many core approvals `event` needs before it takes effect. -/
def approvalsNeeded (s : MembershipState) (event : MembershipEvent) : ℕ :=
  match event with
  | .pledgeChanged _ _ => 0
  | .protocolSupported _ _ => 0
  | .protocolRaised _ => s.core.size / 2 + 1
  | event => if s.changesTheVoters event then s.core.size / 2 + 1 else 1

/-- Those of `approvals` given by members who are core *now*. -/
def counting (s : MembershipState) (approvals : Finset MemberId) : Finset MemberId :=
  approvals.filter fun member => s.isCore member

/-- Whether `approvals` are enough for `event` to take effect: the only place
a threshold is decided. -/
def decided (s : MembershipState) (event : MembershipEvent) (approvals : Finset MemberId) : Bool :=
  (s.counting approvals).card ≥ s.approvalsNeeded event

/-- Whether the proposal made at `proposal` is past its deadline at `index`. -/
def expired (s : MembershipState) (proposal index : ℕ) : Bool :=
  index - proposal > s.settings.pendingExpiry

/-- Whether the rules still allow `approver` to approve `entry`. -/
def stillAllowed (s : MembershipState) (index proposal : ℕ) (entry : Proposal)
    (approver : MemberId) : Except ConsensusError Unit :=
  if s.expired proposal index then .error (.proposalExpired proposal index)
  else if target entry.event = some approver then .error (.selfApproval approver)
  else if !s.members.contains entry.proposer then .error (.proposerNotAMember entry.proposer)
  else s.authorise entry.proposer entry.event

/-! ## Changing the state -/

/-- The group as its founding event establishes it: the founders are both the
members and the voters, at the addresses they founded with. -/
def withFounders (s : MembershipState) (groupId : GroupId)
    (founders : List (MemberProfile × NodeAddr)) (settings : GroupSettings) : MembershipState :=
  { s with
    group := some groupId
    settings := settings
    protocol := FIRST_PROTOCOL
    members := .ofList (founders.map fun founder =>
      (founder.1.memberId, MemberRecord.of founder.1 0 FIRST_PROTOCOL)) compare
    core := coreMap (founders.map fun founder => (founder.1.memberId, founder.2)) }

def found (s : MembershipState) (groupId : GroupId)
    (founders : List (MemberProfile × NodeAddr)) (settings : GroupSettings)
    (proposer : MemberId) : Outcome :=
  if s.group.isSome then (.error .alreadyFounded, s)
  else
    match checkFounders founders with
    | .error error => (.error error, s)
    | .ok () =>
      match checkSettings settings with
      | .error error => (.error error, s)
      | .ok () =>
        if !founders.any fun founder => founder.1.memberId = proposer then
          (.error (.founderNotIncluded proposer), s)
        else (.ok (), s.withFounders groupId founders settings)

/-- The two fields of a record its own member owns, as they stand; of somebody
without a record, what a new member starts with. -/
def ownFields (s : MembershipState) (member : MemberId) : ℕ × UInt32 :=
  match s.members[member]? with
  | some had => (had.pledgeBytes, had.protocolMax)
  | none => (0, FIRST_PROTOCOL)

/-- Puts one decided event into a founded group. -/
def applyToFoundedGroup (s : MembershipState) (event : MembershipEvent) : Outcome :=
  match event with
  | .groupFounded _ _ _ => (.error .alreadyFounded, s)
  | .memberAdded member =>
    -- also how a record is corrected: the correction keeps the owned fields
    let own := s.ownFields member.memberId
    (.ok (),
      { s with
        members := s.members.insert member.memberId (MemberRecord.of member own.1 own.2) })
  | .memberExpelled member _ =>
    -- removed first and refused after, when there was nobody to remove
    let removed := s.members[member]?
    let s := { s with members := s.members.erase member }
    match removed with
    | none => (.error (.unknownMember member), s)
    | some _ => (.ok (), { s with core := s.core.erase member })
  | .pledgeChanged member pledgeBytes =>
    match s.members[member]? with
    | none => (.error (.unknownMember member), s)
    | some record =>
      (.ok (), { s with members := s.members.insert member { record with pledgeBytes } })
  | .coreGroupChanged core =>
    if core.isEmpty || !core.all fun entry => s.members.contains entry.1 then
      (.error .invalidCoreGroup, s)
    else
      let folded := coreMap core
      if folded.size ≠ core.length then (.error .invalidCoreGroup, s)
      else
        match s.coreSupports folded.keys s.protocol with
        | .error error => (.error error, s)
        | .ok () => (.ok (), { s with core := folded })
  | .protocolSupported member max =>
    match s.members[member]? with
    | none => (.error (.unknownMember member), s)
    | some record =>
      (.ok (), { s with members := s.members.insert member { record with protocolMax := max } })
  | .protocolRaised newProtocol => (.ok (), { s with protocol := newProtocol })
  | .approved _ => (.error .notAMembershipChange, s)
  | .withdrawn _ => (.error .notAMembershipChange, s)

/-- Whether a waiting proposal stands after an event about `about` moved the
core group from `before` to `now`. -/
def standsAfter (about : Option Subject) (before now : OrdMap MemberId NodeAddr)
    (waiting : Proposal) : Bool :=
  match waiting.event with
  | .coreGroupChanged proposed => !supersededBy proposed before now
  | other => subject other ≠ about

/-- Puts a decided change into the state, and drops the pending proposals it
has made stale. -/
def enact (s : MembershipState) (event : MembershipEvent) : Outcome :=
  let before := s.core
  match s.applyToFoundedGroup event with
  | (.error error, s) => (.error error, s)
  | (.ok (), s) =>
    (.ok (),
      { s with
        pending := s.pending.filter fun _ waiting =>
          standsAfter (subject event) before s.core waiting })

/-- The approvals a submission arrives with: its proposer's own, when they are
core and the event is not their own expulsion. -/
def firstApprovals (s : MembershipState) (proposer : MemberId) (event : MembershipEvent) :
    Finset MemberId :=
  if s.isCore proposer && target event ≠ some proposer then {proposer} else ∅

/-- The waiting proposal that holds the slot of `event`'s subject, if one does:
the oldest that has not expired. -/
def slotHolder (s : MembershipState) (index : ℕ) (event : MembershipEvent) : Option ℕ :=
  match subject event with
  | none => none
  | some proposedAbout =>
    (s.pending.toList.find? fun waiting =>
      !s.expired waiting.1 index && subject waiting.2.event = some proposedAbout).map Prod.fst

/-- Records a submitted change, applying it at once if the approvals it arrives
with are already every approval it needs. -/
def submit (s : MembershipState) (index : ℕ) (proposer : MemberId) (event : MembershipEvent) :
    Outcome :=
  let approvals := s.firstApprovals proposer event
  if s.decided event approvals then s.enact event
  else
    match s.slotHolder index event with
    | some waiting => (.error (.alreadyPending waiting), s)
    | none =>
      (.ok (), { s with pending := s.pending.insert index { event, proposer, approvals } })

/-- Records `approver`'s agreement, applying the proposal if that was the last
approval it needed. -/
def approve (s : MembershipState) (index proposal : ℕ) (approver : MemberId) : Outcome :=
  match s.pending[proposal]? with
  | none => (.error (.unknownProposal proposal), s)
  | some entry =>
    -- taken out for the duration; every refusal below puts it back
    let s := { s with pending := s.pending.erase proposal }
    match s.stillAllowed index proposal entry approver with
    | .error error => (.error error, { s with pending := s.pending.insert proposal entry })
    | .ok () =>
      let approvals := insert approver entry.approvals
      if !s.decided entry.event approvals then
        (.ok (), { s with pending := s.pending.insert proposal { entry with approvals } })
      else
        match s.enact entry.event with
        | (.ok (), s) => (.ok (), s)
        | (.error error, s) => (.error error, { s with pending := s.pending.insert proposal entry })

/-- Takes back a proposal, at the request of the member who made it. -/
def withdraw (s : MembershipState) (proposal : ℕ) (member : MemberId) : Outcome :=
  match s.pending[proposal]? with
  | none => (.error (.unknownProposal proposal), s)
  | some entry =>
    if entry.proposer ≠ member then (.error (.notTheProposer member proposal), s)
    else (.ok (), { s with pending := s.pending.erase proposal })

/-- What `apply` does with a verified event that is not stale, up to the sweep. -/
def dispatch (s : MembershipState) (index : ℕ) (proposer : MemberId) (event : MembershipEvent) :
    Outcome :=
  match event with
  | .groupFounded groupId founders settings => s.found groupId founders settings proposer
  | event =>
    if s.group.isNone then (.error .notFounded, s)
    else if !s.members.contains proposer then (.error (.proposerNotAMember proposer), s)
    else
      match s.authorise proposer event with
      | .error error => (.error error, s)
      | .ok () =>
        match event with
        | .approved proposal => s.approve index proposal proposer
        | .withdrawn proposal => s.withdraw proposal proposer
        | event => s.submit index proposer event

/-- The end of a successful apply: the state changed at `index`, and whatever
the log has left behind is dropped. -/
def sweep (s : MembershipState) (index : ℕ) : MembershipState :=
  { s with
    changedAt := index
    pending := s.pending.filter fun proposal _ => index - proposal < s.settings.pendingExpiry }

/-- Verifies `signed` and folds it in, as the entry at `index`. -/
def apply (sig : Signing) (s : MembershipState) (index : ℕ) (signed : SignedEvent) : Outcome :=
  match signed.event sig with
  | .error error => (.error error, s)
  | .ok event =>
    if signed.changedAt ≠ s.changedAt then
      (.error (.staleProposal signed.changedAt s.changedAt), s)
    else
      match s.dispatch index signed.proposer event with
      | (.error error, s) => (.error error, s)
      | (.ok (), s) => (.ok (), s.sweep index)

/-- What a log leads to: every entry applied in turn, refusals skipped. -/
def fold (sig : Signing) (log : IndexedLog.Log SignedEvent) : MembershipState :=
  IndexedLog.run (fun s index signed => (s.apply sig index signed).2) new log

end MembershipState

end Distlib
