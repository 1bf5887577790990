import Distlib.Core.GroupSettings

/-!
# The vocabulary of the membership log

Every change to who belongs to the group is one `MembershipEvent`, carried by
a `SignedEvent` that says who proposed it and against which membership. The
event inside an envelope is reached only through `SignedEvent.event`, which
checks the signature first; there is no other accessor.

Two things the program takes from libraries are parameters, bundled as
`Signing`: the canonical encoding of what a signature covers, and the check of
a signature against a key. Nothing is assumed of either. An encoding may fail,
a check may accept anything: the rules of the fold hold all the same.
-/

namespace Distlib

/-- Milliseconds since the Unix epoch, by the proposer's clock. Nothing
compares these to decide what happened first. -/
structure Timestamp where
  /-- the count -/
  millis : ℕ
  deriving DecidableEq, Repr

/-- An ed25519 signature. -/
structure Signature where
  /-- the 64 bytes, as one number -/
  bytes : BitVec 512
  deriving DecidableEq, Repr

/-- Who a member is, as founding or admission states it. -/
structure MemberProfile where
  /-- the member's identity -/
  memberId : MemberId
  /-- display name; two members may share one -/
  displayName : String
  deriving DecidableEq, Repr

/-- A change to the group's membership. -/
inductive MembershipEvent : Type where
  /-- the first entry: the group, its founders with their addresses, and what
  it decided for good -/
  | groupFounded (groupId : GroupId) (founders : List (MemberProfile × NodeAddr))
      (settings : GroupSettings)
  /-- a new member joins, an expelled one returns, or a record is corrected -/
  | memberAdded (member : MemberProfile)
  /-- a member is removed -/
  | memberExpelled (member : MemberId) (reason : String)
  /-- a member revises its storage commitment -/
  | pledgeChanged (member : MemberId) (pledgeBytes : ℕ)
  /-- the whole desired core group, addresses included -/
  | coreGroupChanged (core : List (MemberId × NodeAddr))
  /-- a core member agrees to the proposal made at that log index -/
  | approved (proposal : ℕ)
  /-- the member who made a proposal takes it back -/
  | withdrawn (proposal : ℕ)
  /-- a member's build speaks every group protocol up to `max` -/
  | protocolSupported (member : MemberId) (max : UInt32)
  /-- the group moves to another protocol -/
  | protocolRaised (newProtocol : UInt32)
  deriving DecidableEq

/-- Why an event could not be produced or applied. -/
inductive ConsensusError : Type where
  /-- the signature does not match the proposer's key -/
  | badSignature (proposer : MemberId)
  /-- an event arrived before the group was founded -/
  | notFounded
  /-- a second founding arrived -/
  | alreadyFounded
  /-- the founding event leaves out the member who signed it -/
  | founderNotIncluded (proposer : MemberId)
  /-- a group was founded with nobody in it -/
  | noFounders
  /-- the same member appears twice among the founders -/
  | duplicateFounder (member : MemberId)
  /-- the proposer is not currently a member -/
  | proposerNotAMember (proposer : MemberId)
  /-- the event refers to somebody who is not a member -/
  | unknownMember (member : MemberId)
  /-- a core group with a non-member, nobody at all, or a member twice -/
  | invalidCoreGroup
  /-- a member tried to set somebody else's pledge -/
  | pledgeNotOwn (proposer member : MemberId)
  /-- a pledge below the group's minimum -/
  | pledgeBelowMinimum (pledgeBytes minPledgeBytes : ℕ)
  /-- a non-core member tried to change the voters -/
  | notCoreMember (proposer : MemberId)
  /-- something about the same subject is waiting already -/
  | alreadyPending (proposal : ℕ)
  /-- no proposal is waiting at that index -/
  | unknownProposal (proposal : ℕ)
  /-- an approval arrived past the proposal's expiry -/
  | proposalExpired (proposal index : ℕ)
  /-- somebody outside the core group tried to approve -/
  | approverNotCore (approver : MemberId)
  /-- somebody tried to approve their own expulsion -/
  | selfApproval (member : MemberId)
  /-- somebody other than its proposer tried to withdraw a proposal -/
  | notTheProposer (member : MemberId) (proposal : ℕ)
  /-- an approval or a withdrawal reached the path that applies changes -/
  | notAMembershipChange
  /-- the proposal was made against a membership that has since changed -/
  | staleProposal (seen current : ℕ)
  /-- a free-text field is longer than the log will carry -/
  | tooLong (field : String) (length limit : ℕ)
  /-- an event could not be encoded -/
  | encode (message : String)
  /-- the group was founded with settings that contradict each other -/
  | invalidSettings (reason : String)
  /-- a member's protocol support is its own to state -/
  | protocolSupportNotOwn (proposer member : MemberId)
  /-- a member said it supports less than the group already speaks -/
  | protocolSupportBelowGroup (max protocol : UInt32)
  /-- a raise goes one protocol up at a time -/
  | protocolNotNext (newProtocol protocol : UInt32)
  /-- a core member, or one being made core, does not support the protocol -/
  | coreLacksProtocol (member : MemberId) (protocol : UInt32)
  deriving DecidableEq

/-! ## The rules an event answers for by itself -/

/-- Refuses settings that contradict each other. -/
def checkSettings (settings : GroupSettings) : Except ConsensusError Unit :=
  settings.check.mapError ConsensusError.invalidSettings

/-- The founders' ids, sorted, if the set is a valid one: non-empty, and no
member twice. On a sorted list a repeat is a pair of neighbours. -/
def checkedIds (founders : List (MemberProfile × NodeAddr)) :
    Except ConsensusError (List MemberId) :=
  if founders.isEmpty then .error .noFounders
  else
    let ids := (founders.map fun founder => founder.1.memberId).insertionSort
      fun a b => (compare a b).isLE
    match (ids.zip ids.tail).find? fun pair => pair.1 == pair.2 with
    | some pair => .error (.duplicateFounder pair.1)
    | none => .ok ids

/-- The rule a founder set must satisfy. -/
def checkFounders (founders : List (MemberProfile × NodeAddr)) : Except ConsensusError Unit :=
  (checkedIds founders).map fun _ => ()

theorem checkFounders_ne_nil {founders : List (MemberProfile × NodeAddr)}
    (h : checkFounders founders = .ok ()) : founders ≠ [] := by
  rintro rfl
  cases h

/-- The longest a member's display name may be, in bytes. -/
def MAX_DISPLAY_NAME : ℕ := 64

/-- The longest the reason on an expulsion may be, in bytes. -/
def MAX_REASON : ℕ := 512

def within (field text : String) (limit : ℕ) : Except ConsensusError Unit :=
  if text.utf8ByteSize > limit then .error (.tooLong field text.utf8ByteSize limit) else .ok ()

/-- Checks the free text an event carries: before it is proposed, and not while
it is folded. -/
def MembershipEvent.withinLimits : MembershipEvent → Except ConsensusError Unit
  | .groupFounded _ founders _ =>
    founders.forM fun founder => within "display_name" founder.1.displayName MAX_DISPLAY_NAME
  | .memberAdded member => within "display_name" member.displayName MAX_DISPLAY_NAME
  | .memberExpelled _ reason => within "reason" reason MAX_REASON
  | _ => .ok ()

/-! ## Signed events -/

/-- What the program takes from its encoder and its signature scheme. -/
structure Signing where
  /-- the canonical bytes of an event, its proposer, its time and the
  membership it was proposed against; fails with a message -/
  postcard : MembershipEvent → MemberId → Timestamp → ℕ → Except String (List UInt8)
  /-- whether a signature over the bytes is by the holder of the key -/
  verify : MemberId → List UInt8 → Signature → Bool

/-- Domain separation for membership signatures: `distlib.membership.v2`. -/
def signingDomain : List UInt8 := "distlib.membership.v2".toUTF8.toList

/-- A membership event, with the member who proposed it and their signature. -/
structure SignedEvent where
  /-- the event, reached only through `SignedEvent.event` -/
  payload : MembershipEvent
  /-- who proposed it -/
  proposer : MemberId
  /-- when, by the proposer's clock -/
  sentAt : Timestamp
  /-- the membership it was proposed against -/
  changedAt : ℕ
  /-- the proposer's signature over all of the above -/
  signature : Signature
  deriving DecidableEq

/-- What a member signs with: the identity it stands for, and its signatures. -/
structure SecretKey where
  member : MemberId
  sign : List UInt8 → Signature

namespace SignedEvent

variable (sig : Signing)

/-- The exact bytes a signature covers. -/
def signingPayload (signed : SignedEvent) : Except ConsensusError (List UInt8) :=
  match sig.postcard signed.payload signed.proposer signed.sentAt signed.changedAt with
  | .error message => .error (.encode message)
  | .ok bytes => .ok (signingDomain ++ bytes)

/-- Checks the signature against the proposer's key. -/
def verify (signed : SignedEvent) : Except ConsensusError Unit :=
  match signed.signingPayload sig with
  | .error error => .error error
  | .ok payload =>
    if sig.verify signed.proposer payload signed.signature then .ok ()
    else .error (.badSignature signed.proposer)

/-- The event, once its signature checks out. -/
def event (signed : SignedEvent) : Except ConsensusError MembershipEvent :=
  match signed.verify sig with
  | .error error => .error error
  | .ok () => .ok signed.payload

/-- Signs `event` as proposed by the holder of `secretKey`, against the membership
as of `changedAt`. -/
def sign (secretKey : SecretKey) (event : MembershipEvent) (sentAt : Timestamp) (changedAt : ℕ) :
    Except ConsensusError SignedEvent :=
  let unsigned : SignedEvent :=
    { payload := event, proposer := secretKey.member, sentAt, changedAt, signature := ⟨0⟩ }
  match unsigned.signingPayload sig with
  | .error error => .error error
  | .ok payload => .ok { unsigned with signature := secretKey.sign payload }

variable {sig}

/-- What signing states. -/
theorem sign_eq_ok {secretKey : SecretKey} {event : MembershipEvent} {sentAt : Timestamp}
    {changedAt : ℕ} {signed : SignedEvent}
    (h : sign sig secretKey event sentAt changedAt = .ok signed) :
    signed.payload = event ∧ signed.changedAt = changedAt := by
  simp only [sign] at h
  split at h
  · cases h
  · obtain rfl := Except.ok.inj h
    exact ⟨rfl, rfl⟩

/-- The event that is reached is the one that was signed. -/
theorem event_eq_ok {signed : SignedEvent} {event : MembershipEvent}
    (h : signed.event sig = .ok event) : signed.verify sig = .ok () ∧ signed.payload = event := by
  rw [SignedEvent.event] at h
  rcases hv : signed.verify sig with error | ⟨⟩ <;> rw [hv] at h
  · cases h
  · exact ⟨rfl, Except.ok.inj h⟩

end SignedEvent

/-! ## Concrete entries

What a run that can be evaluated is made of: a scheme under which every
signature is its proposer's, four members, and entries by them. -/

/-- A scheme that accepts every signature. -/
def Signing.accepting : Signing where
  postcard _ _ _ _ := .ok []
  verify _ _ _ := true

def alice : MemberId := ⟨1⟩

def bob : MemberId := ⟨2⟩

def carol : MemberId := ⟨3⟩

def dave : MemberId := ⟨4⟩

/-- `event`, proposed by `member` against the membership of `changedAt`. -/
def SignedEvent.signedBy (member : MemberId) (changedAt : ℕ) (event : MembershipEvent) : SignedEvent where
  payload := event
  proposer := member
  sentAt := ⟨0⟩
  changedAt := changedAt
  signature := ⟨0⟩

/-- A signed entry is verified under the accepting scheme. -/
theorem SignedEvent.event_signedBy (member : MemberId) (changedAt : ℕ) (event : MembershipEvent) :
    (SignedEvent.signedBy member changedAt event).event .accepting = .ok event :=
  rfl

end Distlib
