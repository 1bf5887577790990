import Distlib.Consensus.Follower
import Distlib.Consensus.GroupLog
import Distlib.Lib.LastOf

/-!
# Proposing

`propose` hands a signed event to whoever can commit it. A voter asks its own Raft, and
the leader that names; a follower asks the core nodes it knows of, in turn. An answer may
be lost, and what was asked for may be committed all the same, then or later. The call
asks somebody else, with the same signed event. `propose_and_retry` takes a stale proposal
for somebody else's change, catches up, signs again and proposes again, once.

The state here is one call, every copy of what it submitted with where that copy is, and
the log. Around the call, `World.step` has what openraft and the network may do: anybody
else's entries may be committed between any two steps, a copy may be committed at any time
and once at most, or lost for good, a core node that does not lead may hand it on, and any
answer may be lost. A verdict that does arrive is the one the log gives.

`World.Honest` is what a call promises, and `World.Delivered` what it takes the network to
do for that: an answer is lost, or comes too late, only where nothing was committed.
-/

namespace Distlib

open MembershipState

/-! ## What a proposal comes to -/

/-- Why a forwarded proposal did not take effect. -/
inductive ProposeError : Type where
  | unreachable (member : MemberId) (message : String)
  | notCommitted (message : String)
  /-- committed, and then refused by the rules -/
  | rejected (error : ConsensusError)
  deriving DecidableEq

/-- Why a proposal failed. -/
inductive NodeError : Type where
  | raft
  | event (error : ConsensusError)
  /-- a leader was known but could not be got to commit -/
  | forward (leader : MemberId) (source : ProposeError)
  | noLeader
  | behindTheGroup (changedAt : ℕ)
  /-- committed, but not applied here in time -/
  | notYetApplied (index : ℕ)
  deriving DecidableEq

namespace Memberlog

/-- What the core node answers. -/
inductive ProposeOutcome : Type where
  | applied (index : ℕ)
  | rejected (error : ConsensusError)
  | notCommitted (message : String)
  deriving DecidableEq

/-- What the verdict on a written entry is answered as. -/
def ProposeOutcome.ofWritten : Except ConsensusError ℕ → ProposeOutcome
  | .ok index => .applied index
  | .error error => .rejected error

/-- What asking `member` comes to: nothing was heard of it, or an answer. -/
def propose (member : MemberId) : Except String ProposeOutcome → Except ProposeError ℕ
  | .error message => .error (.unreachable member message)
  | .ok (.applied index) => .ok index
  | .ok (.rejected error) => .error (.rejected error)
  | .ok (.notCommitted message) => .error (.notCommitted message)

/-- What a core node asks of an event before it submits it to its own Raft. -/
def checks (sig : Signing) (signed : SignedEvent) : Except ConsensusError Unit :=
  (signed.event sig).bind MembershipEvent.withinLimits

end Memberlog

namespace Propose

open Memberlog

/-! ## The call -/

/-- How many times a proposal re-checks who the leader is before giving up. -/
def PROPOSE_ATTEMPTS : ℕ := 3

/-- Whether a proposal refused as stale is sent again once caught up. -/
def sentAgainWhenStale : MembershipEvent → Bool
  | .coreGroupChanged _ | .protocolSupported _ _ => false
  | _ => true

/-- One call of `propose`, on the node of `me`. -/
structure Call where
  me : MemberId
  event : MembershipEvent
  secretKey : SecretKey

/-- One `propose_once`: whether it is the second, and what it has signed. -/
structure Round where
  again : Bool
  signed : SignedEvent
  deriving DecidableEq

/-- Where a copy was submitted. -/
inductive Place : Type where
  /-- to this node's own Raft -/
  | own
  | peer
  /-- by a core node, to the leader it knew of -/
  | handedOn
  deriving DecidableEq

/-- Whom a round asks. -/
inductive Way : Type where
  /-- this node's own Raft, with that many attempts after this one -/
  | core (left : ℕ) (unreached : Option (MemberId × ProposeError))
  /-- the leader it named -/
  | leader (leader : MemberId) (left : ℕ)
  /-- a core node, with others to ask after it -/
  | candidate (member : MemberId) (rest : List (MemberId × NodeAddr))
  deriving DecidableEq

/-- Where what a way asks for is submitted. -/
def Way.place : Way → Place
  | .core _ _ => .own
  | .leader _ _ | .candidate _ _ => .peer

/-- Where the call is. -/
inductive Stage : Type where
  /-- about to sign -/
  | proposing (again : Bool)
  /-- about to submit -/
  | submitting (round : Round) (way : Way)
  /-- waiting for the answer to the last submission -/
  | waiting (round : Round) (way : Way)
  /-- waiting for its own membership to reach the one it was stale against -/
  | catchingUp (current : ℕ)
  /-- waiting for its own membership to reach the committed event -/
  | committed (index : ℕ)
  | answered (result : Except NodeError ℕ)
  deriving DecidableEq

/-- What the call is about to submit. -/
def Stage.signed? : Stage → Option SignedEvent
  | .submitting round _ => some round.signed
  | _ => none

/-- `propose_and_retry`, and what `propose` does after it, at the answer of a
`propose_once`. -/
def Call.proposeAndRetry (call : Call) (again : Bool) : Except NodeError ℕ → Stage
  | .ok index => .committed index
  | .error error =>
    match error with
    | .event (.staleProposal _ current) =>
      if !again && sentAgainWhenStale call.event then .catchingUp current else .answered (.error error)
    | _ => .answered (.error error)

/-- The head of the loop of `commit_as_core`. -/
def Call.nextAttempt (call : Call) (round : Round) (left : ℕ)
    (unreached : Option (MemberId × ProposeError)) : Stage :=
  match left, unreached with
  | left + 1, _ => .submitting round (.core left unreached)
  | 0, some (leader, source) => call.proposeAndRetry round.again (.error (.forward leader source))
  | 0, none => call.proposeAndRetry round.again (.error .noLeader)

/-- The head of the loop of `commit_as_follower`. -/
def Call.nextCandidate (call : Call) (round : Round) (candidates : List (MemberId × NodeAddr))
    (unreached : Option (MemberId × ProposeError)) : Stage :=
  match candidates, unreached with
  | (member, _) :: rest, _ => .submitting round (.candidate member rest)
  | [], some (member, source) => call.proposeAndRetry round.again (.error (.forward member source))
  | [], none => call.proposeAndRetry round.again (.error .noLeader)

/-- Whether this node runs Raft, and the core nodes it knows of if not. -/
inductive Seat : Type where
  | core
  | follower (sources : Source)

/-- One attempt: sign against the membership this node holds, and commit it. -/
def Call.proposeOnce (sig : Signing) (call : Call) (membership : MembershipState) (again : Bool)
    (seat : Seat) (now : Timestamp) : Stage :=
  match call.event.withinLimits with
  | .error refused => call.proposeAndRetry again (.error (.event refused))
  | .ok () =>
    match SignedEvent.sign sig call.secretKey call.event now membership.changedAt with
    | .error refused => call.proposeAndRetry again (.error (.event refused))
    | .ok signed =>
      match seat with
      | .core => call.nextAttempt ⟨again, signed⟩ PROPOSE_ATTEMPTS none
      | .follower sources =>
        call.nextCandidate ⟨again, signed⟩ (sources.candidates call.me) none

/-! ## What was submitted -/

/-- What became of a copy. -/
inductive Fate : Type where
  /-- it may yet be committed -/
  | underWay
  /-- the entry at that position of the log -/
  | committed (position : ℕ)
  | lost
  deriving DecidableEq

/-- One copy of a signed event, on its way into the log. -/
structure Copy where
  signed : SignedEvent
  /-- which submission of the call it is of -/
  submission : ℕ
  place : Place
  fate : Fate
  deriving DecidableEq

/-- Whether a copy stands in the log. -/
def Copy.isCommitted (copy : Copy) : Bool :=
  match copy.fate with
  | .committed _ => true
  | _ => false

/-- A copy, committed as the next entry. -/
def Copy.commit (copy : Copy) (log : GroupLog) : Copy :=
  { copy with fate := .committed log.entries.length }

/-- The rules' verdict on a copy, once it is committed. -/
def Copy.verdict (sig : Signing) (log : GroupLog) (copy : Copy) : Option (Except ConsensusError ℕ) :=
  match copy.fate with
  | .committed position => log.verdictAt sig position
  | _ => none

/-- The index at which a copy took effect, if it did. -/
def Copy.effect (sig : Signing) (log : GroupLog) (copy : Copy) : Option ℕ :=
  match copy.verdict sig log with
  | some (.ok index) => some index
  | _ => none

/-- A copy has not taken effect and never will. -/
def Copy.Spent (sig : Signing) (log : GroupLog) (copy : Copy) : Prop :=
  match copy.fate with
  | .underWay => log.Refuses sig copy.signed
  | _ => copy.effect sig log = none

/-- What may come back to a call that waits. -/
inductive Answer : Type where
  /-- the verdict on a copy that is committed -/
  | verdict (copy : ℕ)
  /-- a core node's refusal to submit a copy -/
  | refused (copy : ℕ)
  | notCommitted (message : String)
  /-- nothing, in time: the peer is out of reach, or its answer is lost -/
  | unreachable (message : String)
  /-- from this node's own Raft: somebody else leads -/
  | forwardToLeader (leader : MemberId)
  /-- from this node's own Raft: nobody leads; and whether a leader emerged in time -/
  | noLeader (emerged : Bool)
  /-- from this node's own Raft: it failed -/
  | failed
  deriving DecidableEq

/-- The copy that an answer is about. -/
def Answer.copy : Answer → Option ℕ
  | .verdict copy | .refused copy => some copy
  | _ => none

/-- A call, with the group around it. -/
structure World where
  log : GroupLog
  /-- how much of the log this node's membership is of -/
  held : ℕ
  copies : List Copy
  /-- how many submissions the call has made -/
  submissions : ℕ
  stage : Stage

inductive Step : Type where
  /-- an entry of somebody else is committed -/
  | entry (index : ℕ) (signed : SignedEvent)
  /-- this node's membership becomes that of the first `count` entries -/
  | hold (count : ℕ)
  /-- a copy is committed -/
  | commit (copy index : ℕ)
  /-- a copy is lost for good -/
  | lose (copy : ℕ)
  /-- a core node that does not lead hands a copy on to the leader it knows of -/
  | handOn (copy : ℕ)
  | proposeOnce (seat : Seat) (now : Timestamp)
  | submit
  | hear (answer : Answer)
  /-- what the call waits for is there -/
  | caughtUp
  /-- what the call waits for is not there in time -/
  | timedOut

namespace World

/-- The membership this node holds. -/
def membership (sig : Signing) (world : World) : MembershipState :=
  (world.log.take world.held).membership sig

/-- The rules' verdict that an answer carries: of a copy of the last submission, and of a
core node that has the right to it. -/
def written (sig : Signing) (world : World) : Answer → Option (Except ConsensusError ℕ)
  | .verdict i =>
    match world.copies[i]? with
    | some copy => if copy.submission = world.submissions then copy.verdict sig world.log else none
    | none => none
  | .refused i =>
    match world.copies[i]? with
    | some copy =>
      if copy.submission = world.submissions ∧ copy.place ≠ .own then
        match checks sig copy.signed with
        | .error refused => some (.error refused)
        | .ok () => none
      else none
    | none => none
  | _ => none

/-- What a peer's answer comes to as an exchange. -/
def exchanged (sig : Signing) (world : World) (answer : Answer) :
    Option (Except String ProposeOutcome) :=
  match world.written sig answer, answer with
  | some written, _ => some (.ok (.ofWritten written))
  | none, .notCommitted message => some (.ok (.notCommitted message))
  | none, .unreachable message => some (.error message)
  | none, _ => none

/-- What the call does with an answer to its last submission. -/
def hear (sig : Signing) (call : Call) (world : World) (round : Round) (way : Way)
    (answer : Answer) : Stage :=
  match way with
  | .core left unreached =>
    match world.written sig answer, answer with
    | some (.ok index), _ => call.proposeAndRetry round.again (.ok index)
    | some (.error refused), _ => call.proposeAndRetry round.again (.error (.event refused))
    | none, .forwardToLeader leader => .submitting round (.leader leader left)
    | none, .noLeader true => call.nextAttempt round left unreached
    | none, .noLeader false | none, .failed => call.proposeAndRetry round.again (.error .raft)
    | none, _ => .waiting round way
  | .leader leader left =>
    match (world.exchanged sig answer).map (propose leader) with
    | some (.ok index) => call.proposeAndRetry round.again (.ok index)
    | some (.error (.rejected refused)) =>
      call.proposeAndRetry round.again (.error (.event refused))
    | some (.error error) => call.nextAttempt round left (some (leader, error))
    | none => .waiting round way
  | .candidate member rest =>
    match (world.exchanged sig answer).map (propose member) with
    | some (.ok index) => call.proposeAndRetry round.again (.ok index)
    | some (.error (.rejected refused)) =>
      call.proposeAndRetry round.again (.error (.event refused))
    | some (.error error) => call.nextCandidate round rest (some (member, error))
    | none => .waiting round way

/-- A core node submits what it was sent only once it has checked it. -/
def submits (sig : Signing) (copy : Copy) : Bool :=
  copy.place = .own || (checks sig copy.signed).isOk

/-- One step of the call, or of the group around it. -/
def step (sig : Signing) (call : Call) (world : World) : Step → World
  | .entry index signed =>
    if h : world.log.Next index then { world with log := world.log.append index signed h } else world
  | .hold held => { world with held }
  | .commit i index =>
    match world.copies[i]? with
    | none => world
    | some copy =>
      if h : (copy.fate = .underWay ∧ submits sig copy) ∧ world.log.Next index then
        { world with
          log := world.log.append index copy.signed h.2
          copies := world.copies.set i (copy.commit world.log) }
      else world
  | .lose i =>
    match world.copies[i]? with
    | none => world
    | some copy =>
      if copy.fate = .underWay then
        { world with copies := world.copies.set i { copy with fate := .lost } }
      else world
  | .handOn i =>
    match world.copies[i]? with
    | none => world
    | some copy =>
      -- one hop only; what it has begun to commit itself may still be committed
      if copy.fate = .underWay ∧ copy.place = .peer ∧ submits sig copy then
        { world with copies := world.copies ++ [{ copy with place := .handedOn }] }
      else world
  | .proposeOnce seat now =>
    match world.stage with
    | .proposing again =>
      { world with stage := call.proposeOnce sig (world.membership sig) again seat now }
    | _ => world
  | .submit =>
    match world.stage with
    | .submitting round way =>
      { world with
        copies := world.copies ++ [⟨round.signed, world.submissions + 1, way.place, .underWay⟩]
        submissions := world.submissions + 1
        stage := .waiting round way }
    | _ => world
  | .hear answer =>
    match world.stage with
    | .waiting round way => { world with stage := world.hear sig call round way answer }
    | _ => world
  | .caughtUp =>
    match world.stage with
    | .catchingUp current =>
      if current ≤ (world.membership sig).changedAt then { world with stage := .proposing true }
      else world
    | .committed index =>
      if index ≤ (world.membership sig).changedAt then { world with stage := .answered (.ok index) }
      else world
    | _ => world
  | .timedOut =>
    match world.stage with
    | .catchingUp current => { world with stage := .answered (.error (.behindTheGroup current)) }
    | .committed index => { world with stage := .answered (.error (.notYetApplied index)) }
    | _ => world

/-- A call begins: of the group's log this node holds the first `held` entries. -/
def start (log : GroupLog) (held : ℕ) : World where
  log := log
  held := held
  copies := []
  submissions := 0
  stage := .proposing false

/-- The indices at which what the call has submitted took effect. -/
def effects (sig : Signing) (world : World) : List ℕ :=
  world.copies.filterMap (Copy.effect sig world.log)

/-- What a call promises: its event takes effect at most once; if the call answers that the
rules refused it, not at all; and if it answers with an index, there. -/
def Honest (sig : Signing) (world : World) : Prop :=
  (world.effects sig).length ≤ 1 ∧
    (∀ error, world.stage = .answered (.error (.event error)) → world.effects sig = []) ∧
    ∀ index, world.stage = .answered (.ok index) → world.effects sig = [index]

/-- The copy whose fate the call is told of: the last of its last submission. -/
def Awaits (world : World) (i : ℕ) : Prop :=
  LastOf world.submissions (world.copies.map Copy.submission) i

instance (world : World) (i : ℕ) : Decidable (world.Awaits i) :=
  inferInstanceAs (Decidable (LastOf _ _ i))

/-- **The condition**: no answer is given up of what is committed. The call submits again
only while nothing it has submitted of the same signing is committed; and what it does not
await any more, because it has submitted again since or a peer has handed it on, is not
committed later. -/
def Delivered (world : World) : Step → Prop
  | .submit =>
    ∀ signed ∈ world.stage.signed?, ∀ copy ∈ world.copies, copy.signed = signed →
      copy.isCommitted = false
  | .commit i _ => world.Awaits i
  | .handOn i =>
    ∀ copy ∈ world.copies[i]?, copy.submission = world.submissions → world.Awaits i
  | _ => True

instance (world : World) : (step : Step) → Decidable (world.Delivered step)
  | .submit => inferInstanceAs (Decidable (∀ signed ∈ world.stage.signed?,
      ∀ copy ∈ world.copies, copy.signed = signed → copy.isCommitted = false))
  | .commit i _ => inferInstanceAs (Decidable (world.Awaits i))
  | .handOn i => inferInstanceAs (Decidable (∀ copy ∈ world.copies[i]?,
      copy.submission = world.submissions → world.Awaits i))
  | .entry _ _ | .hold _ | .lose _ | .proposeOnce _ _ | .hear _ | .caughtUp | .timedOut =>
    inferInstanceAs (Decidable True)

end World

end Propose

end Distlib
