import Distlib.Consensus.Landed
import Distlib.Consensus.Outcome

/-!
# What `applied` says

Five requests change the group: they hand an event to the node, wait until it is folded in
here, and report where the proposal now stands. That report is one lookup: the proposal is
`applied` when it is not among those that wait. The command line prints it as "it has taken
effect", "expelled" or "admitted".

A proposal leaves the pending table in other ways than by taking effect, and entries of
others come in between the commit and the lookup. `applied_iff` says when the report is
right: exactly when this node has come as far as the proposal, and no entry up to there has
dropped it. The approval that arrives on the last day of the expiry needs no one else for
the opposite: the very entry that records it drops the proposal it approves, and the
approver is told that it is applied (`last_day_approval_applied`).
-/

namespace Distlib

open IndexedLog GuardedRun MembershipState

namespace Api

/-! ## The requests -/

/-- Why a request is refused before anything is proposed. -/
inductive Error : Type where
  | invalidParams (text : String)
  | failed (refused : ConsensusError)
  deriving DecidableEq

/-- What `group.propose_core` is asked to do. -/
inductive CoreChange : Type where
  | set (member : MemberId) (addr : NodeAddr)
  | remove (member : MemberId)
  deriving DecidableEq

/-- The requests that are answered with what became of a proposal. -/
inductive Request : Type where
  | approve (proposal : ℕ)
  | raiseProtocol
  | proposeAdd (member : MemberId) (name : Option String)
  | proposeExpel (member : MemberId) (reason : Option String) (withEvidence : Bool)
  | proposeCore (params : CoreChange)
  deriving DecidableEq

/-- What the handlers read besides the membership. -/
structure Surroundings where
  /-- a member's id as text, in full and in short -/
  display : MemberId → String
  fmtShort : MemberId → String
  /-- the reason that names the probe failures of a member that count, after the reason
  given; `none` when none of them counts -/
  evidenceReason : MembershipState → MemberId → Option String → Except Error (Option String)

variable (around : Surroundings) (membership : MembershipState)

/-- The core members whose builds do not speak `protocol`. -/
def coreNotSpeaking (protocol : UInt32) : List MemberId :=
  membership.core.keys.filter fun member => !membership.speaks member protocol

def raiseProtocol : Except Error MembershipEvent :=
  let next := membership.protocol + 1
  match coreNotSpeaking membership next with
  | member :: _ => .error (.failed (.coreLacksProtocol member next))
  | [] => .ok (.protocolRaised next)

def proposeAdd (member : MemberId) (name : Option String) : MembershipEvent :=
  .memberAdded ⟨member, name.getD ""⟩

def proposeExpel (member : MemberId) (reason : Option String) (withEvidence : Bool) :
    Except Error MembershipEvent :=
  if withEvidence then
    match around.evidenceReason membership member reason with
    | .error error => .error error
    | .ok none =>
      .error (.invalidParams ("no probe failure of " ++ around.fmtShort member ++
        " counts, so there is no evidence to give"))
    | .ok (some reason) => .ok (.memberExpelled member reason)
  else
    match reason with
    | none => .error (.invalidParams "an expulsion needs a reason")
    | some reason => .ok (.memberExpelled member reason)

def proposeCore : CoreChange → Except Error MembershipEvent
  | .set member addr =>
    if membership.core[member]? = some addr then
      .error (.invalidParams
        (around.display member ++ " is already a core node at that address"))
    else .ok (.coreGroupChanged (membership.core.insert member addr).toList)
  | .remove member =>
    match membership.core[member]? with
    | none => .error (.invalidParams (around.display member ++ " is not a core node"))
    | some _ => .ok (.coreGroupChanged (membership.core.erase member).toList)

/-- The event a request commits. -/
def Request.event : Request → Except Error MembershipEvent
  | .approve proposal => .ok (.approved proposal)
  | .raiseProtocol => Api.raiseProtocol membership
  | .proposeAdd member name => .ok (Api.proposeAdd member name)
  | .proposeExpel member reason withEvidence =>
    Api.proposeExpel around membership member reason withEvidence
  | .proposeCore params => Api.proposeCore around membership params

/-- The proposal a request is answered about, once its own event is committed at `index`. -/
def Request.proposal (index : ℕ) : Request → ℕ
  | .approve proposal => proposal
  | _ => index

/-! ## The answers -/

/-- What a waiting proposal has of what it needs. -/
structure Waiting where
  approvals : ℕ
  needed : ℕ
  deriving DecidableEq

/-- Where a proposal stands. -/
structure Standing where
  changedAt : ℕ
  proposal : ℕ
  applied : Bool
  waiting : Option Waiting
  deriving DecidableEq

def outcome (proposal : ℕ) : Standing :=
  let waiting := membership.pending[proposal]?.map fun entry =>
    { approvals := (membership.counting entry.approvals).card
      needed := membership.approvalsNeeded entry.event : Waiting }
  { changedAt := membership.changedAt
    proposal := proposal
    applied := waiting.isNone
    waiting := waiting }

/-- What a request adds to its answer. -/
inductive Detail : Type where
  | plain
  | alreadyApproved (already : Bool)
  | raisedTo (protocol : UInt32)
  | expelledFor (reason : String)
  deriving DecidableEq

/-- Read before anything is committed: afterwards a repeat looks like a first approval. -/
def alreadyApproved (me : MemberId) (proposal : ℕ) : Bool :=
  membership.pending[proposal]?.any fun entry => me ∈ membership.counting entry.approvals

/-- The detail of a request's answer: what was committed, and what was read before. -/
def Request.detail (me : MemberId) : Request → MembershipEvent → Detail
  | .approve proposal, _ => .alreadyApproved (alreadyApproved membership me proposal)
  | .raiseProtocol, .protocolRaised newProtocol => .raisedTo newProtocol
  | .proposeExpel _ _ _, .memberExpelled _ reason => .expelledFor reason
  | _, _ => .plain

/-- What a request is answered with, once the node's `propose` has answered with an index. -/
def Request.answer (sig : Signing) (call : Propose.Call) (request : Request)
    (world : Propose.World) : Option (Standing × Detail) :=
  match world.stage with
  | .answered (.ok index) =>
    some (outcome (world.membership sig) (request.proposal index),
      request.detail membership call.me call.event)
  | _ => none

/-- The group, the node and the call while a request is handled; its membership is read
first, and what it commits is made of that. -/
def handled (sig : Signing) (call : Propose.Call) (log : GroupLog) (held : ℕ)
    (steps : List Propose.Step) : Propose.World :=
  exec (Propose.World.step sig call) (Propose.World.start log held) steps

/-! ## When it is right -/

variable {around membership} {sig : Signing} {log : GroupLog} {request : Request} {p index : ℕ}
  {event : MembershipEvent}

theorem outcome_applied : (outcome membership p).applied = true ↔ membership.pending[p]? = none := by
  rw [outcome, Option.isNone_map, Option.isNone_iff_eq_none]

/-- What a request commits can wait, unless it is an approval. -/
theorem Request.event_proposable (h : request.event around membership = .ok event) :
    (∃ proposal, request = .approve proposal ∧ event = .approved proposal) ∨
      ((∀ proposal, request ≠ .approve proposal) ∧ Proposable event) := by
  cases request with
  | approve proposal => exact Or.inl ⟨proposal, rfl, (Except.ok.inj h).symm⟩
  | raiseProtocol =>
    refine Or.inr ⟨nofun, ?_⟩
    simp only [Request.event, Api.raiseProtocol] at h
    split at h
    · cases h
    · obtain rfl := Except.ok.inj h
      trivial
  | proposeAdd member name =>
    refine Or.inr ⟨nofun, ?_⟩
    obtain rfl := Except.ok.inj h
    trivial
  | proposeExpel member reason withEvidence =>
    refine Or.inr ⟨nofun, ?_⟩
    simp only [Request.event, Api.proposeExpel] at h
    split at h
    · split at h
      · cases h
      · cases h
      · obtain rfl := Except.ok.inj h
        trivial
    · split at h
      · cases h
      · obtain rfl := Except.ok.inj h
        trivial
  | proposeCore params =>
    refine Or.inr ⟨nofun, ?_⟩
    cases params with
    | set member addr =>
      simp only [Request.event, Api.proposeCore] at h
      split at h
      · cases h
      · obtain rfl := Except.ok.inj h
        trivial
    | remove member =>
      simp only [Request.event, Api.proposeCore] at h
      split at h
      · cases h
      · obtain rfl := Except.ok.inj h
        trivial

/-- A request is answered about a proposal of the log. -/
theorem Request.submitted (hevent : request.event around membership = .ok event)
    (hcommitted : SubmittedAt sig log.entries index event) :
    ∃ change, Proposable change ∧ SubmittedAt sig log.entries (request.proposal index) change := by
  rcases Request.event_proposable hevent with ⟨proposal, rfl, rfl⟩ | ⟨hother, hproposable⟩
  · exact hcommitted.of_approved log.ascending
  · have hproposal : request.proposal index = index := by
      cases request with
      | approve proposal => exact absurd rfl (hother proposal)
      | _ => rfl
    rw [hproposal]
    exact ⟨event, hproposable, hcommitted⟩

/-- **`applied` means in effect, where nothing has dropped the proposal.** In every run of
every request, from any membership of any log, with anybody's entries in between: that the
answer's `applied` stands for an enactment, at an index no later than its `changed_at`, and
is never given for a proposal that was withdrawn, made stale or swept, holds exactly when
this node has read as far as the proposal and no entry up to there dropped it. -/
theorem applied_iff (sig : Signing) (around : Surroundings) (log : GroupLog) (held : ℕ)
    (call : Propose.Call) (request : Request) (steps : List Propose.Step)
    (standing : Standing) (detail : Detail)
    (hevent : request.event around ((log.take held).membership sig) = .ok call.event)
    (hanswer : request.answer ((log.take held).membership sig) sig call
      (handled sig call log held steps) = some (standing, detail)) :
    let world := handled sig call log held steps
    let read := world.log.take world.held
    ((standing.applied = true → ∃ index ≤ standing.changedAt,
        EnactedAt sig world.log.entries standing.proposal index) ∧
      (DroppedIn sig read.entries standing.proposal → standing.applied = false)) ↔
      (∃ signed, (standing.proposal, signed) ∈ read.entries) ∧
        ¬DroppedIn sig read.entries standing.proposal := by
  intro world read
  rw [Request.answer] at hanswer
  split at hanswer
  swap
  · cases hanswer
  rename_i index hstage
  obtain ⟨rfl, -⟩ := Prod.mk.inj (Option.some.inj hanswer)
  have hcommitted : SubmittedAt sig world.log.entries index call.event :=
    Propose.World.submittedAt_of_answered sig call log held steps hstage
  obtain ⟨change, hproposable, hsubmitted⟩ := Request.submitted hevent hcommitted
  have hiff := GroupLog.enacted_of_absent_iff world.held hproposable hsubmitted
  constructor
  · rintro ⟨happlied, -⟩
    exact hiff.mp fun hnone => happlied (outcome_applied.mpr hnone)
  · intro hkept
    refine ⟨fun happlied => hiff.mpr hkept (outcome_applied.mp happlied), ?_⟩
    intro hdropped
    exact absurd hdropped hkept.2

/-! ## Two requests -/

namespace Sample

open Propose

def dave : MemberId := ⟨4⟩

/-- Four founders, whose proposals wait for one change of the group and no longer; and
alice's proposal to expel dave, which three of the four have to agree to. -/
def daveProposed : GroupLog where
  entries :=
    [(1, .signedBy alice 0 (.groupFounded ⟨9⟩
        [(⟨alice, "alice"⟩, default), (⟨bob, "bob"⟩, default), (⟨carol, "carol"⟩, default),
          (⟨dave, "dave"⟩, default)] { (default : GroupSettings) with pendingExpiry := 1 })),
     (2, .signedBy alice 1 (.memberExpelled dave "gone"))]
  ascending := by decide
  positive := by decide

def bobApproves : Call := ⟨bob, .approved 2, ⟨bob, fun _ => ⟨0⟩⟩⟩

/-- The call's own entry is committed next, and nothing else happens. -/
def undisturbed (index held : ℕ) : List Propose.Step :=
  [.proposeOnce .core ⟨0⟩, .submit, .commit 0 index, .hear (.verdict 0), .hold held, .caughtUp]

def bobApproved : World := handled .accepting bobApproves daveProposed 2 (undisturbed 3 3)

/-- Bob's approval is the second of three, and the entry that records it drops the proposal
as expired. -/
theorem dave_dropped : DroppedIn .accepting bobApproved.log.entries 2 := by
  refine ⟨daveProposed.entries, 3, .signedBy bob 2 (.approved 2), [], by decide +kernel,
    by decide +kernel, ⟨.memberExpelled dave "gone", alice, {alice}⟩, by decide +kernel, ?_, ?_⟩
  · rintro ⟨-, hdecided⟩
    exact absurd hdecided (by decide +kernel)
  · exact .expired (by decide +kernel)

/-- **An approval on the last day is answered with `applied`**: two of the three approvals
that dave's expulsion needs are given, and bob is told that it is in effect. It is not, and
never will be; dave is a member. -/
theorem last_day_approval_applied :
    Request.answer ((daveProposed.take 2).membership .accepting) .accepting bobApproves
        (.approve 2) bobApproved =
      some (⟨3, 2, true, none⟩, .alreadyApproved false) ∧
    (∀ index, ¬EnactedAt .accepting bobApproved.log.entries 2 index) ∧
    (bobApproved.membership .accepting).isMember dave ∧
    ¬((⟨3, 2, true, none⟩ : Standing).applied = true →
      ∃ index ≤ 3, EnactedAt .accepting bobApproved.log.entries 2 index) := by
  have hsubmitted : SubmittedAt .accepting bobApproved.log.entries 2 (.memberExpelled dave "gone") :=
    ⟨.signedBy alice 1 (.memberExpelled dave "gone"), ⟨daveProposed.entries.take 1,
      [(3, .signedBy bob 2 (.approved 2))], by decide +kernel, by decide +kernel⟩, rfl⟩
  have hnever : ∀ index, ¬EnactedAt .accepting bobApproved.log.entries 2 index := by
    cases became .accepting _ bobApproved.log.ascending (.memberExpelled dave "gone") trivial
        hsubmitted with
    | waiting held enacted dropped => exact enacted
    | enacted gone past enacted dropped => exact absurd dave_dropped dropped
    | dropped gone enacted dropped => exact enacted
  refine ⟨by decide +kernel, hnever, by decide +kernel, ?_⟩
  intro happlied
  obtain ⟨index, -, henacted⟩ := happlied rfl
  exact hnever index henacted

def aliceAdmits : Call := ⟨alice, .memberAdded ⟨carol, "carol"⟩, aliceKey⟩

def carolAdmitted : World := handled .accepting aliceAdmits foundedLog 1 (undisturbed 2 2)

/-- Alice, of the core, admits carol: that is in effect as it is committed, and nothing has
dropped it. -/
theorem carol_admitted_applied :
    Request.answer ((foundedLog.take 1).membership .accepting) .accepting aliceAdmits
        (.proposeAdd carol (some "carol")) carolAdmitted = some (⟨2, 2, true, none⟩, .plain) ∧
      ∃ index ≤ 2, EnactedAt .accepting carolAdmitted.log.entries 2 index := by
  have hanswer : Request.answer ((foundedLog.take 1).membership .accepting) .accepting aliceAdmits
      (.proposeAdd carol (some "carol")) carolAdmitted = some (⟨2, 2, true, none⟩, .plain) := by
    decide +kernel
  have hread : (carolAdmitted.log.take carolAdmitted.held).entries =
      foundedLog.entries ++ [(2, .signedBy alice 1 (.memberAdded ⟨carol, "carol"⟩))] := by
    decide +kernel
  have hkept : ¬DroppedIn .accepting (carolAdmitted.log.take carolAdmitted.held).entries 2 := by
    rw [hread]
    intro hdropped
    rcases occurs_concat.mp hdropped with hold | ⟨-, entry, hp, -⟩
    · exact (nothing_before .accepting (hread ▸ GroupLog.ascending _)).2.2 hold
    · have hnone : (fold .accepting foundedLog.entries).pending[2]? = none := by decide +kernel
      rw [hnone] at hp
      cases hp
  refine ⟨hanswer, ?_⟩
  have hright := applied_iff .accepting ⟨fun _ => "", fun _ => "", fun _ _ reason => .ok reason⟩
    foundedLog 1 aliceAdmits (.proposeAdd carol (some "carol")) (undisturbed 2 2) _ _ rfl hanswer
  exact (hright.mpr ⟨⟨_, hread ▸ List.mem_append_right _ (List.mem_singleton_self _)⟩, hkept⟩).1 rfl

end Sample

end Api

end Distlib
