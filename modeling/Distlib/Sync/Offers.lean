import Distlib.Lib.GuardedRun
import Distlib.Net.Directory
import Distlib.Consensus.State

/-!
# Offering the document's peers

iroh-docs is handed the peers of the document when it opens, and again as they are
learned: a loop waits for a learned address, for a change of the membership or for a
deadline, and offers peers. A learned address is reacted to, with the peers that are new;
a change of the membership and the deadline say that the set itself may be wrong, so they
repair: everyone reachable is offered, and what was offered is written down anew.

The loop reads the membership in every round, and marks it seen by that, but whether the
round repairs is decided by the arm the select took. Several arms may be ready at once.
The deadline is looked at again after the select, so that it wins the race; the
membership is not. A change that is unseen when a reaction reads the membership is
consumed by it, and no later round hears of it.

The world has the time, the watches and the directory change between any two steps of the
loop. Beside what the program has it keeps the rounds so far. The main result is
`repaired_iff`: every change is repaired by the first round that consumes it exactly if
the loop never runs the `Race`, where the select takes a learned address and a change of
the membership is ready with it, or comes before the round reads the membership.
-/

namespace Distlib

open GuardedRun

/-! ## Who is reachable -/

section Reachable

variable {Endpoint : Type} (dial : Dialling Endpoint)

/-- Every other member this node knows how to reach, and where. -/
def reachable (membership : MembershipState) (me : MemberId) (directory : Directory Endpoint) :
    List (MemberId × NodeAddr) :=
  (membership.members.keys.filter fun member => member ≠ me).filterMap fun member =>
    (membership.core[member]?.or (directory.addressOf dial member)).map fun addr => (member, addr)

/-- The peers to sync with. -/
def syncWith (membership : MembershipState) (me : MemberId) (directory : Directory Endpoint) :
    List Endpoint :=
  (reachable dial membership me directory).filterMap fun (member, addr) =>
    (dial.toEndpointAddr addr member).toOption

end Reachable

namespace Offers

/-! ## The loop -/

/-- How often the peers are offered again regardless, in nanoseconds. -/
def BACKSTOP : ℕ := 600 * 10 ^ 9

/-- The least time between two offers. -/
def LEAST_BETWEEN_OFFERS : ℕ := 2 * 10 ^ 9

/-- Where the loop is. -/
inductive Phase : Type where
  | selecting
  /-- the select took an arm -/
  | chosen (repair : Bool)
  /-- the deadline was looked at once more -/
  | checked (repair : Bool)
  /-- the peers are being offered -/
  | offering
  | sleeping (wakeAt : ℕ)
  | ended
  deriving DecidableEq

/-- The arms of the select. -/
inductive Arm : Type where
  /-- nobody holds the document any more -/
  | closed
  | heard
  | changed
  | deadline
  deriving DecidableEq

/-- What a round did. -/
structure Round (Endpoint : Type) where
  repair : Bool
  /-- the version of the membership it read -/
  upTo : ℕ
  membership : MembershipState
  directory : Directory Endpoint
  peers : List Endpoint
  /-- what has been offered after it -/
  offered : OrdMap MemberId Endpoint

structure World (Endpoint : Type) where
  now : ℕ
  /-- the membership when the document opened, and each one since -/
  opened : MembershipState
  changes : List MembershipState
  /-- the version the loop has marked seen -/
  seen : ℕ
  membershipGone : Bool
  directory : Directory Endpoint
  /-- how often an address was learned, and how many of those the loop has seen -/
  heard : ℕ
  seenHeard : ℕ
  directoryGone : Bool
  closed : Bool
  phase : Phase
  stillLearning : Bool
  offered : OrdMap MemberId Endpoint
  lastFull : ℕ
  rounds : List (Round Endpoint)

inductive Happening : Type where
  | tick (elapsed : ℕ)
  | change (membership : MembershipState)
  | loseMembership
  /-- a statement of where somebody is arrives -/
  | learn (announced : SignedAddress)
  | loseDirectory
  | close
  /-- the select takes an arm -/
  | choose (arm : Arm)
  /-- the deadline is looked at -/
  | check
  /-- the membership is read, and the round decided -/
  | round
  /-- the offer is made, or has failed -/
  | done
  | awake

variable {Endpoint : Type}

namespace World

/-- The loop begins. -/
def start (now : ℕ) (opened : MembershipState) (directory : Directory Endpoint) : World Endpoint where
  now := now
  opened := opened
  changes := []
  seen := 0
  membershipGone := false
  directory := directory
  heard := 0
  seenHeard := 0
  directoryGone := false
  closed := false
  phase := .selecting
  stillLearning := true
  offered := ∅
  lastFull := now
  rounds := []

/-- The version of the membership there is. -/
def version (world : World Endpoint) : ℕ := world.changes.length

/-- The membership of a version. -/
def membershipAt (world : World Endpoint) (version : ℕ) : Option MembershipState :=
  (world.opened :: world.changes)[version]?

def membership (world : World Endpoint) : MembershipState :=
  world.changes.getLastD world.opened

/-- Whether the select may take an arm. -/
def ready (world : World Endpoint) : Arm → Bool
  | .closed => world.closed
  | .heard => world.stillLearning && (decide (world.seenHeard < world.heard) || world.directoryGone)
  | .changed => decide (world.seen < world.version) || world.membershipGone
  | .deadline => decide (world.lastFull + BACKSTOP ≤ world.now)

/-- The select takes an arm that is ready. -/
def choose (world : World Endpoint) (arm : Arm) : World Endpoint :=
  if world.phase = .selecting ∧ world.ready arm then
    match arm with
    | .closed => { world with phase := .ended }
    | .heard =>
      if world.seenHeard < world.heard then
        { world with seenHeard := world.heard, phase := .chosen false }
      else { world with stillLearning := false, phase := .chosen false }
    | .changed =>
      if world.seen < world.version then
        { world with seen := world.version, phase := .chosen true }
      else { world with phase := .ended }
    | .deadline => { world with phase := .chosen true }
  else world

variable [DecidableEq Endpoint] (dial : Dialling Endpoint) (me : MemberId)

/-- The round itself: the membership is read, and marked seen. -/
def round (world : World Endpoint) (repair : Bool) : World Endpoint :=
  let reachable := syncWith dial world.membership me world.directory
  let peers :=
    if repair then reachable
    else reachable.filter fun peer => world.offered[dial.id peer]? ≠ some peer
  let pairs := peers.map fun peer => (dial.id peer, peer)
  let offered := if repair then .ofList pairs compare else world.offered.insertMany pairs
  { world with
    seen := world.version
    offered
    lastFull := if repair then world.now else world.lastFull
    phase := .offering
    rounds := world.rounds ++
      [⟨repair, world.version, world.membership, world.directory, peers, offered⟩] }

/-- A statement of where somebody is. -/
def learn (sig : AddressSigning) (world : World Endpoint) (announced : SignedAddress) :
    World Endpoint :=
  match world.directory.learn sig dial.toEndpointAddr announced with
  | (.ok true, directory) => { world with directory, heard := world.heard + 1 }
  | (_, directory) => { world with directory }

def step (sig : AddressSigning) (world : World Endpoint) : Happening → World Endpoint
  | .tick elapsed => { world with now := world.now + elapsed }
  | .change membership =>
    if world.membershipGone then world
    else { world with changes := world.changes ++ [membership] }
  | .loseMembership => { world with membershipGone := true }
  | .learn announced => if world.directoryGone then world else world.learn dial sig announced
  | .loseDirectory => { world with directoryGone := true }
  | .close => { world with closed := true }
  | .choose arm => world.choose arm
  | .check =>
    match world.phase with
    | .chosen repair =>
      -- the deadline wins over a learned address it comes due with
      { world with phase := .checked (repair || decide (world.lastFull + BACKSTOP ≤ world.now)) }
    | _ => world
  | .round =>
    match world.phase with
    | .checked repair => world.round dial me repair
    | _ => world
  | .done =>
    match world.phase with
    | .offering => { world with phase := .sleeping (world.now + LEAST_BETWEEN_OFFERS) }
    | _ => world
  | .awake =>
    match world.phase with
    | .sleeping wakeAt => if wakeAt ≤ world.now then { world with phase := .selecting } else world
    | _ => world

end World

/-! ## Who consumes a change -/

section Consumed

variable (dial : Dialling Endpoint) (me : MemberId)

/-- Everyone reachable was offered, and what was offered was written down anew. -/
def Round.Full (round : Round Endpoint) : Prop :=
  round.repair = true ∧ round.peers = syncWith dial round.membership me round.directory ∧
    round.offered = .ofList (round.peers.map fun peer => (dial.id peer, peer)) compare

/-- The first round that consumes a change is a full offer, of a membership at least
that new. -/
def FirstFull (world : World Endpoint) : Prop :=
  ∀ earlier round later, world.rounds = earlier ++ round :: later →
    ∀ version, 0 < version → version ≤ round.upTo → (∀ other ∈ earlier, other.upTo < version) →
      round.Full dial me ∧ world.membershipAt round.upTo = some round.membership

/-- Every change that was marked seen was consumed by a round, and the first round to do
so repairs. -/
structure Repaired (world : World Endpoint) : Prop where
  consumed : world.phase = .selecting → ∀ version, 0 < version → version ≤ world.seen →
    ∃ round ∈ world.rounds, version ≤ round.upTo
  first : FirstFull dial me world

/-- A mere reaction reads a membership it has seen. -/
def Vigilant (world : World Endpoint) : Happening → Prop
  | .round => world.phase = .checked false → world.seen = world.version
  | _ => True

instance (world : World Endpoint) : (happening : Happening) → Decidable (Vigilant world happening)
  | .round => inferInstanceAs (Decidable (_ → _))
  | .tick _ | .change _ | .loseMembership | .learn _ | .loseDirectory | .close | .choose _ | .check
  | .done | .awake => .isTrue trivial

/-- A change of the membership gets to the watch. -/
def Arrives (world : World Endpoint) : Happening → Prop
  | .change _ => world.membershipGone = false
  | _ => False

/-- It is no step of the loop's own. -/
def Happening.Outside : Happening → Prop
  | .tick _ | .change _ | .loseMembership | .learn _ | .loseDirectory | .close => True
  | .choose _ | .check | .round | .done | .awake => False

/-- What happens from the select's taking a learned address to just before the round:
what happens until the deadline is looked at, and what happens after. -/
def reaction (waiting deciding : List Happening) : List Happening :=
  .choose .heard :: (waiting ++ .check :: deciding)

/-- The version the last round read. -/
def World.lastUpTo (world : World Endpoint) : ℕ := (world.rounds.getLast?.map Round.upTo).getD 0

/-- What holds at every moment: the rounds read one version after another, what they say
of the membership is so, and nothing was marked seen but by a round, or by a select that
is about to repair. -/
structure Recorded (world : World Endpoint) : Prop where
  upTo_le : ∀ round ∈ world.rounds, round.upTo ≤ world.lastUpTo
  lastUpTo_le : world.lastUpTo ≤ world.seen
  seen_le : world.seen ≤ world.version
  seen_eq : world.phase ≠ .chosen true → world.phase ≠ .checked true → world.phase ≠ .ended →
    world.seen = world.lastUpTo
  faithful : ∀ round ∈ world.rounds, world.membershipAt round.upTo = some round.membership ∧
    (round.repair = true → round.Full dial me)

variable {dial me} {world : World Endpoint}

theorem World.membershipAt_version (world : World Endpoint) :
    world.membershipAt world.version = some world.membership := by
  rcases List.eq_nil_or_concat world.changes with hnone | ⟨before, last, hlast⟩
  · rw [membershipAt, version, membership, hnone]
    rfl
  · rw [membershipAt, version, membership, hlast, List.concat_eq_append, List.length_append,
      List.length_singleton, List.getElem?_cons_succ, List.getElem?_concat_length,
      List.getLastD_concat]

section Frame

variable [DecidableEq Endpoint] (dial me) (sig : AddressSigning) (world : World Endpoint)

/-- Nothing but a round adds to the rounds. -/
theorem rounds_step {happening : Happening} (h : happening ≠ .round) :
    (world.step dial me sig happening).rounds = world.rounds := by
  cases happening with
  | round => exact absurd rfl h
  | tick _ | loseMembership | loseDirectory | close => rfl
  | change membership =>
    rw [World.step]
    split <;> rfl
  | learn announced =>
    rw [World.step, World.learn]
    split
    · rfl
    · split <;> rfl
  | choose arm =>
    rw [World.step, World.choose.eq_def]
    split
    · cases arm <;> dsimp only <;> split <;> rfl
    · rfl
  | check | done =>
    rw [World.step]
    split <;> rfl
  | awake =>
    rw [World.step]
    split
    · split <;> rfl
    · rfl

/-- Nothing the node does changes the membership. -/
theorem changes_step {happening : Happening} (h : ∀ membership, happening ≠ .change membership) :
    (world.step dial me sig happening).changes = world.changes := by
  cases happening with
  | change membership => exact absurd rfl (h membership)
  | tick _ | loseMembership | loseDirectory | close => rfl
  | learn announced =>
    rw [World.step, World.learn]
    split
    · rfl
    · split <;> rfl
  | choose arm =>
    rw [World.step, World.choose.eq_def]
    split
    · cases arm <;> dsimp only <;> split <;> rfl
    · rfl
  | check | round | done =>
    rw [World.step]
    split <;> rfl
  | awake =>
    rw [World.step]
    split
    · split <;> rfl
    · rfl

/-- What happens outside the loop leaves it where it is, with what it has seen. -/
theorem outside_step (happening : Happening) (h : happening.Outside) :
    (world.step dial me sig happening).phase = world.phase ∧
      (world.step dial me sig happening).seen = world.seen := by
  cases happening with
  | choose _ | check | round | done | awake => exact h.elim
  | tick _ | loseMembership | loseDirectory | close => exact ⟨rfl, rfl⟩
  | change membership =>
    rw [World.step]
    split <;> exact ⟨rfl, rfl⟩
  | learn announced =>
    rw [World.step, World.learn]
    split
    · exact ⟨rfl, rfl⟩
    · split <;> exact ⟨rfl, rfl⟩

end Frame

theorem membershipAt_change {version : ℕ} {membership found : MembershipState}
    (h : world.membershipAt version = some found) :
    World.membershipAt { world with changes := world.changes ++ [membership] } version =
      some found := by
  rw [World.membershipAt] at h ⊢
  rw [← List.cons_append, List.getElem?_append_left (List.getElem?_eq_some_iff.mp h).1]
  exact h

/-- One more round. -/
theorem lastUpTo_snoc (rounds : List (Round Endpoint)) (round : Round Endpoint) :
    ((rounds ++ [round]).getLast?.map Round.upTo).getD 0 = round.upTo := by
  rw [List.getLast?_concat]
  rfl

namespace Recorded

theorem start (now : ℕ) (opened : MembershipState) (directory : Directory Endpoint) :
    Recorded dial me (World.start now opened directory) :=
  ⟨nofun, le_rfl, le_rfl, fun _ _ _ => rfl, nofun⟩

/-- Nothing the rounds are about changed. -/
theorem still (h : Recorded dial me world) {after : World Endpoint}
    (hrounds : after.rounds = world.rounds) (hopened : after.opened = world.opened)
    (hchanges : after.changes = world.changes)
    (hseen : world.seen ≤ after.seen) (hversion : after.seen ≤ after.version)
    (hphase : after.phase ≠ .chosen true → after.phase ≠ .checked true → after.phase ≠ .ended →
      after.seen = world.lastUpTo) : Recorded dial me after := by
  have hlast : after.lastUpTo = world.lastUpTo := by rw [World.lastUpTo, hrounds]; rfl
  refine ⟨?_, ?_, hversion, ?_, ?_⟩
  · rw [hrounds, hlast]
    exact h.upTo_le
  · rw [hlast]
    exact h.lastUpTo_le.trans hseen
  · rw [hlast]
    exact hphase
  · rw [hrounds]
    intro round hround
    rw [World.membershipAt, hopened, hchanges]
    exact h.faithful round hround

theorem change (h : Recorded dial me world) (membership : MembershipState) :
    Recorded dial me { world with changes := world.changes ++ [membership] } where
  upTo_le := h.upTo_le
  lastUpTo_le := h.lastUpTo_le
  seen_le := h.seen_le.trans (by simp [World.version])
  seen_eq := h.seen_eq
  faithful round hround :=
    ⟨membershipAt_change (h.faithful round hround).1, (h.faithful round hround).2⟩

theorem choose (h : Recorded dial me world) (arm : Arm) : Recorded dial me (world.choose arm) := by
  rw [World.choose.eq_def]
  split
  · rename_i hready
    have hseen := h.seen_eq (by simp [hready.1]) (by simp [hready.1]) (by simp [hready.1])
    cases arm with
    | closed => exact h.still rfl rfl rfl le_rfl h.seen_le (by simp)
    | heard =>
      dsimp only
      split <;> exact h.still rfl rfl rfl le_rfl h.seen_le fun _ _ _ => hseen
    | changed =>
      dsimp only
      split
      · exact h.still rfl rfl rfl h.seen_le le_rfl (by simp)
      · exact h.still rfl rfl rfl le_rfl h.seen_le (by simp)
    | deadline => exact h.still rfl rfl rfl le_rfl h.seen_le (by simp)
  · exact h

theorem check (h : Recorded dial me world) {repair : Bool} (hphase : world.phase = .chosen repair)
    (late : Bool) : Recorded dial me { world with phase := .checked (repair || late) } := by
  refine h.still rfl rfl rfl le_rfl h.seen_le fun _ hchecked _ => ?_
  cases repair with
  | true => exact absurd (by rw [Bool.true_or]) hchecked
  | false => exact h.seen_eq (by simp [hphase]) (by simp [hphase]) (by simp [hphase])

variable [DecidableEq Endpoint]

theorem round (h : Recorded dial me world) (repair : Bool) :
    Recorded dial me (world.round dial me repair) := by
  have hlast : (world.round dial me repair).lastUpTo = world.version := lastUpTo_snoc ..
  refine ⟨?_, hlast.le, le_rfl, fun _ _ _ => hlast.symm, ?_⟩
  · rw [hlast]
    intro round hround
    rcases List.mem_append.mp hround with hold | hnew
    · exact (h.upTo_le round hold).trans (h.lastUpTo_le.trans h.seen_le)
    · rw [List.mem_singleton.mp hnew]
  · intro round hround
    rcases List.mem_append.mp hround with hold | hnew
    · exact h.faithful round hold
    · rw [List.mem_singleton.mp hnew]
      refine ⟨world.membershipAt_version, ?_⟩
      rintro rfl
      exact ⟨rfl, rfl, rfl⟩

theorem step (sig : AddressSigning) (h : Recorded dial me world) (happening : Happening) :
    Recorded dial me (world.step dial me sig happening) := by
  cases happening with
  | tick elapsed => exact h.still rfl rfl rfl le_rfl h.seen_le h.seen_eq
  | change membership =>
    rw [World.step]
    split
    · exact h
    · exact h.change membership
  | loseMembership => exact h.still rfl rfl rfl le_rfl h.seen_le h.seen_eq
  | learn announced =>
    rw [World.step]
    split
    · exact h
    · rw [World.learn]
      split <;> exact h.still rfl rfl rfl le_rfl h.seen_le h.seen_eq
  | loseDirectory => exact h.still rfl rfl rfl le_rfl h.seen_le h.seen_eq
  | close => exact h.still rfl rfl rfl le_rfl h.seen_le h.seen_eq
  | choose arm => exact h.choose arm
  | check =>
    rw [World.step]
    split
    · exact h.check ‹_› _
    · exact h
  | round =>
    rw [World.step]
    split
    · exact h.round _
    · exact h
  | done =>
    rw [World.step]
    split
    · rename_i hphase
      exact h.still rfl rfl rfl le_rfl h.seen_le fun _ _ _ =>
        h.seen_eq (by simp [hphase]) (by simp [hphase]) (by simp [hphase])
    · exact h
  | awake =>
    rw [World.step]
    split
    · rename_i hphase
      split
      · exact h.still rfl rfl rfl le_rfl h.seen_le fun _ _ _ =>
          h.seen_eq (by simp [hphase]) (by simp [hphase]) (by simp [hphase])
      · exact h
    · exact h

end Recorded

/-- What was consumed stays consumed, by the same round. -/
theorem firstFull_of_rounds_eq (h : Recorded dial me world) {after : World Endpoint}
    (hafter : Recorded dial me after) (hrounds : after.rounds = world.rounds) :
    FirstFull dial me after ↔ FirstFull dial me world := by
  have hat : ∀ round ∈ world.rounds, after.membershipAt round.upTo = some round.membership ∧
      world.membershipAt round.upTo = some round.membership := fun round hround =>
    ⟨(hafter.faithful round (hrounds ▸ hround)).1, (h.faithful round hround).1⟩
  constructor
  · intro hfirst earlier round later hsplit version hpos hle hnot
    exact ⟨(hfirst earlier round later (hrounds.trans hsplit) version hpos hle hnot).1,
      (hat round (by rw [hsplit]; simp)).2⟩
  · intro hfirst earlier round later hsplit version hpos hle hnot
    have hsplit' := hrounds.symm.trans hsplit
    exact ⟨(hfirst earlier round later hsplit' version hpos hle hnot).1,
      (hat round (by rw [hsplit']; simp)).1⟩

variable [DecidableEq Endpoint]

/-- **What one round does**: it keeps to the rule exactly if it repairs, or has nothing
to consume. -/
theorem firstFull_round (h : Recorded dial me world) {repair : Bool}
    (hphase : world.phase = .checked repair) :
    FirstFull dial me (world.round dial me repair) ↔
      FirstFull dial me world ∧ (repair = false → world.seen = world.version) := by
  have hafter : Recorded dial me (world.round dial me repair) := h.round repair
  constructor
  · intro hfirst
    refine ⟨fun earlier round later hsplit version hpos hle hnot => ?_, ?_⟩
    · obtain ⟨new, hnew⟩ : ∃ new, (world.round dial me repair).rounds = world.rounds ++ [new] :=
        ⟨_, rfl⟩
      rw [hsplit, List.append_assoc, List.cons_append] at hnew
      exact ⟨(hfirst earlier round _ hnew version hpos hle hnot).1,
        (h.faithful round (by rw [hsplit]; simp)).1⟩
    · rintro rfl
      by_contra hunseen
      have hseen := h.seen_eq (by simp [hphase]) (by simp [hphase]) (by simp [hphase])
      have hlt : world.seen < world.version := lt_of_le_of_ne h.seen_le hunseen
      have hfull := (hfirst world.rounds _ [] rfl world.version (by omega) le_rfl
        fun other hother => (h.upTo_le other hother).trans_lt (by omega)).1
      cases hfull.1
  · rintro ⟨hfirst, hseen⟩ earlier round later hsplit version hpos hle hnot
    have hround : round ∈ (world.round dial me repair).rounds := by rw [hsplit]; simp
    refine ⟨?_, (hafter.faithful round hround).1⟩
    rcases List.eq_nil_or_concat later with rfl | ⟨later, last, rfl⟩
    · obtain ⟨hrounds, hnew⟩ := List.append_inj' hsplit rfl
      obtain rfl := (List.cons.inj hnew).1
      cases repair with
      | true => exact ⟨rfl, rfl, rfl⟩
      | false =>
        -- it consumed nothing: the round before had read as far
        have hseen' := h.seen_eq (by simp [hphase]) (by simp [hphase]) (by simp [hphase])
        have hlast : version ≤ world.lastUpTo := by
          rw [← hseen', hseen rfl]
          exact hle
        rw [World.lastUpTo] at hlast
        rcases hfound : world.rounds.getLast? with _ | other
        · rw [hfound] at hlast
          exact absurd hpos (by simpa using hlast)
        · rw [hfound] at hlast
          have hmem : other ∈ earlier := hrounds ▸ List.mem_of_getLast? hfound
          exact absurd (hnot other hmem) (not_lt.mpr hlast)
    · rw [List.concat_eq_append, ← List.cons_append, ← List.append_assoc] at hsplit
      obtain ⟨hrounds, -⟩ := List.append_inj' hsplit rfl
      exact (hfirst earlier round later hrounds version hpos hle hnot).1

theorem firstFull_step (sig : AddressSigning) (h : Recorded dial me world) (happening : Happening) :
    FirstFull dial me (world.step dial me sig happening) ↔
      FirstFull dial me world ∧ Vigilant world happening := by
  have hafter := h.step sig happening
  -- a step that adds no round consumes nothing
  have hstill : (world.step dial me sig happening).rounds = world.rounds →
      (FirstFull dial me (world.step dial me sig happening) ↔ FirstFull dial me world) :=
    firstFull_of_rounds_eq h hafter
  cases happening with
  | round =>
    rw [World.step]
    split
    · rename_i repair hphase
      rw [firstFull_round h hphase, Vigilant, hphase]
      cases repair <;> simp
    · rename_i hphase
      exact (and_iff_left fun hchecked => absurd hchecked (hphase false)).symm
  | _ => exact (hstill (rounds_step dial me sig world (by simp))).trans (and_iff_left trivial).symm

/-- Every change is repaired by the first round that consumes it exactly if no mere
reaction consumes one. -/
theorem repaired_iff_vigilant (dial : Dialling Endpoint) (me : MemberId) (sig : AddressSigning) (now : ℕ)
    (opened : MembershipState) (directory : Directory Endpoint) (happenings : List Happening) :
    Repaired dial me (exec (World.step dial me sig) (World.start now opened directory) happenings) ↔
      Along (World.step dial me sig) Vigilant (World.start now opened directory) happenings := by
  have hstart : Recorded dial me (World.start now opened directory) := .start now opened directory
  have hrun : Recorded dial me
      (exec (World.step dial me sig) (World.start now opened directory) happenings) :=
    exec_invariant (fun _ happening h => h.step sig happening) happenings hstart
  have hfirst : FirstFull dial me
        (exec (World.step dial me sig) (World.start now opened directory) happenings) ↔
      FirstFull dial me (World.start now opened directory) ∧
        Along (World.step dial me sig) Vigilant (World.start now opened directory) happenings :=
    iff_along (I := Recorded dial me) (P := FirstFull dial me)
      (fun _ happening h => h.step sig happening)
      (fun _ happening h => firstFull_step sig h happening) happenings hstart
  have hnone : FirstFull dial me (World.start now opened directory) :=
    fun earlier round later hsplit => by simp [World.start] at hsplit
  rw [and_iff_right hnone] at hfirst
  rw [← hfirst]
  refine ⟨Repaired.first, fun h => ⟨fun hselecting version hpos hle => ?_, h⟩⟩
  have hseen := hrun.seen_eq (by simp [hselecting]) (by simp [hselecting]) (by simp [hselecting])
  rw [hseen, World.lastUpTo] at hle
  rcases hlast : (exec (World.step dial me sig) (World.start now opened directory)
      happenings).rounds.getLast? with _ | round
  · rw [hlast] at hle
    exact absurd hpos (by simpa using hle)
  · rw [hlast] at hle
    exact ⟨round, List.mem_of_getLast? hlast, hle⟩

/-! ### How a reaction comes to read a change unseen -/

section Race

variable (dial) (me) (sig : AddressSigning) (start : World Endpoint)

/-- **The race.** The select takes a learned address, and the deadline is not due when it
is looked at again, so that the round is a reaction; and the membership has a change the
loop has not seen when the select takes that arm, or gets one before the round reads it. -/
structure Race (before waiting deciding : List Happening) : Prop where
  selecting : (exec (World.step dial me sig) start before).phase = .selecting
  ready : (exec (World.step dial me sig) start before).ready .heard = true
  /-- the deadline is looked at once, and is not due -/
  looked : .check ∉ waiting
  notDue : (exec (World.step dial me sig) start (before ++ .choose .heard :: waiting)).now <
    (exec (World.step dial me sig) start (before ++ .choose .heard :: waiting)).lastFull + BACKSTOP
  read : .round ∉ deciding
  /-- ready with the learned address, or there before the round -/
  unseen :
    (exec (World.step dial me sig) start before).seen <
        (exec (World.step dial me sig) start before).version ∨
      Meets (World.step dial me sig) Arrives (exec (World.step dial me sig) start before)
        (reaction waiting deciding)

/-- The race is run somewhere, to its round. -/
def Raced (happenings : List Happening) : Prop :=
  ∃ before waiting deciding after,
    happenings = before ++ reaction waiting deciding ++ .round :: after ∧
      Race dial me sig start before waiting deciding

variable {start}

/-- The loop is reacting once the select has taken a learned address, and until the
deadline is looked at. -/
theorem chosen_step_iff (seen : ℕ) (world : World Endpoint) (happening : Happening) :
    ((world.step dial me sig happening).phase = .chosen false ∧
        (world.step dial me sig happening).seen = seen) ↔
      ((world.phase = .chosen false ∧ world.seen = seen) ∧ happening ≠ .check) ∨
        (happening = .choose .heard ∧ world.phase = .selecting ∧ world.ready .heard = true ∧
          world.seen = seen) := by
  have houtside := outside_step dial me sig world happening
  cases happening with
  | tick _ | change _ | loseMembership | learn _ | loseDirectory | close =>
    obtain ⟨hphase, hseen⟩ := houtside trivial
    simp [hphase, hseen]
  | choose arm =>
    rw [World.step, World.choose.eq_def]
    split
    · rename_i hready
      cases arm with
      | closed => simp [hready.1]
      | heard =>
        dsimp only
        split <;> simp [hready.1, hready.2]
      | changed =>
        dsimp only
        split <;> simp [hready.1]
      | deadline => simp [hready.1]
    · rename_i hready
      have hnot : ∀ other, arm = other → world.phase = .selecting → ¬ world.ready other = true := by
        rintro _ rfl hphase hok
        exact hready ⟨hphase, hok⟩
      simp only [ne_eq, reduceCtorEq, not_false_eq_true, and_true, Happening.choose.injEq]
      refine (or_iff_left ?_).symm
      rintro ⟨harm, hphase, hok, -⟩
      exact hnot .heard harm hphase hok
  | check =>
    rw [World.step]
    split <;> simp_all
  | round =>
    rw [World.step]
    split <;> simp_all [World.round]
  | done =>
    rw [World.step]
    split <;> simp_all
  | awake =>
    rw [World.step]
    split
    · split <;> simp_all
    · simp_all

/-- The deadline was looked at, and the reaction stands, until the round. -/
theorem checked_step_iff (seen : ℕ) (world : World Endpoint) (happening : Happening) :
    ((world.step dial me sig happening).phase = .checked false ∧
        (world.step dial me sig happening).seen = seen) ↔
      ((world.phase = .checked false ∧ world.seen = seen) ∧ happening ≠ .round) ∨
        (happening = .check ∧ (world.phase = .chosen false ∧ world.seen = seen) ∧
          world.now < world.lastFull + BACKSTOP) := by
  have houtside := outside_step dial me sig world happening
  cases happening with
  | tick _ | change _ | loseMembership | learn _ | loseDirectory | close =>
    obtain ⟨hphase, hseen⟩ := houtside trivial
    simp [hphase, hseen]
  | choose arm =>
    rw [World.step, World.choose.eq_def]
    split
    · rename_i hready
      cases arm with
      | closed => simp [hready.1]
      | heard =>
        dsimp only
        split <;> simp [hready.1]
      | changed =>
        dsimp only
        split <;> simp [hready.1]
      | deadline => simp [hready.1]
    · simp
  | check =>
    rw [World.step]
    split
    · rename_i repair hphase
      cases repair <;> simp [hphase, and_comm]
    · rename_i hphase
      have hnot : world.phase ≠ .chosen false := hphase false
      simp [hnot]
  | round =>
    rw [World.step]
    split <;> simp_all [World.round]
  | done =>
    rw [World.step]
    split <;> simp_all
  | awake =>
    rw [World.step]
    split
    · split <;> simp_all
    · simp_all

/-- The membership's version goes up by what gets to the watch, and by nothing else. -/
theorem version_step (world : World Endpoint) (happening : Happening) :
    world.version ≤ (world.step dial me sig happening).version ∧
      (world.version < (world.step dial me sig happening).version ↔ Arrives world happening) := by
  cases happening with
  | change membership =>
    rw [World.step, Arrives]
    split
    · rename_i hgone
      simp [hgone]
    · rename_i hgone
      simp [World.version, hgone]
  | _ =>
    rw [World.version, World.version, changes_step dial me sig world (by simp)]
    exact ⟨le_rfl, iff_of_false (lt_irrefl _) id⟩

/-- Over a run the version goes up exactly if a change gets to the watch. -/
theorem version_exec (world : World Endpoint) (happenings : List Happening) :
    world.version ≤ (exec (World.step dial me sig) world happenings).version ∧
      (world.version < (exec (World.step dial me sig) world happenings).version ↔
        Meets (World.step dial me sig) Arrives world happenings) := by
  induction happenings using List.reverseRecOn with
  | nil => exact ⟨le_rfl, iff_of_false (lt_irrefl _) not_meets_nil⟩
  | append_singleton happenings last ih =>
    rw [exec_append, exec_cons, exec_nil, meets_concat, ← ih.2]
    have hlast := version_step dial me sig
      (exec (World.step dial me sig) world happenings) last
    rw [← hlast.2]
    have hfirst := ih.1
    have hmore := hlast.1
    constructor
    · omega
    · constructor
      · intro hlt
        omega
      · rintro (hlt | hlt)
        · omega
        · omega

/-- **A reaction reads a change unseen exactly if it ran the race.** -/
theorem unseen_iff_race (h : Recorded dial me start) (hstart : start.phase = .selecting)
    (happenings : List Happening) :
    ((exec (World.step dial me sig) start happenings).phase = .checked false ∧
        (exec (World.step dial me sig) start happenings).seen <
          (exec (World.step dial me sig) start happenings).version) ↔
      ∃ before waiting deciding, happenings = before ++ reaction waiting deciding ∧
        Race dial me sig start before waiting deciding := by
  have hchecked := fun seen => exec_iff_entered
    (P := fun world : World Endpoint => world.phase = .checked false ∧ world.seen = seen)
    (checked_step_iff dial me sig seen) (s := start)
    (by simp [hstart]) happenings
  have hchosen := fun seen first => exec_iff_entered
    (P := fun world : World Endpoint => world.phase = .chosen false ∧ world.seen = seen)
    (chosen_step_iff dial me sig seen) (s := start)
    (by simp [hstart]) first
  -- how far the membership went meanwhile
  have hwent := fun before waiting deciding => version_exec dial me sig
    (exec (World.step dial me sig) start before) (reaction waiting deciding)
  constructor
  · rintro ⟨hphase, hlt⟩
    obtain ⟨first, looks, deciding, rfl, ⟨rfl, hfirst, hnotDue⟩, hread⟩ :=
      (hchecked _).mp ⟨hphase, rfl⟩
    obtain ⟨before, takes, waiting, rfl, ⟨rfl, hselecting, hready, hseen⟩, hlooked⟩ :=
      (hchosen _ first).mp hfirst
    have hsplit : before ++ .choose .heard :: waiting ++ .check :: deciding =
        before ++ reaction waiting deciding := by simp [reaction]
    refine ⟨before, waiting, deciding, hsplit, hselecting, hready, hlooked, hnotDue, hread, ?_⟩
    rw [← (hwent before waiting deciding).2, hseen]
    rw [hsplit, exec_append] at hlt ⊢
    omega
  · rintro ⟨before, waiting, deciding, rfl, hrace⟩
    have hfirst := (hchosen (exec (World.step dial me sig) start before).seen
      (before ++ .choose .heard :: waiting)).mpr
        ⟨before, _, waiting, rfl, ⟨rfl, hrace.selecting, hrace.ready, rfl⟩, hrace.looked⟩
    obtain ⟨hphase, hseen⟩ := (hchecked (exec (World.step dial me sig) start before).seen).mpr
      ⟨before ++ .choose .heard :: waiting, .check, deciding, by simp [reaction],
        ⟨rfl, hfirst, hrace.notDue⟩, hrace.read⟩
    refine ⟨hphase, ?_⟩
    have hbefore : Recorded dial me (exec (World.step dial me sig) start before) :=
      exec_invariant (fun _ happening h => h.step sig happening) before h
    have hle := hbefore.seen_le
    obtain ⟨hmore, hmeets⟩ := hwent before waiting deciding
    rw [hseen, exec_append]
    rcases hrace.unseen with hready | harrives
    · omega
    · have hlt := hmeets.mpr harrives
      omega

/-- **Changes are repaired exactly if the race is never run.** In whatever order addresses
are learned, the membership changes, time passes and the select takes what is ready: every
change that was marked seen was consumed by a round, and the first round to do so offers
everyone reachable in a membership at least that new, if and only if the select never took
a learned address, with the deadline not due, when a change of the membership was ready
with it or came before the round read the membership. -/
theorem repaired_iff (dial : Dialling Endpoint) (me : MemberId) (sig : AddressSigning) (now : ℕ)
    (opened : MembershipState) (directory : Directory Endpoint) (happenings : List Happening) :
    Repaired dial me (exec (World.step dial me sig) (World.start now opened directory) happenings) ↔
      ¬ Raced dial me sig (World.start now opened directory) happenings := by
  have hstart : Recorded dial me (World.start now opened directory) := .start now opened directory
  rw [repaired_iff_vigilant, along_iff_not_meets, not_iff_not]
  constructor
  · rintro ⟨first, happening, after, rfl, hnot⟩
    have hrun : Recorded dial me (exec (World.step dial me sig) (World.start now opened directory)
        first) := exec_invariant (fun _ happening h => h.step sig happening) first hstart
    cases happening with
    | round =>
      rw [Vigilant, Classical.not_imp] at hnot
      obtain ⟨before, waiting, deciding, rfl, hrace⟩ := (unseen_iff_race dial me sig hstart rfl first).mp
        ⟨hnot.1, lt_of_le_of_ne hrun.seen_le hnot.2⟩
      exact ⟨before, waiting, deciding, after, rfl, hrace⟩
    | _ => exact absurd trivial hnot
  · rintro ⟨before, waiting, deciding, after, rfl, hrace⟩
    obtain ⟨hphase, hlt⟩ := (unseen_iff_race dial me sig hstart rfl _).mpr
      ⟨before, waiting, deciding, rfl, hrace⟩
    exact ⟨_, .round, after, rfl, fun hvigilant => hlt.ne (hvigilant hphase)⟩

end Race

end Consumed

/-! ## A member that left and came back -/

namespace Sample

/-- An endpoint is whom to dial, and where. -/
def dial : Dialling (MemberId × NodeAddr) where
  toEndpointAddr addr member := .ok (member, addr)
  addr := Prod.snd
  id := Prod.fst

/-- Every statement is signed. -/
def sig : AddressSigning where
  postcard _ _ _ := .ok []
  verify _ _ _ := true

def here : MemberId := ⟨1⟩

def peer : MemberId := ⟨2⟩

/-- A group of two, and the group of one that is left when the other is expelled. -/
def ofTwo : MembershipState :=
  { MembershipState.new with
    group := some ⟨1⟩
    members := .ofList [(here, ⟨here, "here", 0, 0⟩), (peer, ⟨peer, "peer", 0, 0⟩)] compare
    core := .ofList [(here, .lookupOnly), (peer, .lookupOnly)] compare
    changedAt := 2 }

def ofOne : MembershipState :=
  { MembershipState.new with
    group := some ⟨1⟩
    members := .ofList [(here, ⟨here, "here", 0, 0⟩)] compare
    core := .ofList [(here, .lookupOnly)] compare
    changedAt := 3 }

/-- Somebody says where it is. -/
def announced : SignedAddress := ⟨⟨3⟩, ⟨some "https://relay", ∅⟩, 1, ⟨0⟩⟩

/-- A change is repaired; the peer is expelled and comes back; an address is learned
before the select looks, and the select takes that arm. -/
def returning : List Happening :=
  [.change ofTwo, .choose .changed, .check, .round, .done, .tick LEAST_BETWEEN_OFFERS, .awake,
    .change ofOne, .change ofTwo, .learn announced, .choose .heard, .check, .round]

def returned : World (MemberId × NodeAddr) :=
  exec (World.step dial here sig) (World.start 0 ofTwo ⟨∅, ∅, 0⟩) returning

/-- Both changes are consumed by a round that offers nobody, though the peer is
reachable. -/
theorem reaction_consumes :
    ¬Repaired dial here returned ∧
      returned.rounds.map (fun round => (round.repair, round.upTo)) = [(true, 1), (false, 3)] ∧
      returned.rounds.map Round.peers = [[(peer, .lookupOnly)], []] ∧
      syncWith dial returned.membership here returned.directory = [(peer, .lookupOnly)] := by
  have hrounds : returned.rounds.map (fun round => (round.repair, round.upTo)) =
      [(true, 1), (false, 3)] := by decide +kernel
  refine ⟨fun h => ?_, hrounds, by decide +kernel, by decide +kernel⟩
  rcases hsplit : returned.rounds with _ | ⟨first, _ | ⟨second, rest⟩⟩
  · simp [hsplit] at hrounds
  · simp [hsplit] at hrounds
  · simp only [hsplit, List.map_cons, List.cons.injEq, Prod.mk.injEq] at hrounds
    obtain ⟨⟨-, hfirst⟩, ⟨hreaction, hsecond⟩, -⟩ := hrounds
    have hfull := (h.first [first] second rest hsplit 2 (by decide) (by omega)
      (by simp [hfirst])).1
    exact absurd (hreaction.symm.trans hfull.1) (by decide)

end Sample

end Offers

end Distlib
