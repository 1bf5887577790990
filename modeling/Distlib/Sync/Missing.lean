import Distlib.Sync.Offers

/-!
# Asking again for content nobody offered

A loop asks for the content of entries this node holds and was never sent. What did not
arrive waits before it is asked about again, longer at each failure and up to five
minutes, and all the waits are forgotten when the membership changes, since a member who
has just joined is the likeliest to have it.

Between two rounds the loop waits for a deadline and for a change of the membership, and
it is the arm of the select for the change that forgets. But the round that follows reads
the membership as well, and marks it seen by that. A change that becomes ready together
with the deadline, when the select takes the deadline, or that lands between the select and
the reading, is therefore consumed without anything being forgotten, and no later select
hears of it.

The world has time, the membership and the directory change between any two steps. Beside
what the program has it keeps the rounds so far, and `asks_again` says what has to hold of
them: whatever a round wants that knows of a change no round before has looked for content
under is due. It does if no round reads a change unseen while something waits; and a round
that does so may leave any of that waiting.
-/

namespace Distlib

open GuardedRun

namespace Missing

/-! ## What did not arrive -/

/-- How often the document is looked at, in nanoseconds. -/
def FETCH_AGAIN : ℕ := 5 * 10 ^ 9

/-- The longest a hash nobody could serve waits before it is asked about again. -/
def ASK_AGAIN : ℕ := 300 * 10 ^ 9

/-- When a hash may be asked about again, and how long it was made to wait. -/
structure Retry where
  askAt : ℕ
  waited : ℕ
  deriving DecidableEq

/-- The hashes asked about that did not arrive. -/
structure Unanswered where
  hashes : OrdMap ContentHash Retry

namespace Unanswered

/-- Whether `hash` may be asked about: never asked, or waited out. -/
def due (unanswered : Unanswered) (hash : ContentHash) (now : ℕ) : Bool :=
  unanswered.hashes[hash]?.all fun retry => retry.askAt ≤ now

/-- `hash` did not arrive: it waits, twice as long as before. -/
def failed (unanswered : Unanswered) (hash : ContentHash) (now : ℕ) : Unanswered :=
  let waited :=
    match unanswered.hashes[hash]? with
    | none => FETCH_AGAIN
    | some retry => min (retry.waited * 2) ASK_AGAIN
  ⟨unanswered.hashes.insert hash ⟨now + waited, waited⟩⟩

/-- Every hash may be asked about at once again. -/
def forgetAll (_ : Unanswered) : Unanswered := ⟨∅⟩

/-- What is no longer wanted is forgotten. -/
def retain (unanswered : Unanswered) (wanted : List ContentHash) : Unanswered :=
  ⟨unanswered.hashes.filter fun hash _ => wanted.contains hash⟩

/-- Nothing waits: whatever failed has waited out. -/
def Rested (unanswered : Unanswered) (now : ℕ) : Prop :=
  ∀ entry ∈ unanswered.hashes.toList, entry.2.askAt ≤ now

instance (unanswered : Unanswered) (now : ℕ) : Decidable (unanswered.Rested now) :=
  inferInstanceAs (Decidable (∀ entry ∈ unanswered.hashes.toList, entry.2.askAt ≤ now))

variable {unanswered : Unanswered} {hash : ContentHash} {now : ℕ}

theorem due_iff : unanswered.due hash now ↔
    ∀ retry, unanswered.hashes[hash]? = some retry → retry.askAt ≤ now := by
  rw [due]
  cases unanswered.hashes[hash]? <;> simp

theorem rested_iff : unanswered.Rested now ↔ ∀ hash, unanswered.due hash now := by
  simp only [due_iff]
  constructor
  · intro h hash retry hretry
    exact h (hash, retry) (Std.ExtTreeMap.mem_toList_iff_getElem?_eq_some.mpr hretry)
  · rintro h ⟨hash, retry⟩ hentry
    exact h hash retry (Std.ExtTreeMap.mem_toList_iff_getElem?_eq_some.mp hentry)

theorem Rested.later (h : unanswered.Rested now) (elapsed : ℕ) :
    unanswered.Rested (now + elapsed) := fun entry hentry =>
  (h entry hentry).trans (Nat.le_add_right _ _)

theorem rested_forgetAll (unanswered : Unanswered) (now : ℕ) :
    unanswered.forgetAll.Rested now := by
  rw [rested_iff]
  intro hash
  simp [due, forgetAll]

/-- What is wanted waits as it did before the rest was forgotten. -/
theorem due_retain {wanted : List ContentHash} (hwanted : hash ∈ wanted) :
    (unanswered.retain wanted).due hash now ↔ unanswered.due hash now := by
  have hsame : ∀ retry, (unanswered.retain wanted).hashes[hash]? = some retry ↔
      unanswered.hashes[hash]? = some retry := by
    intro retry
    rw [retain, OrdMap.getElem?_filter_eq_some]
    exact and_iff_left (List.contains_iff_mem.mpr hwanted)
  rw [due_iff, due_iff]
  exact forall_congr' fun retry => imp_congr_left (hsame retry)

end Unanswered

/-! ## The loop -/

/-- Where the loop is. -/
inductive Phase : Type where
  | waiting (nextRound : ℕ)
  /-- the select took the deadline -/
  | reading
  /-- the document is asked what is not here -/
  | looking (providers : List MemberId)
  /-- one hash after the other is asked about, as was due when the round began -/
  | asking (round : ℕ) (left : List ContentHash)
  | ended
  deriving DecidableEq

/-- The arms of the select. -/
inductive Arm : Type where
  | timer
  | changed

/-- What a round wanted that looked what is not here. -/
structure Look where
  wanted : List ContentHash
  now : ℕ
  unanswered : Unanswered

/-- What a round did: it may have had nobody to ask, or not have been told what is not
here. -/
structure Round where
  /-- the version of the membership it read -/
  upTo : ℕ
  looked : Option Look

structure World (Endpoint : Type) where
  now : ℕ
  membership : MembershipState
  /-- how often the membership has changed, and how many of those the loop has seen -/
  version : ℕ
  seen : ℕ
  membershipGone : Bool
  directory : Directory Endpoint
  unanswered : Unanswered
  phase : Phase
  rounds : List Round

inductive Happening (Endpoint : Type) : Type where
  | tick (elapsed : ℕ)
  | change (membership : MembershipState)
  | loseMembership
  /-- somebody's address is learned -/
  | locate (directory : Directory Endpoint)
  /-- the select takes an arm -/
  | choose (arm : Arm)
  /-- the membership is read, and whom to ask -/
  | read
  /-- what is not here, unless that fails -/
  | look (wanted : Option (List ContentHash))
  /-- the next hash is passed over, or has been asked about and arrived or not -/
  | fetch (arrived : Bool)

variable {Endpoint : Type} (dial : Dialling Endpoint) (me : MemberId)

namespace World

/-- The loop begins. -/
def start (now : ℕ) (membership : MembershipState) (directory : Directory Endpoint) :
    World Endpoint where
  now := now
  membership := membership
  version := 0
  seen := 0
  membershipGone := false
  directory := directory
  unanswered := ⟨∅⟩
  phase := .waiting (now + FETCH_AGAIN)
  rounds := []

/-- The members to ask: those the document is offered to. -/
def providers (world : World Endpoint) : List MemberId :=
  (syncWith dial world.membership me world.directory).map dial.id

/-- The round is over, and the next one is waited for. -/
def wait (world : World Endpoint) : World Endpoint :=
  { world with phase := .waiting (world.now + FETCH_AGAIN) }

/-- The select takes an arm that is ready. -/
def choose (world : World Endpoint) (arm : Arm) : World Endpoint :=
  match world.phase, arm with
  | .waiting nextRound, .timer =>
    if nextRound ≤ world.now then { world with phase := .reading } else world
  | .waiting _, .changed =>
    if world.seen < world.version then
      { world with seen := world.version, unanswered := world.unanswered.forgetAll }
    else if world.membershipGone then { world with phase := .ended }
    else world
  | _, _ => world

/-- The membership is read, and marked seen. -/
def read (world : World Endpoint) : World Endpoint :=
  match world.phase with
  | .reading =>
    let providers := world.providers dial me
    let world := { world with seen := world.version }
    if providers.isEmpty then wait { world with rounds := world.rounds ++ [⟨world.seen, none⟩] }
    else { world with phase := .looking providers }
  | _ => world

/-- What is not here is known, or cannot be told. -/
def look (world : World Endpoint) (wanted : Option (List ContentHash)) : World Endpoint :=
  match world.phase, wanted with
  | .looking _, none => wait { world with rounds := world.rounds ++ [⟨world.seen, none⟩] }
  | .looking _, some wanted =>
    let unanswered := world.unanswered.retain wanted
    { world with
      unanswered
      rounds := world.rounds ++ [⟨world.seen, some ⟨wanted, world.now, unanswered⟩⟩]
      phase := .asking world.now wanted }
  | _, _ => world

/-- The next hash is done with, or the round is. -/
def fetch (world : World Endpoint) (arrived : Bool) : World Endpoint :=
  match world.phase with
  | .asking _ [] => world.wait
  | .asking round (hash :: left) =>
    let unanswered :=
      if world.unanswered.due hash round && !arrived then world.unanswered.failed hash world.now
      else world.unanswered
    { world with unanswered, phase := .asking round left }
  | _ => world

def step (world : World Endpoint) : Happening Endpoint → World Endpoint
  | .tick elapsed => { world with now := world.now + elapsed }
  | .change membership =>
    if world.membershipGone then world
    else { world with membership, version := world.version + 1 }
  | .loseMembership => { world with membershipGone := true }
  | .locate directory => { world with directory }
  | .choose arm => world.choose arm
  | .read => world.read dial me
  | .look wanted => world.look wanted
  | .fetch arrived => world.fetch arrived

end World

/-! ## What has to hold of the rounds -/

/-- Everything the round wanted was due. -/
def Round.AllDue (round : Round) : Prop :=
  ∀ look, round.looked = some look → ∀ hash ∈ look.wanted, look.unanswered.due hash look.now

theorem Round.allDue_iff {round : Round} : round.AllDue ↔ round.looked.all fun look =>
    look.wanted.all fun hash => look.unanswered.due hash look.now := by
  rw [Option.all_eq_true]
  exact forall₂_congr fun look _ => List.all_eq_true.symm

instance (round : Round) : Decidable round.AllDue := decidable_of_iff' _ round.allDue_iff

/-- A round that reads a membership that changed since the round before asks about
everything it wants. -/
def AsksAgain (rounds : List Round) : Prop :=
  ∀ earlier previous round later, rounds = earlier ++ previous :: round :: later →
    previous.upTo < round.upTo → round.AllDue

/-- No wait outlives the rounds that know of a change: a round asks about everything it
wants unless an earlier one looked under a membership as new. -/
def KeepsNoWait (rounds : List Round) : Prop :=
  ∀ earlier round later, rounds = earlier ++ round :: later →
    (∀ other ∈ earlier, other.looked.isSome → other.upTo < round.upTo) → round.AllDue

/-- **The condition on a round**: it reads a membership it has seen, or nothing waits. -/
def Vigilant (world : World Endpoint) : Happening Endpoint → Prop
  | .read =>
    world.phase = .reading → world.seen = world.version ∨ world.unanswered.Rested world.now
  | _ => True

instance (world : World Endpoint) :
    (happening : Happening Endpoint) → Decidable (Vigilant world happening)
  | .read => inferInstanceAs (Decidable (_ → _))
  | .tick _ | .change _ | .loseMembership | .locate _ | .choose _ | .look _ | .fetch _ =>
    .isTrue trivial

/-! ## What vigilance keeps -/

/-- One round more breaks the rule only itself. -/
theorem keepsNoWait_concat {rounds : List Round} {round : Round} :
    KeepsNoWait (rounds ++ [round]) ↔ KeepsNoWait rounds ∧
      ((∀ other ∈ rounds, other.looked.isSome → other.upTo < round.upTo) → round.AllDue) := by
  constructor
  · intro h
    refine ⟨fun earlier other later hsplit hnews => ?_, fun hnews => h rounds round [] rfl hnews⟩
    exact h earlier other (later ++ [round]) (by rw [hsplit, List.append_assoc, List.cons_append])
      hnews
  · rintro ⟨hold, hnew⟩ earlier other later hsplit hnews
    rcases List.eq_nil_or_concat later with rfl | ⟨later, last, rfl⟩
    · obtain ⟨rfl, hlast⟩ := List.append_inj' hsplit rfl
      obtain rfl := List.singleton_inj.mp hlast
      exact hnew hnews
    · rw [List.concat_eq_append, ← List.cons_append, ← List.append_assoc] at hsplit
      obtain ⟨rfl, -⟩ := List.append_inj' hsplit rfl
      exact hold earlier other later rfl hnews

/-- What holds at every moment of a vigilant run: while no round has looked under the
membership last seen, nothing waits. -/
structure Kept (world : World Endpoint) : Prop where
  upTo_le : ∀ round ∈ world.rounds, round.upTo ≤ world.seen
  seen_le : world.seen ≤ world.version
  ordered : world.rounds.Pairwise fun round later => round.upTo ≤ later.upTo
  rested : (∀ round ∈ world.rounds, round.looked.isSome → round.upTo < world.seen) →
    world.unanswered.Rested world.now
  asking : ∀ round left, world.phase = .asking round left →
    ∃ round ∈ world.rounds, round.looked.isSome ∧ round.upTo = world.seen
  keeps : KeepsNoWait world.rounds

namespace Kept

variable {dial me} {world : World Endpoint}

theorem start (now : ℕ) (membership : MembershipState) (directory : Directory Endpoint) :
    Kept (World.start now membership directory) where
  upTo_le _ hround := absurd hround List.not_mem_nil
  seen_le := le_rfl
  ordered := .nil
  rested _ := Unanswered.rested_forgetAll ⟨∅⟩ now
  asking _ _ hphase := by cases hphase
  keeps earlier _ _ hsplit := by simp [World.start] at hsplit

/-- Only where the loop is changed, and it is not where it asks. -/
theorem moved (h : Kept world) {phase : Phase} (hphase : ∀ round left, phase ≠ .asking round left) :
    Kept { world with phase } :=
  ⟨h.upTo_le, h.seen_le, h.ordered, h.rested, fun round left heq => absurd heq (hphase round left),
    h.keeps⟩

theorem choose (h : Kept world) (arm : Arm) : Kept (world.choose arm) := by
  rw [World.choose.eq_def]
  split
  · split
    · exact h.moved (by simp)
    · exact h
  · rename_i nextRound hphase
    split
    · rename_i hnews
      exact ⟨fun round hround => (h.upTo_le round hround).trans hnews.le, le_rfl, h.ordered,
        fun _ => Unanswered.rested_forgetAll world.unanswered _, fun _ _ heq => by simp [hphase] at heq, h.keeps⟩
    · split
      · exact h.moved (by simp)
      · exact h
  · exact h

/-- A round that did not look. -/
theorem skipped (h : Kept world) {seen : ℕ} (hlater : world.seen ≤ seen) (hseen : seen ≤ world.version)
    (hrested : (∀ round ∈ world.rounds, round.looked.isSome → round.upTo < seen) →
      world.unanswered.Rested world.now) :
    Kept (World.wait { world with seen, rounds := world.rounds ++ [⟨seen, none⟩] }) := by
  refine ⟨?_, hseen, ?_, fun hnews => hrested ?_, fun _ _ heq => (by cases heq), ?_⟩
  · intro round hround
    rcases List.mem_append.mp hround with hold | hnew
    · exact (h.upTo_le round hold).trans hlater
    · rw [List.mem_singleton.mp hnew]
      exact le_rfl
  · refine List.pairwise_append.mpr ⟨h.ordered, List.pairwise_singleton _ _, ?_⟩
    intro round hround last hlast
    rw [List.mem_singleton.mp hlast]
    exact (h.upTo_le round hround).trans hlater
  · exact fun round hround => hnews round (List.mem_append_left _ hround)
  · exact keepsNoWait_concat.mpr ⟨h.keeps, fun _ look hlook => by cases hlook⟩

theorem read (h : Kept world) (hvigilant : Vigilant world .read) : Kept (world.read dial me) := by
  rw [World.read.eq_def]
  split
  · rename_i hphase
    have hrested : (∀ round ∈ world.rounds, round.looked.isSome → round.upTo < world.version) →
        world.unanswered.Rested world.now := by
      rcases hvigilant hphase with hseen | hrested
      · rw [← hseen]
        exact h.rested
      · exact fun _ => hrested
    dsimp only
    split
    · exact h.skipped h.seen_le le_rfl hrested
    · exact ⟨fun round hround => (h.upTo_le round hround).trans h.seen_le, le_rfl, h.ordered, hrested,
        fun _ _ heq => (by cases heq), h.keeps⟩
  · exact h

theorem look (h : Kept world) (wanted : Option (List ContentHash)) : Kept (world.look wanted) := by
  rw [World.look.eq_def]
  split
  · exact h.skipped le_rfl h.seen_le h.rested
  · rename_i providers wanted hphase
    refine ⟨?_, h.seen_le, ?_, fun hnews => ?_, fun round left heq => ?_, ?_⟩
    · intro round hround
      rcases List.mem_append.mp hround with hold | hnew
      · exact h.upTo_le round hold
      · rw [List.mem_singleton.mp hnew]
    · refine List.pairwise_append.mpr ⟨h.ordered, List.pairwise_singleton _ _, ?_⟩
      intro round hround last hlast
      rw [List.mem_singleton.mp hlast]
      exact h.upTo_le round hround
    · exact absurd (hnews _ (List.mem_append_right _ (List.mem_singleton_self _)) rfl) (lt_irrefl _)
    · exact ⟨_, List.mem_append_right _ (List.mem_singleton_self _), rfl, rfl⟩
    · refine keepsNoWait_concat.mpr ⟨h.keeps, fun hnews look hlook hash hwanted => ?_⟩
      cases hlook
      rw [Unanswered.due_retain hwanted]
      exact Unanswered.rested_iff.mp (h.rested hnews) hash
  · exact h

theorem fetch (h : Kept world) (arrived : Bool) : Kept (world.fetch arrived) := by
  rw [World.fetch.eq_def]
  split
  · exact h.moved (by simp)
  · rename_i round hash left hphase
    obtain ⟨asked, hmem, hlooked, hupTo⟩ := h.asking _ _ hphase
    have hnever : ¬∀ round ∈ world.rounds, round.looked.isSome → round.upTo < world.seen :=
      fun hnews => absurd (hnews asked hmem hlooked) (by omega)
    exact ⟨h.upTo_le, h.seen_le, h.ordered, fun hnews => absurd hnews hnever,
      fun _ _ _ => ⟨asked, hmem, hlooked, hupTo⟩, h.keeps⟩
  · exact h

/-- **A vigilant step keeps it.** -/
theorem step (h : Kept world) (happening : Happening Endpoint)
    (hvigilant : Vigilant world happening) : Kept (world.step dial me happening) := by
  cases happening with
  | tick elapsed =>
    exact ⟨h.upTo_le, h.seen_le, h.ordered, fun hnews => (h.rested hnews).later elapsed, h.asking,
      h.keeps⟩
  | change membership =>
    rw [World.step]
    split
    · exact h
    · exact ⟨h.upTo_le, h.seen_le.trans (Nat.le_succ _), h.ordered, h.rested, h.asking, h.keeps⟩
  | loseMembership => exact ⟨h.upTo_le, h.seen_le, h.ordered, h.rested, h.asking, h.keeps⟩
  | locate directory => exact ⟨h.upTo_le, h.seen_le, h.ordered, h.rested, h.asking, h.keeps⟩
  | choose arm => exact h.choose arm
  | read => exact h.read hvigilant
  | look wanted => exact h.look wanted
  | fetch arrived => exact h.fetch arrived

/-- No wait outlives a change the round before it did not know of, in particular. -/
theorem asksAgain (h : Kept world) : AsksAgain world.rounds := by
  intro earlier previous round later hsplit hnews
  have hordered := h.ordered
  rw [hsplit] at hordered
  refine h.keeps (earlier ++ [previous]) round later
    (by rw [hsplit, List.append_assoc, List.singleton_append]) fun other hother _ => ?_
  rcases List.mem_append.mp hother with hearlier | hlast
  · exact ((List.pairwise_append.mp hordered).2.2 other hearlier previous
      List.mem_cons_self).trans_lt hnews
  · rw [List.mem_singleton.mp hlast]
    exact hnews

/-- **A round that is not vigilant may leave a wait**: whatever else it wants, what waits
does not become due by the change it reads. -/
theorem not_asksAgain (h : Kept world) (hphase : world.phase = .reading)
    (hunseen : world.seen ≠ world.version) (hwaits : ¬world.unanswered.Rested world.now)
    (hsomebody : world.providers dial me ≠ []) :
    ∃ wanted, ¬AsksAgain (((world.read dial me).look (some wanted)).rounds) := by
  rw [Unanswered.rested_iff, not_forall] at hwaits
  obtain ⟨hash, hwaits⟩ := hwaits
  have hbefore : world.rounds ≠ [] := fun hnone => hwaits <| by
    refine Unanswered.rested_iff.mp (h.rested fun round hround => ?_) hash
    rw [hnone] at hround
    exact absurd hround List.not_mem_nil
  obtain ⟨earlier, previous, hrounds⟩ := (List.eq_nil_or_concat world.rounds).resolve_left hbefore
  have hold : previous.upTo < world.version := by
    have hle := h.upTo_le previous (by rw [hrounds]; simp)
    have hseen := h.seen_le
    omega
  have hlooking : world.read dial me =
      { world with seen := world.version, phase := .looking (world.providers dial me) } := by
    rw [World.read, hphase]
    dsimp only
    rw [if_neg (by simpa using hsomebody)]
  refine ⟨[hash], fun hasks => hwaits ?_⟩
  rw [hlooking, World.look.eq_def] at hasks
  dsimp only at hasks
  rw [hrounds, List.concat_eq_append, List.append_assoc] at hasks
  have hdue := hasks earlier previous
    ⟨world.version, some ⟨[hash], world.now, world.unanswered.retain [hash]⟩⟩ [] rfl hold _ rfl hash
    (List.mem_singleton_self _)
  exact (Unanswered.due_retain (List.mem_singleton_self _)).mp hdue

end Kept

/-- **A change is asked about while rounds are vigilant.** In whatever order the membership
changes, time passes, the select takes what is ready and fetches fail: if no round has read
the membership with a change unseen while something waits, every round that reads a membership
that changed since the one before asks about everything it wants, and no wait outlives the
first round that looks under a change. And the condition is no stronger than it has to be: the
first round that breaks it, if it finds somebody to ask, may want what is not asked about. -/
theorem asks_again (dial : Dialling Endpoint) (me : MemberId) (now : ℕ)
    (membership : MembershipState) (directory : Directory Endpoint)
    (happenings : List (Happening Endpoint))
    (hvigilant : Along (World.step dial me) Vigilant (World.start now membership directory)
      happenings) :
    let world := exec (World.step dial me) (World.start now membership directory) happenings
    AsksAgain world.rounds ∧ KeepsNoWait world.rounds ∧
      (¬Vigilant world .read → world.providers dial me ≠ [] → ∃ wanted,
        ¬AsksAgain (exec (World.step dial me) world [.read, .look (some wanted)]).rounds) := by
  dsimp only
  have hkept : Kept (exec (World.step dial me) (World.start now membership directory) happenings) :=
    hvigilant.invariant (fun _ happening h hok => h.step happening hok)
      (Kept.start now membership directory)
  refine ⟨hkept.asksAgain, hkept.keeps, fun hbroken hsomebody => ?_⟩
  obtain ⟨hphase, hrest⟩ := Classical.not_imp.mp hbroken
  obtain ⟨hunseen, hwaits⟩ := not_or.mp hrest
  exact hkept.not_asksAgain hphase hunseen hwaits hsomebody

/-! ## A hash that waits through a change -/

end Missing

namespace Missing.Sample

open Offers.Sample

/-- A group of two that a third joins. -/
def joined : MembershipState :=
  { ofTwo with members := ofTwo.members.insert ⟨3⟩ ⟨⟨3⟩, "third", 0, 0⟩, changedAt := 3 }

/-- A hash that nobody serves in two rounds, so that it waits for ten seconds; five seconds on,
somebody joins as the next round comes due. -/
def stranded : List (Happening (MemberId × NodeAddr)) :=
  [.tick FETCH_AGAIN, .choose .timer, .read, .look (some [⟨7⟩]), .fetch false, .fetch false,
    .tick FETCH_AGAIN, .choose .timer, .read, .look (some [⟨7⟩]), .fetch false, .fetch false,
    .tick FETCH_AGAIN, .change joined]

/-- The world after the third round looked, once the select took these arms. -/
def after (arms : List Arm) : World (MemberId × NodeAddr) :=
  exec (World.step dial here) (World.start 0 ofTwo ⟨∅, ∅, 0⟩)
    (stranded ++ arms.map .choose ++ [.read, .look (some [⟨7⟩])])

/-- The select takes the change first: the hash is asked about again. -/
theorem asks_again_when_changed_is_taken :
    AsksAgain (after [.changed, .timer]).rounds ∧ KeepsNoWait (after [.changed, .timer]).rounds := by
  have hasks := asks_again dial here 0 ofTwo ⟨∅, ∅, 0⟩
    (stranded ++ [.changed, .timer].map .choose ++ [.read, .look (some [⟨7⟩])]) (by decide +kernel)
  exact ⟨hasks.1, hasks.2.1⟩

/-- The select takes the deadline, which is as ready: the third round reads the change, and does
not ask about the hash it wants. -/
theorem timer_hides_the_change :
    ¬AsksAgain (after [.timer]).rounds ∧
      (after [.timer]).rounds.map (fun round => (round.upTo, decide round.AllDue)) =
        [(0, true), (0, true), (1, false)] := by
  have hrounds : (after [.timer]).rounds.map (fun round => (round.upTo, decide round.AllDue)) =
      [(0, true), (0, true), (1, false)] := by decide +kernel
  refine ⟨fun hasks => ?_, hrounds⟩
  obtain ⟨first, rest, hsplit, -, hrest⟩ := List.map_eq_cons_iff.mp hrounds
  obtain ⟨second, rest, rfl, hsecond, hrest⟩ := List.map_eq_cons_iff.mp hrest
  obtain ⟨third, rest, rfl, hthird, -⟩ := List.map_eq_cons_iff.mp hrest
  obtain ⟨hbefore, -⟩ := Prod.mk.inj hsecond
  obtain ⟨hnew, hleft⟩ := Prod.mk.inj hthird
  exact of_decide_eq_false hleft (hasks [first] second third rest hsplit (by omega))

end Missing.Sample

end Distlib
