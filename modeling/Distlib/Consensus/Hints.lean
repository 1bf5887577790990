import Distlib.Consensus.Follower
import Distlib.Lib.GuardedRun
import Distlib.Net.Directory

/-!
# What wakes a follower

A follower fetches the log, and then waits: for a timer, and for a hint from whoever
listens to the group's gossip. A hint says how far the log is said to reach, or that
announcements may have been missed; the follower looks at it, and if it says nothing past
its own cursor goes on waiting.

The hints come through a channel that keeps the latest only. The listener's argument that
lying low does no harm is that a follower keeps the highest index it has seen. It does not:
what is looked at is the last hint passed on, and one that says little, put over one that
says much or over a gap before the follower has looked, leaves it waiting for its timer.

The world has gossip arrive between any two steps of the loop, while a fetch runs as well,
and keeps beside what the program has the hints passed on since the fetch began.
`nothing_hidden_iff` is when a wait hides none of them.
-/

namespace Distlib

open GuardedRun

namespace Hints

open Follower

/-! ## What is heard -/

/-- Why the follow loop should look at the log again. -/
inductive Hint : Type where
  /-- somebody says the log reaches this index -/
  | reaches (upTo : ℕ)
  /-- something happened that may have hidden announcements -/
  | mayHaveMissed
  deriving DecidableEq

/-- Whether a follower with this cursor goes and looks. -/
def Hint.isReason (cursor : ℕ) : Hint → Bool
  | .reaches upTo => !decide (upTo ≤ cursor)
  | .mayHaveMissed => true

/-- What a member says on the group's topic. -/
inductive Announcement : Type where
  /-- the sender has applied the log up to this index -/
  | applied (upTo : ℕ)
  | reachableAt (signed : SignedAddress)

/-- What gossip hands to the listener. -/
inductive Event : Type where
  /-- a message, if it decodes -/
  | received (announcement : Option Announcement)
  | lagged
  | neighborUp
  | neighborDown
  | failed

/-- What the listener makes of an event. -/
inductive Heard : Type where
  | nothing
  | hint (hint : Hint)
  | stops

/-- The listener: nothing on a core node follows the log, so there it passes nothing on. -/
def listen (isCore : Bool) : Event → Heard
  | .received (some (.reachableAt _)) => .nothing
  | .received (some (.applied upTo)) => if isCore then .nothing else .hint (.reaches upTo)
  | .received none => .nothing
  | .lagged => if isCore then .nothing else .hint .mayHaveMissed
  | .neighborUp => if isCore then .nothing else .hint .mayHaveMissed
  | .neighborDown => if isCore then .nothing else .hint .mayHaveMissed
  | .failed => .stops

/-! ## The loop -/

/-- How often to look at the log regardless, in nanoseconds. -/
def IDLE_POLL : ℕ := 30 * 10 ^ 9

/-- How long to wait after every known source has failed. -/
def RETRY_DELAY : ℕ := 10 ^ 9

/-- How long to wait after being refused by everyone who answered. -/
def REFUSED_BACKOFF : ℕ := 60 * 10 ^ 9

/-- How long a pass is waited after; one that cannot be read ends the loop. -/
def delay : Progress → Option ℕ
  | .fetched true => some 0
  | .fetched false => some IDLE_POLL
  | .upToDate => some IDLE_POLL
  | .unreachable => some RETRY_DELAY
  | .notStored => some RETRY_DELAY
  | .noSources => some IDLE_POLL
  | .undecodable => none
  | .refused => some REFUSED_BACKOFF

/-- Where the loop is. -/
inductive Phase : Type where
  | fetching
  /-- for the timer or a hint -/
  | waiting (deadline cursor : ℕ)
  /-- for the timer: no hint will come any more -/
  | alone (deadline cursor : ℕ)
  | ended
  deriving DecidableEq

structure World where
  now : ℕ
  /-- the hint in the channel, how many were put into it, and the last one looked at -/
  latest : Hint
  version : ℕ
  seen : ℕ
  listening : Bool
  /-- nobody can put anything into the channel any more -/
  closed : Bool
  phase : Phase
  /-- the hints put into it since the fetch that gave the cursor began -/
  since : List Hint

inductive Happening : Type where
  | tick (elapsed : ℕ)
  /-- gossip hands the listener an event -/
  | gossip (event : Event)
  /-- a core node committed what this node proposed -/
  | committed (index : ℕ)
  | close
  /-- a pass is over, with the cursor it leaves -/
  | fetched (progress : Progress) (cursor : ℕ)
  /-- the loop finds this node expelled or left behind -/
  | stop
  /-- the select takes the channel -/
  | look
  /-- the timer -/
  | timer

namespace World

/-- A loop about to fetch for the first time; nobody has looked at the channel. -/
def start (now : ℕ) : World where
  now := now
  latest := .mayHaveMissed
  version := 0
  seen := 0
  listening := true
  closed := false
  phase := .fetching
  since := []

/-- A hint is put into the channel, over what is there. -/
def pass (world : World) (hint : Hint) : World :=
  if world.closed then world
  else { world with latest := hint, version := world.version + 1, since := world.since ++ [hint] }

/-- The wait is over, and the log is asked for. -/
def goAndLook (world : World) : World := { world with phase := .fetching, since := [] }

/-- The select takes the channel, if there is anything new in it or it is closed. -/
def look (world : World) : World :=
  match world.phase with
  | .waiting deadline cursor =>
    if world.seen < world.version then
      let world := { world with seen := world.version }
      if world.latest.isReason cursor then world.goAndLook else world
    else if world.closed then { world with phase := .alone deadline cursor }
    else world
  | _ => world

def timer (world : World) : World :=
  match world.phase with
  | .waiting deadline _ => if deadline ≤ world.now then world.goAndLook else world
  | .alone deadline _ => if deadline ≤ world.now then world.goAndLook else world
  | _ => world

def step (world : World) : Happening → World
  | .tick elapsed => { world with now := world.now + elapsed }
  | .gossip event =>
    if world.listening then
      match listen false event with
      | .nothing => world
      | .hint hint => world.pass hint
      | .stops => { world with listening := false }
    else world
  | .committed index => world.pass (.reaches index)
  | .close => { world with closed := true }
  | .fetched progress cursor =>
    match world.phase, delay progress with
    | .fetching, some delay => { world with phase := .waiting (world.now + delay) cursor }
    | .fetching, none => { world with phase := .ended }
    | _, _ => world
  | .stop => if world.phase = .fetching then { world with phase := .ended } else world
  | .look => world.look
  | .timer => world.timer

end World

/-! ## What a wait may hide -/

/-- Among the hints passed on since the fetch there is a reason to look. -/
def World.HasReason (world : World) (cursor : ℕ) : Prop :=
  ∃ hint ∈ world.since, hint.isReason cursor

instance (world : World) (cursor : ℕ) : Decidable (world.HasReason cursor) :=
  inferInstanceAs (Decidable (∃ hint ∈ world.since, hint.isReason cursor))

/-- Where only its timer can end the wait, unless something new is passed on, nothing that
was passed on since the fetch is a reason to look. -/
def NothingHidden (world : World) : Prop :=
  match world.phase with
  | .waiting _ cursor => world.seen = world.version → ¬world.HasReason cursor
  | .alone _ cursor => ¬world.HasReason cursor
  | _ => True

/-- **The condition on a look**: if anything passed on since the fetch is a reason, the last
of it is, so nothing less was put over it. -/
def Heeded (world : World) : Happening → Prop
  | .look =>
    match world.phase with
    | .waiting _ cursor =>
      world.seen < world.version → world.HasReason cursor → world.latest.isReason cursor
    | _ => True
  | _ => True

/-- What holds at every moment: a wait begins with nothing unseen only if nothing was passed
on since the fetch, and only a closed channel leaves it to its timer. -/
structure Tracked (world : World) : Prop where
  seen_le : world.seen ≤ world.version
  fetching : world.phase = .fetching → world.seen = world.version → world.since = []
  alone : ∀ deadline cursor, world.phase = .alone deadline cursor → world.closed = true

variable {world : World}

theorem Tracked.start (now : ℕ) : Tracked (World.start now) :=
  ⟨le_rfl, fun _ _ => rfl, fun _ _ hphase => by cases hphase⟩

/-- A hint that is passed on is unseen until it is looked at. -/
theorem Tracked.pass (h : Tracked world) (hint : Hint) : Tracked (world.pass hint) := by
  rw [World.pass]
  split
  · exact h
  · refine ⟨h.seen_le.trans (Nat.le_succ _), fun _ hseen => ?_, h.alone⟩
    have hle := h.seen_le
    exact absurd hseen (by dsimp only; omega)

theorem Tracked.goAndLook (h : Tracked world) : Tracked world.goAndLook :=
  ⟨h.seen_le, fun _ _ => rfl, fun _ _ hphase => by cases hphase⟩

/-- Looking takes the latest, and everything before it is seen. -/
theorem Tracked.look (h : Tracked world) : Tracked world.look := by
  rw [World.look]
  split
  · rename_i deadline cursor hphase
    split
    · have hseen : Tracked { world with seen := world.version } :=
        ⟨le_rfl, fun hfetching => by simp [hphase] at hfetching, h.alone⟩
      dsimp only
      split
      · exact hseen.goAndLook
      · exact hseen
    · split
      · rename_i hclosed
        exact ⟨h.seen_le, fun hfetching => (by cases hfetching), fun _ _ _ => hclosed⟩
      · exact h
  · exact h

theorem Tracked.step (h : Tracked world) (happening : Happening) :
    Tracked (world.step happening) := by
  cases happening with
  | tick elapsed => exact ⟨h.seen_le, h.fetching, h.alone⟩
  | gossip event =>
    rw [World.step]
    split
    · split
      · exact h
      · exact h.pass _
      · exact ⟨h.seen_le, h.fetching, h.alone⟩
    · exact h
  | committed index => exact h.pass _
  | close => exact ⟨h.seen_le, h.fetching, fun _ _ _ => rfl⟩
  | fetched progress cursor =>
    rw [World.step.eq_def]
    dsimp only
    split
    · exact ⟨h.seen_le, fun hphase => (by cases hphase), fun _ _ hphase => (by cases hphase)⟩
    · exact ⟨h.seen_le, fun hphase => (by cases hphase), fun _ _ hphase => (by cases hphase)⟩
    · exact h
  | stop =>
    rw [World.step]
    split
    · exact ⟨h.seen_le, fun hphase => (by cases hphase), fun _ _ hphase => (by cases hphase)⟩
    · exact h
  | look => exact h.look
  | timer =>
    rw [World.step, World.timer.eq_def]
    split
    · split
      · exact h.goAndLook
      · exact h
    · split
      · exact h.goAndLook
      · exact h
    · exact h

/-- Nobody is kept waiting who does not wait. -/
theorem nothingHidden_of_phase (h : ∀ deadline cursor, world.phase ≠ .waiting deadline cursor)
    (h' : ∀ deadline cursor, world.phase ≠ .alone deadline cursor) : NothingHidden world := by
  rw [NothingHidden]
  split
  · exact absurd ‹_› (h _ _)
  · exact absurd ‹_› (h' _ _)
  · trivial

/-- What is new in the channel is not hidden. -/
theorem nothingHidden_pass (ht : Tracked world) (h : NothingHidden world) (hint : Hint) :
    NothingHidden (world.pass hint) := by
  rw [World.pass]
  split
  · exact h
  · rename_i hopen
    rcases hphase : world.phase with _ | ⟨deadline, cursor⟩ | ⟨deadline, cursor⟩ | _
    · exact nothingHidden_of_phase (by simp) (by simp)
    · have hle := ht.seen_le
      rw [NothingHidden]
      exact fun hseen => absurd hseen (by dsimp only; omega)
    · exact absurd (ht.alone deadline cursor hphase) hopen
    · exact nothingHidden_of_phase (by simp) (by simp)

/-- A wait begins after a fetch, when nothing is unseen. -/
theorem nothingHidden_fetched (ht : Tracked world) (h : NothingHidden world) (progress : Progress)
    (cursor : ℕ) : NothingHidden (world.step (.fetched progress cursor)) := by
  rw [World.step.eq_def]
  dsimp only
  split
  · rename_i hphase _
    intro hseen
    rintro ⟨hint, hmem, -⟩
    rw [ht.fetching hphase hseen] at hmem
    exact absurd hmem List.not_mem_nil
  · exact nothingHidden_of_phase (by simp) (by simp)
  · exact h

/-- **One look** hides nothing exactly if what it looks at is a reason where any is. -/
theorem nothingHidden_look (ht : Tracked world) (h : NothingHidden world) :
    NothingHidden world.look ↔ Heeded world .look := by
  rw [World.look, Heeded]
  rcases hphase : world.phase with _ | ⟨deadline, cursor⟩ | ⟨deadline, cursor⟩ | _
  · exact ⟨fun _ => trivial, fun _ => h⟩
  · dsimp only
    split
    · rename_i hnews
      split
      · rename_i hreason
        exact ⟨fun _ _ _ => hreason, fun _ => nothingHidden_of_phase
          (by simp [World.goAndLook]) (by simp [World.goAndLook])⟩
      · rename_i hnoReason
        rw [NothingHidden]
        exact ⟨fun hnone _ hsome => absurd hsome (hnone rfl),
          fun hheeded _ hsome => hnoReason (hheeded hnews hsome)⟩
    · rename_i hstale
      have hseen : world.seen = world.version := by
        have hle := ht.seen_le
        omega
      have hnone : ¬world.HasReason cursor := by
        rw [NothingHidden, hphase] at h
        exact h hseen
      split
      · exact ⟨fun _ hnews => absurd hnews hstale, fun _ => hnone⟩
      · exact ⟨fun _ hnews => absurd hnews hstale, fun _ => h⟩
  · exact ⟨fun _ => trivial, fun _ => h⟩
  · exact ⟨fun _ => trivial, fun _ => h⟩

/-- A timer ends a wait. -/
theorem nothingHidden_timer (h : NothingHidden world) : NothingHidden world.timer := by
  have hgone : NothingHidden world.goAndLook :=
    nothingHidden_of_phase (by simp [World.goAndLook]) (by simp [World.goAndLook])
  rw [World.timer.eq_def]
  split
  · split
    · exact hgone
    · exact h
  · split
    · exact hgone
    · exact h
  · exact h

theorem nothingHidden_step (ht : Tracked world) (h : NothingHidden world) (happening : Happening) :
    NothingHidden (world.step happening) ↔ Heeded world happening := by
  cases happening with
  | tick elapsed => exact ⟨fun _ => trivial, fun _ => h⟩
  | gossip event =>
    refine ⟨fun _ => trivial, fun _ => ?_⟩
    rw [World.step]
    split
    · split
      · exact h
      · exact nothingHidden_pass ht h _
      · exact h
    · exact h
  | committed index => exact ⟨fun _ => trivial, fun _ => nothingHidden_pass ht h _⟩
  | close => exact ⟨fun _ => trivial, fun _ => h⟩
  | fetched progress cursor =>
    exact ⟨fun _ => trivial, fun _ => nothingHidden_fetched ht h progress cursor⟩
  | stop =>
    refine ⟨fun _ => trivial, fun _ => ?_⟩
    rw [World.step]
    split
    · exact nothingHidden_of_phase (by simp) (by simp)
    · exact h
  | look => exact nothingHidden_look ht h
  | timer => exact ⟨fun _ => trivial, fun _ => nothingHidden_timer h⟩

/-- A look that heeds what was passed on ends the wait at once if any of it is a reason. -/
theorem look_returns (h : NothingHidden world) (ht : Tracked world) {deadline cursor : ℕ}
    (hphase : world.phase = .waiting deadline cursor) (hreason : world.HasReason cursor)
    (hheeded : Heeded world .look) : (world.step .look).phase = .fetching := by
  rw [NothingHidden, hphase] at h
  rw [Heeded, hphase] at hheeded
  have hnews : world.seen < world.version := lt_of_le_of_ne ht.seen_le fun hseen => h hseen hreason
  rw [World.step, World.look, hphase]
  dsimp only
  rw [if_pos hnews, if_pos (hheeded hnews hreason)]
  rfl

/-- **When nothing is hidden.** Whatever gossip is heard, true or false, and however it falls
between fetches, waits and looks: no wait is ever left to its timer with a reason to look
passed on since the fetch, exactly if at every look the last hint passed on is a reason if
any is; and then a wait with such a reason returns with its next look. -/
theorem nothing_hidden_iff (now : ℕ) (happenings : List Happening) :
    (Along World.step (fun world happening => NothingHidden (world.step happening))
        (World.start now) happenings ↔
      Along World.step Heeded (World.start now) happenings) ∧
    (Along World.step Heeded (World.start now) happenings →
      let world := exec World.step (World.start now) happenings
      ∀ deadline cursor, world.phase = .waiting deadline cursor → world.HasReason cursor →
        Heeded world .look → (world.step .look).phase = .fetching) := by
  refine ⟨along_iff (I := Tracked) (P := NothingHidden) (fun _ happening h => h.step happening)
    (fun _ happening ht h => nothingHidden_step ht h happening) (fun _ _ _ h => h) happenings
    (Tracked.start now) trivial, fun hheeded => ?_⟩
  obtain ⟨ht, h⟩ : Tracked (exec World.step (World.start now) happenings) ∧
      NothingHidden (exec World.step (World.start now) happenings) :=
    hheeded.invariant (I := fun world => Tracked world ∧ NothingHidden world)
      (fun _ happening h hok => ⟨h.1.step happening,
        (nothingHidden_step h.1 h.2 happening).mpr hok⟩) ⟨Tracked.start now, trivial⟩
  exact fun deadline cursor hphase hreason hlook => look_returns h ht hphase hreason hlook

/-- Two members say how far the log reaches while the follower is busy: one that it reaches 9,
and then one that it reaches 3. The follower comes back with its cursor at 5, looks, and waits
for its timer. -/
theorem low_hides_high :
    let happenings : List Happening :=
      [.gossip (.received (some (.applied 9))), .gossip (.received (some (.applied 3))),
        .fetched .upToDate 5, .look]
    let world := exec World.step (World.start 0) happenings
    world.phase = .waiting IDLE_POLL 5 ∧ world.seen = world.version ∧
      world.since = [.reaches 9, .reaches 3] ∧ ¬NothingHidden world := by
  refine ⟨by decide, by decide, by decide, fun h => ?_⟩
  exact h rfl (by decide)

end Hints

end Distlib
