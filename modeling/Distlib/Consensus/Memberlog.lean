import Distlib.Consensus.StateMachine

/-!
# Serving the log

The answer a voter gives to somebody who has read the log through a cursor.
Only what the voter has *applied* is served: entries beyond that may be in its
store and may yet be replaced. The next cursor it hands out is its own applied
index, since most entries carry no event and a cursor taken from the last event
would ask for the gap again for ever; unless the page was cut short, when it is
the last event served.

`Voter` is a node that can give such an answer: some first part of the log
applied, and rows for at least that part. `Voter.fetch_eq` is what every voter
serves to every cursor, whichever part it has: a page that reaches no further
than it has applied and, where it has anything to offer, holds exactly the
events between the cursor and the cursor it hands out.
-/

namespace Distlib

open IndexedLog

namespace Memberlog

/-- Where to ask for the log, and who is worth asking first. -/
structure Source where
  core : List (MemberId × NodeAddr)
  leader : Option MemberId
  deriving DecidableEq

/-- What came back from asking for the log. -/
inductive Fetched : Type where
  /-- committed events, and how far they reach -/
  | entries (upTo : ℕ) (events : Log SignedEvent) (more : Bool) (source : Source)
  /-- the serving node has no group yet -/
  | noGroup
  /-- a retired voter points at the core it knows -/
  | redirect (source : Source)
  deriving DecidableEq

/-- The most events one answer holds. -/
def EVENTS_PER_FETCH : ℕ := 1000

/-- The most bytes of events one answer holds, as stored. -/
def BYTES_PER_FETCH : ℕ := 4 * 1024 * 1024

/-- Limits on a page. There is always room for one event. -/
structure PageLimits where
  atMost : ℕ
  atMostBytes : ℕ
  pos : 1 ≤ atMost

/-- The limits of the program. -/
def PageLimits.perFetch : PageLimits := ⟨EVENTS_PER_FETCH, BYTES_PER_FETCH, by decide⟩

/-- The cursor a page is handed out with: how far it reaches. -/
def nextCursor (page : LogPage) (last : ℕ) : ℕ :=
  match page.events.getLast? with
  | some event => if page.cutShort then event.1 else last
  | none => last

/-- What is committed since `cursor`, a page at a time. `source` is what the
serving node's Raft says of the core group. -/
def fetch (postcard : Postcard) (store : LogStore) (applied : Applied) (source : Source)
    (cursor : ℕ) (limits : PageLimits) : Fetched :=
  if applied.state.group.isNone then .noGroup
  else
    let last := applied.lastAppliedIndex
    match store.eventsAfter postcard cursor last limits.atMost limits.atMostBytes with
    | .error _ => .noGroup
    | .ok page =>
      let upTo := nextCursor page last
      .entries upTo page.events (upTo < last) source

theorem nextCursor_whole (events : Log SignedEvent) (last : ℕ) :
    nextCursor ⟨events, false⟩ last = last := by
  cases hend : events.getLast? <;> simp [nextCursor, hend]

theorem nextCursor_cut {events : Log SignedEvent} {event : ℕ × SignedEvent}
    (h : events.getLast? = some event) (last : ℕ) : nextCursor ⟨events, true⟩ last = event.1 := by
  simp [nextCursor, h]

/-- A page reaches no further than the events it was cut from. -/
theorem nextCursor_le {page : LogPage} {last : ℕ} (h : ∀ event ∈ page.events, event.1 ≤ last) :
    nextCursor page last ≤ last := by
  obtain ⟨events, cutShort⟩ := page
  rcases hend : events.getLast? with _ | event
  · simp [nextCursor, hend]
  · cases cutShort with
    | false => rw [nextCursor_whole]
    | true =>
      rw [nextCursor_cut hend]
      exact h event (List.mem_of_getLast? hend)

end Memberlog

/-! ## Voters -/

open Memberlog

/-- A node that has applied the first `count` entries of the log, and holds the
rows of at least those. -/
structure Voter (postcard : Postcard) (log : CommittedLog) where
  store : LogStore
  count : ℕ
  counted : count ≤ log.entries.length
  holds : store.Holds postcard log count

namespace Voter

variable {postcard : Postcard} {log : CommittedLog}

/-- What the voter's state machine holds. -/
def applied (sig : Signing) (voter : Voter postcard log) : Applied :=
  .reached sig log voter.count

/-- The voter's answer. -/
def fetch (sig : Signing) (voter : Voter postcard log) (source : Source) (cursor : ℕ)
    (limits : PageLimits) : Fetched :=
  Memberlog.fetch postcard voter.store (voter.applied sig) source cursor limits

variable {sig : Signing} {voter : Voter postcard log}

/-- A voter with a group has applied an entry, and its index says how many. -/
theorem count_eq (h : (voter.applied sig).state.group.isSome) :
    voter.count = (voter.applied sig).lastAppliedIndex + 1 := by
  rcases hcount : voter.count with _ | n
  · rw [applied, hcount] at h
    cases h
  · have hcounted := voter.counted
    rw [applied, hcount, Applied.reached_lastAppliedIndex (by omega)]

/-- Only a voter with a group hands over entries. -/
theorem group_of_fetch {source source' : Source} {cursor upTo : ℕ} {limits : PageLimits}
    {events : Log SignedEvent} {more : Bool}
    (h : voter.fetch sig source cursor limits = .entries upTo events more source') :
    (voter.applied sig).state.group.isSome := by
  rw [Voter.fetch, Memberlog.fetch] at h
  split at h
  · cases h
  · rename_i hgroup
    rwa [Bool.not_eq_true, Option.isNone_eq_false_iff] at hgroup

/-- **What a voter serves.** A voter with a group answers every cursor with a
page that reaches no further than it has applied, says there is more exactly
when the page falls short of that, and, to a cursor behind it, serves exactly
the events between that cursor and the next, which is a later one. -/
theorem fetch_eq (hdecodes : postcard.Decodes log.entries)
    (hgroup : (voter.applied sig).state.group.isSome) (source : Source) (cursor : ℕ)
    (limits : PageLimits) :
    ∃ upTo events,
      voter.fetch sig source cursor limits =
        .entries upTo events (upTo < (voter.applied sig).lastAppliedIndex) source ∧
      upTo ≤ (voter.applied sig).lastAppliedIndex ∧
      (cursor < (voter.applied sig).lastAppliedIndex →
        cursor < upTo ∧ events = between cursor upTo log.events) := by
  have hcount := count_eq hgroup
  have hcounted := voter.counted
  generalize hlast : (voter.applied sig).lastAppliedIndex = last at hcount ⊢
  obtain ⟨taken, rest, hsplit, hpage, hsome⟩ := LogStore.eventsAfter_eq voter.holds hcounted hdecodes
    cursor (show last < voter.count by omega) limits.pos limits.atMostBytes
  have hfetch : voter.fetch sig source cursor limits =
      let upTo := nextCursor ⟨taken, !rest.isEmpty⟩ last
      .entries upTo taken (upTo < last) source := by
    rw [Voter.fetch, Memberlog.fetch, Option.isNone_eq_false_iff.mpr hgroup, hlast]
    simp only [hpage]
    rfl
  refine ⟨_, taken, hfetch, nextCursor_le ?_, fun hbehind => ?_⟩
  · intro event hmem
    have hrange := hsplit ▸ List.mem_append_left rest hmem
    exact (of_decide_eq_true (List.mem_filter.mp hrange).2).2
  · rw [LogStore.range_eq_between hbehind (by omega)] at hsplit
    rcases rest with _ | ⟨next, rest⟩
    · -- all of it, and the cursor is the voter's own
      rw [List.isEmpty_nil, Bool.not_true, nextCursor_whole]
      exact ⟨hbehind, by rw [hsplit, List.append_nil]⟩
    · -- cut short, and the cursor is the last event's index
      have hne : taken ≠ [] := hsome (List.cons_ne_nil _ _)
      obtain ⟨event, hend⟩ : ∃ event, taken.getLast? = some event :=
        ⟨_, List.getLast?_eq_some_getLast hne⟩
      have hbetween := between_of_cut CommittedLog.ascending_events hsplit hend
      rw [List.isEmpty_cons, Bool.not_false, nextCursor_cut hend]
      exact ⟨(mem_between.mp (hbetween ▸ List.mem_of_getLast? hend)).2.1, hbetween.symm⟩

/-- What somebody receives who asks from `cursor` on, and each time from where
the last answer reached, page after page. -/
def pages (sig : Signing) (voter : Voter postcard log) (source : Source) :
    List PageLimits → ℕ → Log SignedEvent
  | [], _ => []
  | limits :: rest, cursor =>
    match voter.fetch sig source cursor limits with
    | .entries upTo events _ _ =>
      if upTo ≤ cursor then [] else events ++ voter.pages sig source rest upTo
    | _ => []

/-- **Asking on gets everything.** Whatever the limits of each page, somebody
who asks often enough receives every event the voter has applied past the
cursor, once and in order. -/
theorem pages_eq (hdecodes : postcard.Decodes log.entries) (source : Source)
    {limits : List PageLimits} :
    ∀ {cursor : ℕ},
      (cursor < (voter.applied sig).lastAppliedIndex → (voter.applied sig).state.group.isSome) →
      (voter.applied sig).lastAppliedIndex - cursor ≤ limits.length →
      voter.pages sig source limits cursor =
        between cursor (voter.applied sig).lastAppliedIndex log.events := by
  induction limits with
  | nil =>
    intro cursor _ hlength
    rw [List.length_nil] at hlength
    rw [between_of_le (by omega), pages]
  | cons page limits ih =>
    intro cursor hgroup hlength
    rw [List.length_cons] at hlength
    rcases Nat.lt_or_ge cursor (voter.applied sig).lastAppliedIndex with hbehind | hcaught
    · obtain ⟨upTo, events, hfetch, hle, hserved⟩ :=
        fetch_eq hdecodes (hgroup hbehind) source cursor page
      obtain ⟨hlater, rfl⟩ := hserved hbehind
      rw [pages, hfetch]
      dsimp only
      rw [if_neg (by omega), ih (fun _ => hgroup hbehind) (by omega),
        between_append_between CommittedLog.ascending_events hlater.le hle]
    · -- nothing to offer: no group, or no further than the cursor
      rw [between_of_le hcaught, pages]
      rcases hfetch : voter.fetch sig source cursor page with ⟨upTo, events, more, named⟩ | _ | _
      · obtain ⟨upTo', events', hfetch', hle, -⟩ :=
          fetch_eq hdecodes (group_of_fetch hfetch) source cursor page
        obtain ⟨rfl, -, -, -⟩ := Fetched.entries.injEq .. ▸ hfetch'.symm.trans hfetch
        dsimp only
        rw [if_pos (hle.trans hcaught)]
      · rfl
      · rfl

/-- A voter's projection is the fold of the events through its applied index. -/
theorem state_eq : (voter.applied sig).state =
    MembershipState.fold sig (through (voter.applied sig).lastAppliedIndex log.events) := by
  have hcounted := voter.counted
  rw [applied]
  rcases hcount : voter.count with _ | n
  · have hzero : (Applied.reached sig log 0).lastAppliedIndex = 0 := rfl
    rw [hzero, CommittedLog.through_zero_events]
    rfl
  · rw [Applied.reached_lastAppliedIndex (by omega), Applied.reached_state]

end Voter

end Distlib
