import Distlib.Consensus.Follower
import Distlib.Lib.GuardedRun

/-!
# A batch whose store failed

A follower folds a page into the copy in memory, moves its cursor there, and then
writes. What is on disk, the table of promotion predecessors and what is announced
to the watchers come after the transaction and only if it commits. If it fails,
the memory is ahead of the three of them.

The next pass asks from the cursor *in memory*. So the failed batch is not fetched
again, and when there is nothing beyond it the follower is up to date: with a
membership in memory that it never announces and never writes. When there is
something beyond it, the next transaction writes all of the projection, and the
announcement catches up; but the predecessors are read back from disk on every
call, and those of the failed batch are gone for good.

A restart puts the memory back to the disk, and that is all that does. So the
condition under which nothing is lost is on the state a pass begins in: the
memory is what the disk has (`Resumes`). On such histories the announcement, the
disk and the table are those of the log through the cursor, whenever the follower
finds itself up to date, and a batch that failed is fetched again.
-/

namespace Distlib

open IndexedLog GuardedRun Memberlog

/-! ## What the log makes of the predecessors -/

namespace Followed

/-- A follower that has read nothing. -/
def unread : Followed := ⟨.new, ∅, [], 0⟩

/-- Events folded in, one after the other. -/
def run (sig : Signing) (followed : Followed) (events : Log SignedEvent) : Followed :=
  events.foldl (fun followed event => followed.next sig event.1 event.2) followed

theorem run_append (sig : Signing) (followed : Followed) (first second : Log SignedEvent) :
    followed.run sig (first ++ second) = (followed.run sig first).run sig second :=
  List.foldl_append ..

/-- Two folds in the same place: neither the verdicts nor the cursor matter to
what comes after. -/
def Agrees (a b : Followed) : Prop := a.state = b.state ∧ a.predecessors = b.predecessors

theorem Agrees.next {a b : Followed} (h : a.Agrees b) (sig : Signing) (index : ℕ)
    (event : SignedEvent) : (a.next sig index event).Agrees (b.next sig index event) := by
  obtain ⟨hstate, hpredecessors⟩ := h
  simp only [Agrees, Followed.next, hstate, hpredecessors, and_self]

theorem Agrees.run (sig : Signing) {events : Log SignedEvent} :
    ∀ {a b : Followed}, a.Agrees b → (a.run sig events).Agrees (b.run sig events) := by
  induction events with
  | nil => intro a b h; exact h
  | cons event rest ih => intro a b h; exact ih (h.next sig event.1 event.2)

theorem run_state (sig : Signing) (events : Log SignedEvent) :
    ∀ (followed : Followed),
      (followed.run sig events).state = IndexedLog.run (foldStep sig) followed.state events := by
  induction events with
  | nil => intro followed; rfl
  | cons event rest ih => intro followed; exact ih _

theorem run_unread_state (sig : Signing) (events : Log SignedEvent) :
    (unread.run sig events).state = MembershipState.fold sig events :=
  run_state sig events unread

end Followed

/-- The loop over a page is a run over the events it reached a verdict on. -/
theorem followEvents_run (sig : Signing) (protocolMax : UInt32) (upTo : ℕ) :
    ∀ (events : Log SignedEvent) (followed : Followed),
      ∃ taken rest, events = taken ++ rest ∧
        (followEvents sig protocolMax upTo events followed).2 = followed.run sig taken ∧
        (followed.run sig taken).verdicts.length = followed.verdicts.length + taken.length := by
  intro events
  induction events with
  | nil => intro followed; exact ⟨[], [], rfl, rfl, rfl⟩
  | cons event events ih =>
    obtain ⟨index, event⟩ := event
    intro followed
    rw [followEvents]
    split
    · exact ⟨[], (index, event) :: events, rfl, rfl, rfl⟩
    · obtain ⟨taken, rest, rfl, hrun, hcount⟩ := ih (followed.next sig index event)
      refine ⟨(index, event) :: taken, rest, rfl, hrun, ?_⟩
      change ((followed.next sig index event).run sig taken).verdicts.length = _
      rw [hcount, Followed.next, List.length_append, List.length_cons]
      simp only [List.length_cons, List.length_nil]
      omega

namespace Follower

variable {postcard : Postcard} {log : CommittedLog} {sig : Signing} {world : World}

/-- What a pass makes of its page is a run over the events it folds. -/
theorem follow_eq_run (sig : Signing) (node : Node) (page : Page) :
    (node.store.follow sig node.protocolMax page.upTo page.events).2 =
      Followed.run sig
        ⟨node.store.applied.state, node.store.predecessors.getD ∅, [], node.store.applied.followedUpto⟩
        (node.foldedOf sig page) := by
  obtain ⟨taken, rest, hsplit, hrun, hcount⟩ := followEvents_run sig node.protocolMax page.upTo
    page.events
    ⟨node.store.applied.state, node.store.predecessors.getD ∅, [], node.store.applied.followedUpto⟩
  have hfolded : node.foldedOf sig page = taken := by
    rw [Node.foldedOf, StateMachineStore.follow, hrun, hcount, List.length_nil, Nat.zero_add,
      hsplit, List.take_left]
  rw [StateMachineStore.follow, hrun, hfolded]

/-- A pass that finds the node up to date leaves its store alone. -/
theorem fetchLog_upToDate {node : Node}
    {answer : MemberId → NodeAddr → ℕ → Except Failure Fetched} {fate : Fate}
    (h : (node.fetchLogFromCoreNodes sig answer fate).1 = .upToDate) :
    (node.fetchLogFromCoreNodes sig answer fate).2.store = node.store := by
  rw [Node.fetchLogFromCoreNodes] at h ⊢
  split at h
  · cases h
  · rename_i hsome
    rw [if_neg hsome]
    dsimp only at h ⊢
    rcases hpage : (node.askAround answer).page with _ | page
    · rfl
    · rw [hpage] at h
      dsimp only at h ⊢
      split at h
      · rename_i hbehind
        rw [if_pos hbehind]
      · cases fate <;> cases h

/-- A pass whose transaction fails leaves the disk alone. -/
theorem pass_unwritten_durable (sig : Signing) (world : World)
    (peers : MemberId → NodeAddr → Peer postcard log) :
    (world.step sig (.pass peers .unwritten)).node.store.durable = world.node.store.durable := by
  rw [World.step]
  rcases hpage : world.node.page (answers sig peers) with _ | page
  · rw [(fetchLog_of_no_page sig .unwritten hpage).1]
  · rw [(fetchLog_of_page sig .unwritten hpage).1]
    rfl

/-- A pass that cannot read the predecessors changes nothing. -/
theorem pass_unread_store (sig : Signing) (world : World)
    (peers : MemberId → NodeAddr → Peer postcard log) :
    (world.step sig (.pass peers .unread)).node.store = world.node.store := by
  rw [World.step]
  rcases hpage : world.node.page (answers sig peers) with _ | page
  · rw [(fetchLog_of_no_page sig .unread hpage).1]
  · rw [(fetchLog_of_page sig .unread hpage).1]
    rfl

/-! ## Histories in which a pass begins from the disk -/

/-- A pass begins with the memory as the disk has it. -/
def World.Resumes (world : World) : Happening postcard log → Prop
  | .pass _ _ => world.node.store.applied = world.node.store.durable.getD .empty
  | .restart _ _ => True

instance (world : World) : (happening : Happening postcard log) → Decidable (world.Resumes happening)
  | .pass _ _ => inferInstanceAs (Decidable (_ = _))
  | .restart _ _ => inferInstanceAs (Decidable True)

/-- What the watchers were told is what the disk has, and the predecessors on disk
are those of the events the disk's copy was made of. -/
structure World.Kept (sig : Signing) (world : World) : Prop where
  announced : world.node.store.membership = (world.node.store.durable.getD .empty).state
  predecessors : world.node.store.predecessors.getD ∅ =
    (Followed.unread.run sig world.durablyFolded).predecessors

theorem World.kept_start (me : MemberId) (protocolMax : UInt32) (sources : Source) :
    (World.start me protocolMax sources).Kept sig :=
  ⟨rfl, rfl⟩

variable {bound : UInt32}

/-- A copy in memory that is the one on disk was made of the same events. -/
theorem World.Follows.folded_eq (h : world.Follows sig log bound)
    (hsame : world.node.store.applied = world.node.store.durable.getD .empty) :
    world.folded = world.durablyFolded := by
  rw [h.memory.cursor, h.disk.cursor, hsame]

/-- A page folded over a memory that is the disk's leaves the predecessors of the
longer log. -/
theorem World.Kept.fold_page (h : world.Kept sig) (hfollows : world.Follows sig log bound)
    (hsame : world.node.store.applied = world.node.store.durable.getD .empty) (page : Page) :
    (world.node.store.follow sig world.node.protocolMax page.upTo page.events).2.predecessors =
      (Followed.unread.run sig (world.folded ++ world.node.foldedOf sig page)).predecessors := by
  rw [follow_eq_run, Followed.run_append]
  refine (Followed.Agrees.run sig ⟨?_, ?_⟩).2
  · rw [Followed.run_unread_state]
    exact hfollows.memory.state
  · rw [hfollows.folded_eq hsame]
    exact h.predecessors

theorem World.Kept.pass (h : world.Kept sig) (hfollows : world.Follows sig log bound)
    {peers : MemberId → NodeAddr → Peer postcard log} {fate : Fate}
    (hsame : world.node.store.applied = world.node.store.durable.getD .empty) :
    (world.step sig (.pass peers fate)).Kept sig := by
  rcases hpage : world.node.page (answers sig peers) with _ | page
  · have hstore := (fetchLog_of_no_page sig fate hpage).1
    rw [World.step, hpage]
    refine ⟨?_, ?_⟩
    · rw [hstore]
      exact h.announced
    · rw [hstore]
      exact h.predecessors
  · have hstore := (fetchLog_of_page sig fate hpage).1
    rw [World.step, hpage]
    cases fate with
    | unread =>
      refine ⟨?_, ?_⟩
      · rw [hstore]
        exact h.announced
      · rw [hstore]
        exact h.predecessors
    | unwritten =>
      refine ⟨?_, ?_⟩
      · rw [hstore]
        exact h.announced
      · rw [hstore]
        exact h.predecessors
    | stored =>
      refine ⟨?_, ?_⟩
      · rw [hstore]
        rfl
      · rw [hstore]
        exact h.fold_page hfollows hsame page

theorem World.Kept.restart (h : world.Kept sig) (protocolMax : UInt32) (sources : Source) :
    (world.step sig (.restart protocolMax sources : Happening postcard log)).Kept sig := by
  rcases hdisk : world.node.store.durable with _ | applied
  · refine ⟨?_, ?_⟩
    · simp [World.step, StateMachineStore.fromDatabase, hdisk, StateMachineStore.fresh, Applied.empty]
    · simpa [World.step, StateMachineStore.fromDatabase, hdisk] using h.predecessors
  · refine ⟨?_, ?_⟩
    · simp [World.step, StateMachineStore.fromDatabase, hdisk]
    · simpa [World.step, StateMachineStore.fromDatabase, hdisk] using h.predecessors

/-- **Every step of a history that resumes from the disk keeps the three copies
in step.** -/
theorem World.Kept.step (h : world.Kept sig) (hfollows : world.Follows sig log bound)
    (happening : Happening postcard log) (hresumes : world.Resumes happening) :
    (world.step sig happening).Kept sig := by
  rcases happening with ⟨peers, fate⟩ | ⟨protocolMax, sources⟩
  · exact h.pass hfollows hresumes
  · exact h.restart protocolMax sources

/-- Every build is within the largest number there is. -/
theorem Happening.within_last (happening : Happening postcard log) :
    happening.Within 4294967295 := by
  cases happening with
  | pass peers fate => trivial
  | restart protocolMax sources =>
    rw [Happening.Within, UInt32.le_iff_toNat_le]
    exact Nat.le_of_lt_succ protocolMax.toNat_lt

/-- **A failed store loses nothing, if every pass begins from the disk.** Take any
committed log and any history of passes and restarts, answered by any voters, in
which any transaction may fail, and suppose that every pass began with the memory
as the disk had it. Then

* whenever a pass finds the follower up to date, what it has announced, what is on
  disk and the predecessors on disk are those of the log through its cursor;
* a batch whose transaction fails is undone by the restart that must follow, so
  that the cursor it was asked from is the next one asked from; and a batch whose
  predecessors could not be read has changed nothing. -/
theorem failed_store_loses_nothing (sig : Signing) (postcard : Postcard) (log : CommittedLog)
    (hdecodes : postcard.Decodes log.entries) (me : MemberId) (protocolMax : UInt32)
    (sources : Source) (history : List (Happening postcard log))
    (hresumes : Along (World.step sig) World.Resumes (World.start me protocolMax sources) history) :
    let world := exec (World.step sig) (World.start me protocolMax sources) history
    ∀ (peers : MemberId → NodeAddr → Peer postcard log) (fate : Fate),
      world.Resumes (.pass peers fate) →
      ((world.node.fetchLogFromCoreNodes sig (answers sig peers) fate).1 = .upToDate →
        let store := (world.step sig (.pass peers fate)).node.store
        let read := through store.applied.followedUpto log.events
        store.membership = MembershipState.fold sig read ∧
        store.durable.getD .empty = store.applied ∧
        store.applied.state = MembershipState.fold sig read ∧
        store.predecessors.getD ∅ = (Followed.unread.run sig read).predecessors) ∧
      (∀ (build : UInt32) (named : Source),
        ((world.step sig (.pass peers .unwritten)).step sig
          (.restart build named : Happening postcard log)).node.store.applied =
            world.node.store.applied) ∧
      (world.step sig (.pass peers .unread)).node.store = world.node.store := by
  intro world peers fate hsame
  have hwithin : (World.start me protocolMax sources).Follows sig log 4294967295 :=
    World.follows_start
      (Happening.within_last (.restart protocolMax sources : Happening postcard log))
  obtain ⟨hfollows, hkept⟩ : world.Follows sig log 4294967295 ∧ world.Kept sig :=
    Along.invariant (I := fun world => world.Follows sig log 4294967295 ∧ world.Kept sig)
      (fun world happening h hok => ⟨h.1.step hdecodes happening happening.within_last,
        h.2.step h.1 happening hok⟩) ⟨hwithin, World.kept_start me protocolMax sources⟩ hresumes
  have hdisk : world.node.store.applied = world.node.store.durable.getD .empty := hsame
  refine ⟨?_, ?_, ?_⟩
  · intro hupToDate store read
    have hstore : store = world.node.store := fetchLog_upToDate hupToDate
    have hread : read = world.folded := by
      rw [hfollows.memory.cursor, ← hstore]
    rw [hread, hstore]
    refine ⟨?_, hdisk.symm, hfollows.memory.state, ?_⟩
    · rw [hkept.announced, ← hdisk]
      exact hfollows.memory.state
    · rw [hfollows.folded_eq hdisk]
      exact hkept.predecessors
  · intro build named
    have hrestart : ((world.step sig (.pass peers .unwritten)).step sig
        (.restart build named : Happening postcard log)).node.store.applied =
          (world.step sig (.pass peers .unwritten)).node.store.durable.getD .empty :=
      StateMachineStore.fromDatabase_applied _
    rw [hrestart, pass_unwritten_durable, hdisk]
  · exact pass_unread_store sig world peers

/-! ## A transaction that fails -/

/-- A pass over a voter that has applied the founding, and what the database does. -/
def foundingPass (fate : Fate) : Happening numbered raisedLog :=
  .pass (fun _ _ => .voter afterFounding onlyAlice .perFetch) fate

/-- The first transaction fails, the node is restarted, and the next one commits. -/
def restartedHistory : List (Happening numbered raisedLog) :=
  [foundingPass .unwritten, .restart PROTOCOL_MAX onlyAlice, foundingPass .stored]

def restartedWorld : World :=
  exec (World.step .accepting) (World.start carol PROTOCOL_MAX onlyAlice) restartedHistory

/-- Up to date, it has announced the group and written it. -/
theorem failed_store_loses_nothing_restarted :
    restartedWorld.node.store.membership.group = some ⟨9⟩ ∧
      (restartedWorld.step .accepting (foundingPass .stored)).node.store.membership =
        MembershipState.fold .accepting
          (through (restartedWorld.step .accepting (foundingPass .stored)).node.store.applied.followedUpto
            raisedLog.events) := by
  have h := failed_store_loses_nothing .accepting numbered raisedLog numbered_decodes carol
    PROTOCOL_MAX onlyAlice restartedHistory (by decide +kernel)
  refine ⟨by decide +kernel, ?_⟩
  exact ((h (fun _ _ => .voter (votingAt 2 (by decide)) onlyAlice .perFetch) .stored
    (by decide +kernel)).1 (by decide +kernel)).1

/-- The same follower, not restarted: a pass failed to store the founding. -/
def failedWorld : World :=
  exec (World.step .accepting) (World.start carol PROTOCOL_MAX onlyAlice) [foundingPass .unwritten]

/-- The next pass finds it up to date, with the group in memory and neither
announced nor on disk. -/
theorem failed_store_up_to_date :
    let answer := answers .accepting
      fun _ _ => Peer.voter (votingAt 2 (by decide)) onlyAlice PageLimits.perFetch
    let store := (failedWorld.node.fetchLogFromCoreNodes .accepting answer .stored).2.store
    (failedWorld.node.fetchLogFromCoreNodes .accepting answer .stored).1 = .upToDate ∧
      store.applied.followedUpto = 1 ∧
      (MembershipState.fold .accepting (through 1 raisedLog.events)).group = some ⟨9⟩ ∧
      store.membership.group = none ∧ store.durable = none ∧ store.predecessors = none := by
  decide +kernel

end Follower

end Distlib
