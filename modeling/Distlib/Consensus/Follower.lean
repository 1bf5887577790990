import Distlib.Consensus.Memberlog
import Distlib.Consensus.Run

/-!
# Following the log

A node that does not vote reads the log by asking those who do. One pass asks
the core nodes it knows of, one after the other, and takes the first page it is
handed; redirects lengthen the list, and nobody is asked twice. The page is
folded in if it reaches past the node's cursor, and the cursor moves.

Three pieces have to agree on what a cursor means: the page, which passes over
entries that carry no event and is cut by a count or by bytes; the voter, which
hands out sometimes the last event served and sometimes its own applied index;
and the fold, which may stop in the middle of a page. That they do is what is
proved here. Over any history of passes and restarts, answered by any voters,
each with its own part of the log applied and its own limits, whatever the
database does, **what the follower has folded is exactly the log through its
cursor**, so its projection is the one a voter reaches there.
-/

namespace Distlib

open IndexedLog Memberlog

/-! ## One pass -/

/-- Why an exchange with one peer failed. -/
inductive Failure : Type where
  | unreachable
  /-- the peer refused us at the allowlist -/
  | refused
  /-- the peer answered in an encoding this build cannot read -/
  | undecodable
  deriving DecidableEq

/-- Who to try, in order, leaving `me` out: the leader first, and the rest as
they come. -/
def Memberlog.Source.candidates (sources : Source) (me : MemberId) : List (MemberId × NodeAddr) :=
  let others := sources.core.filter fun candidate => candidate.1 ≠ me
  others.filter (fun candidate => some candidate.1 = sources.leader) ++
    others.filter fun candidate => some candidate.1 ≠ sources.leader

namespace Follower

/-- What one pass over the known sources achieved. -/
inductive Progress : Type where
  /-- entries arrived and were applied, and whether the source has more -/
  | fetched (more : Bool)
  | upToDate
  | refused
  | unreachable
  | notStored
  | noSources
  | undecodable
  deriving DecidableEq

/-- What the core nodes asked said, when none of them handed over entries. -/
structure Answers where
  refusals : ℕ
  /-- answers other than a refusal, the undecodable included -/
  otherwise : ℕ
  undecodable : ℕ

def Answers.progress (answers : Answers) : Progress :=
  if answers.refusals > 0 ∧ answers.otherwise = 0 then .refused
  else if answers.undecodable > 0 ∧ answers.undecodable = answers.otherwise then .undecodable
  else .unreachable

/-- A page as a follower receives it. -/
structure Page where
  upTo : ℕ
  events : Log SignedEvent
  more : Bool

/-- How asking around ended: the page handed over, if one was. -/
structure Asked where
  page : Option Page
  answers : Answers
  sources : Source
  visited : Finset MemberId

/-- Takes one candidate's answer: what has been heard so far, and whom else to
ask. -/
def Asked.hear (me : MemberId) (asked : Asked) (member : MemberId) (answer : Except Failure Fetched) :
    Asked × List (MemberId × NodeAddr) :=
  let asked := { asked with visited := insert member asked.visited }
  let answers := asked.answers
  match answer with
  | .ok (.entries upTo events more source) =>
    ({ asked with page := some ⟨upTo, events, more⟩, sources := source }, [])
  | .ok (.redirect source) =>
    ({ asked with
      answers := { answers with otherwise := answers.otherwise + 1 }
      sources := source }, source.candidates me)
  | .ok .noGroup =>
    ({ asked with answers := { answers with otherwise := answers.otherwise + 1 } }, [])
  | .error .undecodable =>
    ({ asked with
      answers :=
        { answers with
          otherwise := answers.otherwise + 1
          undecodable := answers.undecodable + 1 } }, [])
  | .error .refused =>
    ({ asked with answers := { answers with refusals := answers.refusals + 1 } }, [])
  | .error .unreachable => (asked, [])

/-- A page is heard only from somebody who hands over entries. -/
theorem Asked.hear_page {me : MemberId} {asked : Asked} {member : MemberId}
    {answer : Except Failure Fetched} (hnone : asked.page = none) {page : Page}
    (h : (asked.hear me member answer).1.page = some page) :
    ∃ source, answer = .ok (.entries page.upTo page.events page.more source) := by
  rcases answer with (_ | _ | _) | (⟨upTo, events, more, source⟩ | _ | source)
  case ok.entries =>
    cases h
    exact ⟨source, rfl⟩
  all_goals
    rw [show (asked.hear me member _).1.page = asked.page from rfl, hnone] at h
    cases h

/-- Asks one candidate after the other until one hands over entries, at most
`left` of them. The bound is what ends a chain of referrals, cycles and
dishonest fresh ids included. -/
def askAround (me : MemberId) (answer : MemberId → NodeAddr → Except Failure Fetched) :
    ℕ → List (MemberId × NodeAddr) → Asked → Asked
  | 0, _, asked => asked
  | left + 1, candidates, asked =>
    -- this node itself and whoever was asked already are passed over
    match candidates.dropWhile fun candidate =>
      candidate.1 = me ∨ candidate.1 ∈ asked.visited with
    | [] => asked
    | (member, addr) :: candidates =>
      let heard := asked.hear me member (answer member addr)
      if heard.1.page.isSome then heard.1
      else askAround me answer left (candidates ++ heard.2) heard.1

/-- The page asking around ends with was handed over by somebody asked. -/
theorem askAround_page {me : MemberId} {answer : MemberId → NodeAddr → Except Failure Fetched}
    {left : ℕ} {page : Page} :
    ∀ {candidates : List (MemberId × NodeAddr)} {asked : Asked}, asked.page = none →
      (askAround me answer left candidates asked).page = some page →
      ∃ member addr source, answer member addr =
        .ok (.entries page.upTo page.events page.more source) := by
  induction left with
  | zero =>
    intro candidates asked hnone h
    rw [askAround, hnone] at h
    cases h
  | succ left ih =>
    intro candidates asked hnone h
    rw [askAround] at h
    split at h
    · rw [hnone] at h
      cases h
    · rename_i member addr rest _
      dsimp only at h
      split at h
      · obtain ⟨source, hanswer⟩ := Asked.hear_page hnone h
        exact ⟨member, addr, source, hanswer⟩
      · rename_i hnopage
        exact ih (by simpa using hnopage) h

/-- A node that follows, as its build `protocolMax` has it. -/
structure Node where
  me : MemberId
  protocolMax : UInt32
  store : StateMachineStore
  sources : Source

/-- Whom a pass starts by asking: the sources, then the core it knows. -/
def Node.candidates (node : Node) : List (MemberId × NodeAddr) :=
  node.sources.candidates node.me ++
    node.store.applied.state.core.toList.filter fun candidate => candidate.1 ≠ node.me

/-- How a pass's asking around ends. `answer` is what each candidate answers to
a cursor. -/
def Node.askAround (node : Node) (answer : MemberId → NodeAddr → ℕ → Except Failure Fetched) :
    Asked :=
  Follower.askAround node.me
    (fun member addr => answer member addr node.store.applied.followedUpto) 32 node.candidates
    ⟨none, ⟨0, 0, 0⟩, node.sources, ∅⟩

/-- Tries each known source until one answers. -/
def Node.fetchLogFromCoreNodes (sig : Signing) (node : Node)
    (answer : MemberId → NodeAddr → ℕ → Except Failure Fetched) (fate : Fate) : Progress × Node :=
  let cursor := node.store.applied.followedUpto
  if node.candidates.isEmpty then (.noSources, node)
  else
    let asked := node.askAround answer
    -- the new view of the group is taken before the page is
    let node := { node with sources := asked.sources }
    match asked.page with
    | none => (asked.answers.progress, node)
    | some page =>
      if page.upTo ≤ cursor then (.upToDate, node)
      else
        match node.store.applyFollowed sig node.protocolMax page.upTo page.events fate with
        | (.error _, store) => (.notStored, { node with store })
        | (.ok _, store) => (.fetched page.more, { node with store })

/-- The page a pass applies, if it applies one: the one it is handed, when that
reaches past the cursor. -/
def Node.page (node : Node) (answer : MemberId → NodeAddr → ℕ → Except Failure Fetched) :
    Option Page :=
  (node.askAround answer).page.filter fun page => node.store.applied.followedUpto < page.upTo

section Passes

variable {sig : Signing} {node : Node}
  {answer : MemberId → NodeAddr → ℕ → Except Failure Fetched} {fate : Fate}

theorem askAround_of_no_candidates (h : node.candidates.isEmpty) :
    (node.askAround answer).page = none := by
  rw [Node.askAround, List.isEmpty_iff.mp h]
  rfl

/-- A pass without a page leaves the store alone. -/
theorem fetchLog_of_no_page (sig : Signing) (fate : Fate) (h : node.page answer = none) :
    (node.fetchLogFromCoreNodes sig answer fate).2.store = node.store ∧
      (∀ more, (node.fetchLogFromCoreNodes sig answer fate).1 ≠ .fetched more) := by
  rw [Node.fetchLogFromCoreNodes]
  split
  · exact ⟨rfl, fun _ hprogress => by cases hprogress⟩
  · dsimp only
    rcases hpage : (node.askAround answer).page with _ | page
    · refine ⟨rfl, fun more hprogress => ?_⟩
      revert hprogress
      simp only [Answers.progress]
      split_ifs <;> simp
    · rw [Node.page, hpage, Option.filter_some_eq_none] at h
      dsimp only
      rw [if_pos (by simpa using h)]
      exact ⟨rfl, fun _ hprogress => by cases hprogress⟩

/-- A pass with a page applies it. -/
theorem fetchLog_of_page (sig : Signing) (fate : Fate) {page : Page} (h : node.page answer = some page) :
    (node.fetchLogFromCoreNodes sig answer fate).2.store =
        (node.store.applyFollowed sig node.protocolMax page.upTo page.events fate).2 ∧
      (∀ more, (node.fetchLogFromCoreNodes sig answer fate).1 = .fetched more →
        more = page.more ∧ fate = .stored) := by
  obtain ⟨hasked, hpast⟩ := Option.filter_eq_some_iff.mp h
  have hsome : ¬node.candidates.isEmpty := fun hempty => by
    rw [askAround_of_no_candidates hempty] at hasked
    cases hasked
  rw [Node.fetchLogFromCoreNodes, if_neg hsome]
  dsimp only
  rw [hasked]
  dsimp only
  rw [if_neg (by simpa using hpast)]
  cases fate
  case stored => exact ⟨rfl, fun more hmore => by cases hmore; exact ⟨rfl, rfl⟩⟩
  all_goals exact ⟨rfl, fun more hmore => by cases hmore⟩

/-- A pass changes neither the build nor whose node it is. -/
theorem fetchLog_frame :
    (node.fetchLogFromCoreNodes sig answer fate).2.protocolMax = node.protocolMax ∧
      (node.fetchLogFromCoreNodes sig answer fate).2.me = node.me := by
  rw [Node.fetchLogFromCoreNodes]
  split
  · exact ⟨rfl, rfl⟩
  · dsimp only
    rcases (node.askAround answer).page with _ | page
    · exact ⟨rfl, rfl⟩
    · dsimp only
      split
      · exact ⟨rfl, rfl⟩
      · cases fate <;> exact ⟨rfl, rfl⟩

end Passes

/-! ## Histories -/

section Histories

variable {postcard : Postcard} {log : CommittedLog} {sig : Signing} {node : Node}

/-- Somebody a follower asks: a voter answers from its log, within limits of its
own; a retired one redirects; the rest fail. -/
inductive Peer (postcard : Postcard) (log : CommittedLog) : Type where
  | voter (serving : Voter postcard log) (source : Source) (limits : PageLimits)
  | retired (source : Source)
  | failing (failure : Failure)

def Peer.answer (sig : Signing) (cursor : ℕ) : Peer postcard log → Except Failure Fetched
  | .voter serving source limits => .ok (serving.fetch sig source cursor limits)
  | .retired source => .ok (.redirect source)
  | .failing failure => .error failure

/-- What can happen to a follower. -/
inductive Happening (postcard : Postcard) (log : CommittedLog) : Type where
  /-- a pass, with whoever stands at each address at the time -/
  | pass (peers : MemberId → NodeAddr → Peer postcard log) (fate : Fate)
  /-- the node starts again, perhaps as another build -/
  | restart (protocolMax : UInt32) (sources : Source)

/-- The build a happening starts, if it does, speaks nothing beyond `bound`. -/
def Happening.Within (bound : UInt32) : Happening postcard log → Prop
  | .pass _ _ => True
  | .restart protocolMax _ => protocolMax ≤ bound

/-- A follower, with every event its projection was made of, in the order they
were folded: of the copy in memory, and of the one on disk. -/
structure World where
  node : Node
  folded : Log SignedEvent
  durablyFolded : Log SignedEvent

/-- A node that has never read anything. -/
def World.start (me : MemberId) (protocolMax : UInt32) (sources : Source) : World :=
  ⟨⟨me, protocolMax, .fresh, sources⟩, [], []⟩

/-- The events of `page` a pass folds: one for each verdict its loop reaches. -/
def Node.foldedOf (sig : Signing) (node : Node) (page : Page) : Log SignedEvent :=
  page.events.take
    (node.store.follow sig node.protocolMax page.upTo page.events).2.verdicts.length

def answers (sig : Signing) (peers : MemberId → NodeAddr → Peer postcard log) (member : MemberId)
    (addr : NodeAddr) (cursor : ℕ) : Except Failure Fetched :=
  (peers member addr).answer sig cursor

/-- What both copies are made of after a pass: a page is folded in memory, and
reaches the disk with the transaction. -/
def World.reads (sig : Signing) (world : World) :
    Option Page → Fate → Log SignedEvent × Log SignedEvent
  | none, _ => (world.folded, world.durablyFolded)
  | some _, .unread => (world.folded, world.durablyFolded)
  | some page, .unwritten => (world.folded ++ world.node.foldedOf sig page, world.durablyFolded)
  | some page, .stored =>
    let folded := world.folded ++ world.node.foldedOf sig page
    (folded, folded)

/-- One happening. -/
def World.step (sig : Signing) (world : World) : Happening postcard log → World
  | .pass peers fate =>
    let read := world.reads sig (world.node.page (answers sig peers)) fate
    { node := (world.node.fetchLogFromCoreNodes sig (answers sig peers) fate).2
      folded := read.1
      durablyFolded := read.2 }
  | .restart protocolMax sources =>
    { world with
      node := { world.node with protocolMax, store := world.node.store.fromDatabase, sources }
      folded := world.durablyFolded }

def World.run (sig : Signing) (start : World) (history : List (Happening postcard log)) : World :=
  history.foldl (World.step sig) start

/-! ## What every history keeps -/

/-- Both copies have read the log through their cursors. -/
structure World.Follows (sig : Signing) (log : CommittedLog) (bound : UInt32) (world : World) :
    Prop where
  memory : Reads sig log bound world.node.store.applied world.folded
  disk : Reads sig log bound (world.node.store.durable.getD .empty) world.durablyFolded
  build : world.node.protocolMax ≤ bound

variable {bound : UInt32} {world : World}

theorem World.follows_start {me : MemberId} {protocolMax : UInt32} {sources : Source}
    (h : protocolMax ≤ bound) : (World.start me protocolMax sources).Follows sig log bound :=
  ⟨reads_empty log bound, reads_empty log bound, h⟩

/-- **The page a pass applies** holds what lies between the follower's cursor and
the later index it hands out, whoever among the peers has served it. -/
theorem page_eq (hdecodes : postcard.Decodes log.entries)
    {peers : MemberId → NodeAddr → Peer postcard log} {page : Page}
    (h : node.page (answers sig peers) = some page) :
    node.store.applied.followedUpto < page.upTo ∧
      page.events = between node.store.applied.followedUpto page.upTo log.events := by
  obtain ⟨hasked, hpast⟩ := Option.filter_eq_some_iff.mp h
  have hcursor : node.store.applied.followedUpto < page.upTo := of_decide_eq_true hpast
  obtain ⟨member, addr, source, hanswer⟩ := askAround_page rfl hasked
  rw [answers] at hanswer
  rcases hpeer : peers member addr with ⟨voter, named, limits⟩ | named | failure <;>
    rw [hpeer] at hanswer
  · replace hanswer : voter.fetch sig named node.store.applied.followedUpto limits =
        .entries page.upTo page.events page.more source := Except.ok.inj hanswer
    obtain ⟨upTo, events, hfetch, hle, hserved⟩ :=
      Voter.fetch_eq hdecodes (Voter.group_of_fetch hanswer) named node.store.applied.followedUpto
        limits
    rw [hfetch] at hanswer
    obtain ⟨rfl, rfl, -, -⟩ := Fetched.entries.injEq .. ▸ hanswer
    exact ⟨hcursor, (hserved (by omega)).2⟩
  · cases hanswer
  · cases hanswer

/-- What folding a page makes of the copy in memory. -/
theorem World.Follows.fold_page (h : world.Follows sig log bound)
    (hdecodes : postcard.Decodes log.entries) {peers : MemberId → NodeAddr → Peer postcard log}
    {page : Page} (hpage : world.node.page (answers sig peers) = some page) :
    let result := world.node.store.follow sig world.node.protocolMax page.upTo page.events
    Reads sig log bound
        { world.node.store.applied with state := result.2.state, followedUpto := result.1 }
        (world.folded ++ world.node.foldedOf sig page) ∧
      (world.node.store.applied.state.protocol ≤ world.node.protocolMax →
        world.node.store.applied.followedUpto < result.1) := by
  obtain ⟨hcursor, hevents⟩ := page_eq hdecodes hpage
  exact h.memory.follow h.build hcursor rfl rfl rfl hevents rfl

/-- A pass keeps both copies. -/
theorem World.Follows.pass (h : world.Follows sig log bound)
    (hdecodes : postcard.Decodes log.entries) (peers : MemberId → NodeAddr → Peer postcard log)
    (fate : Fate) : (world.step sig (.pass peers fate)).Follows sig log bound := by
  have hbuild : (world.node.fetchLogFromCoreNodes sig (answers sig peers) fate).2.protocolMax ≤
      bound := by
    rw [fetchLog_frame.1]
    exact h.build
  rcases hpage : world.node.page (answers sig peers) with _ | page
  · have hstore := (fetchLog_of_no_page sig fate hpage).1
    rw [World.step, hpage]
    refine ⟨?_, ?_, hbuild⟩
    · rw [hstore]
      exact h.memory
    · rw [hstore]
      exact h.disk
  · have hstore := (fetchLog_of_page sig fate hpage).1
    have hread := (h.fold_page hdecodes hpage).1
    rw [World.step, hpage]
    cases fate with
    | unread =>
      refine ⟨?_, ?_, hbuild⟩
      · rw [hstore]
        exact h.memory
      · rw [hstore]
        exact h.disk
    | unwritten =>
      refine ⟨?_, ?_, hbuild⟩
      · rw [hstore]
        exact hread
      · rw [hstore]
        exact h.disk
    | stored =>
      refine ⟨?_, ?_, hbuild⟩
      · rw [hstore]
        exact hread
      · rw [hstore]
        exact hread

/-- One happening keeps both copies. -/
theorem World.Follows.step (h : world.Follows sig log bound)
    (hdecodes : postcard.Decodes log.entries) (happening : Happening postcard log)
    (hwithin : happening.Within bound) : (world.step sig happening).Follows sig log bound := by
  rcases happening with ⟨peers, fate⟩ | ⟨protocolMax, sources⟩
  · exact h.pass hdecodes peers fate
  · -- the memory is what the disk had
    refine ⟨?_, ?_, hwithin⟩
    · rw [World.step, StateMachineStore.fromDatabase_applied]
      exact h.disk
    · rw [World.step, StateMachineStore.fromDatabase_durable]
      exact h.disk

/-- Every history keeps both copies. -/
theorem World.Follows.run (hdecodes : postcard.Decodes log.entries)
    {history : List (Happening postcard log)} :
    ∀ {world : World}, world.Follows sig log bound →
      (∀ happening ∈ history, happening.Within bound) →
      (world.run sig history).Follows sig log bound := by
  induction history with
  | nil => intro world h _; exact h
  | cons happening history ih =>
    intro world h hwithin
    obtain ⟨hfirst, hrest⟩ := List.forall_mem_cons.mp hwithin
    exact ih (h.step hdecodes happening hfirst) hrest

/-- Once a follower has a group, a voter ahead of it has one. -/
theorem World.Follows.group_of_ahead (h : world.Follows sig log bound)
    (hgroup : world.node.store.applied.state.group.isSome) {voter : Voter postcard log}
    (hahead : world.node.store.applied.followedUpto < (voter.applied sig).lastAppliedIndex) :
    (voter.applied sig).state.group.isSome := by
  obtain ⟨groupId, hsome⟩ := Option.isSome_iff_exists.mp hgroup
  rw [h.memory.state, h.memory.cursor] at hsome
  rw [Voter.state_eq, ← through_append_between CommittedLog.ascending_events hahead.le,
    (MembershipState.fold_group_stays hsome _).1]
  rfl

/-- A pass that fetched has moved the cursor, unless the group was beyond the
build before. -/
theorem World.Follows.fetched (h : world.Follows sig log bound)
    (hdecodes : postcard.Decodes log.entries) {peers : MemberId → NodeAddr → Peer postcard log}
    {fate : Fate} {more : Bool}
    (hfetched : (world.node.fetchLogFromCoreNodes sig (answers sig peers) fate).1 = .fetched more)
    (hwithin : world.node.store.applied.state.protocol ≤ world.node.protocolMax) :
    world.node.store.applied.followedUpto <
      (world.node.fetchLogFromCoreNodes sig (answers sig peers) fate).2.store.applied.followedUpto := by
  rcases hpage : world.node.page (answers sig peers) with _ | page
  · exact absurd hfetched ((fetchLog_of_no_page sig fate hpage).2 more)
  · obtain ⟨hstore, hmore⟩ := fetchLog_of_page sig fate hpage
    obtain ⟨-, rfl⟩ := hmore more hfetched
    rw [hstore]
    exact (h.fold_page hdecodes hpage).2 hwithin

/-- **A follower refines a voter.** Take any committed log, any history of
passes and restarts, any voters answering, each with any part of the log applied
and any limits, and anything the database does. Then

* the follower's projection is the one a voter reaches by applying the log
  through the follower's cursor;
* what it has folded is every event of the log through its cursor, once and in
  order;
* a pass that fetched a page has moved the cursor, unless the group already
  spoke a protocol beyond the follower's build;
* past an index where the group's protocol is beyond every build the history
  has seen, nothing has been folded;
* and whoever asks a voter from the cursor on, page after page, receives every
  event the voter has applied past it, once and in order. -/
theorem follower_refines_voter (sig : Signing) (postcard : Postcard) (log : CommittedLog)
    (hdecodes : postcard.Decodes log.entries) (me : MemberId) (protocolMax : UInt32)
    (sources : Source) (history : List (Happening postcard log)) :
    let world := (World.start me protocolMax sources).run sig history
    let applied := world.node.store.applied
    applied.state = (Applied.reached sig log (applied.followedUpto + 1)).state ∧
    world.folded = through applied.followedUpto log.events ∧
    (∀ (peers : MemberId → NodeAddr → Peer postcard log) (fate : Fate) (more : Bool),
      (world.node.fetchLogFromCoreNodes sig (answers sig peers) fate).1 = .fetched more →
      applied.state.protocol ≤ world.node.protocolMax →
      applied.followedUpto <
        (world.step sig (.pass peers fate)).node.store.applied.followedUpto) ∧
    (∀ (bound : UInt32) (raise : ℕ),
      protocolMax ≤ bound → (∀ happening ∈ history, happening.Within bound) →
      bound < (Applied.reached sig log (raise + 1)).state.protocol →
      ∀ entry ∈ world.folded, entry.1 ≤ raise) ∧
    (∀ (voter : Voter postcard log) (source : Source) (limits : List PageLimits),
      applied.state.group.isSome →
      (voter.applied sig).lastAppliedIndex - applied.followedUpto ≤ limits.length →
      voter.pages sig source limits applied.followedUpto =
        between applied.followedUpto (voter.applied sig).lastAppliedIndex log.events) := by
  intro world applied
  have hfollows : ∀ {bound : UInt32}, protocolMax ≤ bound →
      (∀ happening ∈ history, happening.Within bound) → world.Follows sig log bound :=
    fun hbuild hwithin => World.Follows.run hdecodes (World.follows_start hbuild) hwithin
  -- every build is within the largest number there is
  have hany : ∀ protocol : UInt32, protocol ≤ 4294967295 := by
    intro protocol
    rw [UInt32.le_iff_toNat_le]
    exact Nat.le_of_lt_succ protocol.toNat_lt
  have h : world.Follows sig log 4294967295 := by
    refine hfollows (hany _) fun happening _ => ?_
    cases happening with
    | pass peers fate => trivial
    | restart build named => exact hany build
  refine ⟨h.memory.state_eq_reached, h.memory.cursor, ?_, ?_, ?_⟩
  · intro peers fate more hfetched hwithin
    exact h.fetched hdecodes hfetched hwithin
  · intro bound raise hbuild hwithin hraise
    exact (hfollows hbuild hwithin).memory.le_raise hraise
  · intro voter source limits hgroup hlength
    exact Voter.pages_eq hdecodes source (h.group_of_ahead hgroup) hlength

end Histories

/-! ## A raise in the middle of a page

A group of one, whose member raises the protocol and then admits somebody. A
follower that speaks protocol 1 reads the log one event at a time, asks a voter
that is behind, and is then handed the raise and the admission in one page. -/

/-- The committed log: two configurations and a blank entry among four events. -/
def raisedLog : CommittedLog where
  entries :=
    [⟨⟨1, alice, 0⟩, .membership ⟨[{alice}], ∅⟩⟩,
     ⟨⟨1, alice, 1⟩, .normal (.signedBy alice 0
        (.groupFounded ⟨9⟩ [(⟨alice, "alice"⟩, default)] default))⟩,
     ⟨⟨2, alice, 2⟩, .blank⟩,
     ⟨⟨2, alice, 3⟩, .normal (.signedBy alice 1 (.protocolSupported alice 2))⟩,
     ⟨⟨2, alice, 4⟩, .normal (.signedBy alice 3 (.protocolRaised 2))⟩,
     ⟨⟨2, alice, 5⟩, .membership ⟨[{alice}], ∅⟩⟩,
     ⟨⟨2, alice, 6⟩, .normal (.signedBy alice 4 (.memberAdded ⟨bob, "bob"⟩))⟩]
  placed := by decide
  configured := by decide
  bounded := by decide

/-- An encoding that writes an entry's index, and reads it back off the log. -/
def numbered : Postcard where
  encode entry := [UInt8.ofNat entry.logId.index]
  decode bytes :=
    match bytes.head?.bind fun index => raisedLog.entries[index.toNat]? with
    | some entry => .ok entry
    | none => .error "Hit the end of buffer"

/-- A voter that has applied `count` entries of the log, and holds all of it. -/
def votingAt (count : ℕ) (h : count ≤ 7) : Voter numbered raisedLog where
  store := LogStore.append numbered ⟨∅⟩ raisedLog.entries
  count := count
  counted := h
  holds := fun i entry hi => LogStore.holds_append numbered ⟨∅⟩ raisedLog i entry (hi.trans_le h)

/-- The voter that has applied the founding. -/
def afterFounding : Voter numbered raisedLog := votingAt 2 (by decide)

def onlyAlice : Source := ⟨[(alice, default)], none⟩

/-- A pass in which every candidate is `voter`, serving pages of `limits`. -/
def passWith (voter : Voter numbered raisedLog) (limits : PageLimits) :
    Happening numbered raisedLog :=
  .pass (fun _ _ => .voter voter onlyAlice limits) .stored

def oneEvent : PageLimits := ⟨1, 0, le_rfl⟩

/-- The follower after four passes: two of one event each, one answered by a
voter behind it, and one with the rest of the log in its page. -/
def raisedWorld : World :=
  (World.start carol PROTOCOL_MAX onlyAlice).run .accepting
    [passWith (votingAt 7 le_rfl) oneEvent, passWith (votingAt 4 (by decide)) oneEvent,
     passWith (votingAt 2 (by decide)) oneEvent, passWith (votingAt 7 le_rfl) .perFetch]

theorem numbered_decodes : numbered.Decodes raisedLog.entries :=
  show ∀ entry ∈ raisedLog.entries, numbered.decode (numbered.encode entry) = .ok entry by
    decide +kernel

/-- The follower stops at the raise, having skipped and repeated nothing, and a
reader that resumes there is served what comes after. -/
theorem follower_refines_voter_raise :
    raisedWorld.node.store.applied.followedUpto = 4 ∧
    raisedWorld.node.store.applied.state.protocol = 2 ∧
    raisedWorld.node.store.applied.state =
      (Applied.reached .accepting raisedLog
        (raisedWorld.node.store.applied.followedUpto + 1)).state ∧
    raisedWorld.folded =
      through raisedWorld.node.store.applied.followedUpto raisedLog.events ∧
    (∀ entry ∈ raisedWorld.folded, entry.1 ≤ 4) ∧
    (votingAt 7 le_rfl).pages .accepting onlyAlice [oneEvent, oneEvent]
        raisedWorld.node.store.applied.followedUpto =
      between raisedWorld.node.store.applied.followedUpto
        ((votingAt 7 le_rfl).applied .accepting).lastAppliedIndex raisedLog.events ∧
    0 < ((World.start carol PROTOCOL_MAX onlyAlice).step .accepting
      (passWith (votingAt 7 le_rfl) oneEvent)).node.store.applied.followedUpto := by
  have h := follower_refines_voter .accepting numbered raisedLog numbered_decodes carol PROTOCOL_MAX
    onlyAlice
  refine ⟨by decide +kernel, by decide +kernel, (h _).1, (h _).2.1, ?_, ?_, ?_⟩
  · refine (h _).2.2.2.1 PROTOCOL_MAX 4 (by decide) ?_ (by decide +kernel)
    intro happening hmem
    simp only [List.mem_cons, List.not_mem_nil, or_false] at hmem
    rcases hmem with rfl | rfl | rfl | rfl <;> trivial
  · exact (h _).2.2.2.2 (votingAt 7 le_rfl) onlyAlice [oneEvent, oneEvent] (by decide +kernel)
      (by decide +kernel)
  · exact (h []).2.2.1 (fun _ _ => .voter (votingAt 7 le_rfl) onlyAlice oneEvent) .stored true
      (by decide +kernel) (by decide)

end Follower

end Distlib
