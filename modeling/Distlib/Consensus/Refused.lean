import Distlib.Consensus.Follower
import Distlib.Lib.GuardedRun

/-!
# Told that one was expelled

A node that was expelled never reads the entry that expels it: every core node refuses it
at its allowlist. So the loop that follows the log takes being refused by everybody who
answered for having been expelled, if it has ever held the log, and stops for good.

A core node refuses whoever is no member in the part of the log it has applied, and it may
have applied any part. `toldExpelled_iff` says exactly when the verdict is drawn, by the
positions and the reachability of those a pass asks, and `expelled_only_if_expelled_iff`
when it is right: whatever has happened to the follower before, a member in good standing
is told it was expelled exactly when somebody it asks is reachable and nobody reachable has
applied its admission.
-/

namespace Distlib

open IndexedLog Memberlog GuardedRun

namespace Follower

variable {postcard : Postcard} {log : CommittedLog}

/-! ## The loop -/

/-- What a core node says to those it admits. -/
inductive Serving : Type where
  | entries (limits : PageLimits)
  /-- it votes no longer, and points at the core it knows -/
  | redirects
  /-- its build writes what the follower's cannot read -/
  | undecodable

/-- A core node: the part of the log it has applied, and what it says. -/
structure CoreNode (postcard : Postcard) (log : CommittedLog) where
  voter : Voter postcard log
  source : Source
  serving : Serving

/-- A core node admits the members of the part of the log it has applied. -/
def CoreNode.admits (sig : Signing) (node : CoreNode postcard log) (me : MemberId) : Bool :=
  (node.voter.applied sig).state.isMember me

/-- Who stands at an address, as `me` finds them: nobody, or somebody who refuses whoever
it does not admit. -/
def CoreNode.peer (sig : Signing) (me : MemberId) : Option (CoreNode postcard log) → Peer postcard log
  | none => .failing .unreachable
  | some node =>
    if node.admits sig me then
      match node.serving with
      | .entries limits => .voter node.voter node.source limits
      | .redirects => .retired node.source
      | .undecodable => .failing .undecodable
    else .failing .refused

/-- Why the loop ended. -/
inductive Stopped : Type where
  | upgradeRequired
  | expelled
  deriving DecidableEq

/-- Whether the loop ends after a pass that achieved `progress` and left `node`. -/
def Node.stops (node : Node) (progress : Progress) : Option Stopped :=
  if node.protocolMax < node.store.applied.state.protocol then some .upgradeRequired
  else
    match progress with
    | .undecodable => some .upgradeRequired
    | .refused =>
      -- a node that never held the log has yet to be admitted
      if node.store.applied.state.group.isSome then some .expelled else none
    | _ => none

/-- The loop that keeps a follower up to date, and whether it has ended. -/
structure Following where
  world : World
  stopped : Option Stopped

/-- What happens next. -/
inductive Turn (postcard : Postcard) (log : CommittedLog) : Type where
  /-- a pass, with whoever stands at each address at the time -/
  | pass (nodes : MemberId → NodeAddr → Option (CoreNode postcard log)) (fate : Fate)
  /-- the node starts again, perhaps as another build -/
  | restart (protocolMax : UInt32) (sources : Source)

/-- What a node finds at each address. -/
def Node.peers (sig : Signing) (node : Node)
    (nodes : MemberId → NodeAddr → Option (CoreNode postcard log)) :
    MemberId → NodeAddr → Peer postcard log :=
  fun member addr => CoreNode.peer sig node.me (nodes member addr)

def Following.step (sig : Signing) (following : Following) : Turn postcard log → Following
  | .pass nodes fate =>
    if following.stopped.isSome then following
    else
      let node := following.world.node
      let peers := node.peers sig nodes
      let progress := (node.fetchLogFromCoreNodes sig (answers sig peers) fate).1
      let world := following.world.step sig (.pass peers fate)
      ⟨world, world.node.stops progress⟩
  | .restart protocolMax sources =>
    ⟨@World.step postcard log sig following.world (.restart protocolMax sources), none⟩

/-- A node that has never read anything. -/
def Following.start (me : MemberId) (protocolMax : UInt32) (sources : Source) : Following :=
  ⟨.start me protocolMax sources, none⟩

/-! ## Whom a pass asks -/

/-- Whom a pass asks while nobody refers it to anybody: each once, and `left` at most. -/
def toAsk (me : MemberId) :
    ℕ → List (MemberId × NodeAddr) → Finset MemberId → List (MemberId × NodeAddr)
  | 0, _, _ => []
  | left + 1, candidates, visited =>
    match candidates.dropWhile fun candidate => candidate.1 = me ∨ candidate.1 ∈ visited with
    | [] => []
    | candidate :: candidates =>
      candidate :: toAsk me left candidates (insert candidate.1 visited)

/-- Whom a pass of the node asks. -/
def Node.toAsk (node : Node) : List (MemberId × NodeAddr) :=
  Follower.toAsk node.me 32 node.candidates ∅

/-- What asking around came to is a refusal. -/
def Asked.Refused (asked : Asked) : Prop :=
  asked.page = none ∧ 0 < asked.answers.refusals ∧ asked.answers.otherwise = 0

section Asking

variable {me : MemberId} {answer : MemberId → NodeAddr → Except Failure Fetched} {left : ℕ}

/-- With nobody left to ask it is what has been heard already. -/
theorem refused_of_nobody {asked : Asked} (hnone : asked.page = none) :
    asked.Refused ↔ asked.answers.otherwise = 0 ∧
      (∀ c ∈ ([] : List (MemberId × NodeAddr)),
        answer c.1 c.2 = .error .refused ∨ answer c.1 c.2 = .error .unreachable) ∧
      (0 < asked.answers.refusals ∨
        ∃ c ∈ ([] : List (MemberId × NodeAddr)), answer c.1 c.2 = .error .refused) := by
  constructor
  · rintro ⟨-, hrefused, hother⟩
    exact ⟨hother, fun _ hmem => absurd hmem List.not_mem_nil, Or.inl hrefused⟩
  · rintro ⟨hother, -, hrefused | ⟨c, hmem, -⟩⟩
    · exact ⟨hnone, hrefused, hother⟩
    · exact absurd hmem List.not_mem_nil

/-- Somebody who refuses or is not reached names nobody else to ask. -/
theorem Asked.hear_refusal {asked : Asked} {member : MemberId} {said : Except Failure Fetched}
    (hsaid : said = .error .refused ∨ said = .error .unreachable) (hnone : asked.page = none) :
    let heard := asked.hear me member said
    heard.2 = [] ∧ heard.1.page = none ∧ heard.1.visited = insert member asked.visited ∧
      heard.1.answers.otherwise = asked.answers.otherwise ∧
      (0 < heard.1.answers.refusals ↔ 0 < asked.answers.refusals ∨ said = .error .refused) := by
  rcases hsaid with rfl | rfl
  · exact ⟨rfl, hnone, rfl, rfl, iff_of_true (Nat.succ_pos _) (Or.inr rfl)⟩
  · exact ⟨rfl, hnone, rfl, rfl, (or_iff_left fun heq => by cases heq).symm⟩

/-- Anybody else hands over a page, or has said something other than a refusal. -/
theorem Asked.hear_other {asked : Asked} {member : MemberId} {said : Except Failure Fetched}
    (hsaid : ¬(said = .error .refused ∨ said = .error .unreachable)) (hnone : asked.page = none) :
    let heard := asked.hear me member said
    heard.1.page.isSome = true ∨ heard.1.page = none ∧ heard.1.answers.otherwise ≠ 0 := by
  rcases said with failure | fetched
  · cases failure with
    | unreachable => exact absurd (Or.inr rfl) hsaid
    | refused => exact absurd (Or.inl rfl) hsaid
    | undecodable => exact Or.inr ⟨hnone, Nat.succ_ne_zero _⟩
  · cases fetched with
    | entries upTo events more source => exact Or.inl rfl
    | noGroup => exact Or.inr ⟨hnone, Nat.succ_ne_zero _⟩
    | redirect source => exact Or.inr ⟨hnone, Nat.succ_ne_zero _⟩

/-- **Asking around is refused** exactly when everybody asked refuses or is not reached, and
somebody refuses: nobody who refuses refers to anybody else. -/
theorem askAround_refused : ∀ {candidates : List (MemberId × NodeAddr)} {asked : Asked},
    asked.page = none →
      ((askAround me answer left candidates asked).Refused ↔
        asked.answers.otherwise = 0 ∧
          (∀ c ∈ toAsk me left candidates asked.visited,
            answer c.1 c.2 = .error .refused ∨ answer c.1 c.2 = .error .unreachable) ∧
          (0 < asked.answers.refusals ∨
            ∃ c ∈ toAsk me left candidates asked.visited, answer c.1 c.2 = .error .refused)) := by
  induction left with
  | zero =>
    intro candidates asked hnone
    exact refused_of_nobody hnone
  | succ left ih =>
    intro candidates asked hnone
    rw [askAround, toAsk]
    generalize List.dropWhile _ candidates = next
    rcases next with _ | ⟨⟨member, addr⟩, rest⟩
    · exact refused_of_nobody hnone
    · dsimp only
      rw [List.forall_mem_cons, List.exists_mem_cons_iff]
      by_cases hsaid : answer member addr = .error .refused ∨ answer member addr = .error .unreachable
      · obtain ⟨hnobody, hpage, hvisited, hother, hrefusals⟩ := @Asked.hear_refusal me asked member _ hsaid
          hnone
        rw [if_neg (by rw [hpage]; simp), ih hpage, hnobody, List.append_nil, hvisited, hother,
          hrefusals, and_iff_right hsaid, or_assoc]
      · refine iff_of_false ?_ fun hall => hsaid hall.2.1.1
        rcases @Asked.hear_other me asked member _ hsaid hnone with hpage | ⟨hpage, hother⟩
        · rw [if_pos hpage]
          intro hrefused
          rw [hrefused.1] at hpage
          cases hpage
        · rw [if_neg (by rw [hpage]; simp), ih hpage]
          exact fun hall => hother hall.1

end Asking

theorem Answers.progress_refused {answers : Answers} :
    answers.progress = .refused ↔ 0 < answers.refusals ∧ answers.otherwise = 0 := by
  rw [Answers.progress]
  split
  · rename_i hrefused
    exact iff_of_true rfl hrefused
  · rename_i hnot
    refine iff_of_false ?_ hnot
    split <;> exact fun heq => by cases heq

section Pass

variable {sig : Signing} {node : Node} {fate : Fate}
  {answer : MemberId → NodeAddr → ℕ → Except Failure Fetched}

theorem fetchLog_refused :
    (node.fetchLogFromCoreNodes sig answer fate).1 = .refused ↔ (node.askAround answer).Refused := by
  rw [Node.fetchLogFromCoreNodes]
  split
  · rename_i hempty
    refine iff_of_false (fun heq => by cases heq) fun hrefused => ?_
    rw [Node.askAround, List.isEmpty_iff.mp hempty] at hrefused
    exact lt_irrefl 0 hrefused.2.1
  · dsimp only
    rw [Asked.Refused]
    rcases (node.askAround answer).page with _ | page
    · rw [and_iff_right rfl]
      exact Answers.progress_refused
    · refine iff_of_false ?_ fun hrefused => by cases hrefused.1
      dsimp only
      split
      · exact fun heq => by cases heq
      · split <;> exact fun heq => by cases heq

/-- **A pass is refused** exactly when everybody it asks refuses it or is not reached, and
somebody refuses it. -/
theorem fetchLog_refused_iff :
    (node.fetchLogFromCoreNodes sig answer fate).1 = .refused ↔
      (∀ c ∈ node.toAsk, answer c.1 c.2 node.store.applied.followedUpto = .error .refused ∨
        answer c.1 c.2 node.store.applied.followedUpto = .error .unreachable) ∧
      ∃ c ∈ node.toAsk, answer c.1 c.2 node.store.applied.followedUpto = .error .refused := by
  have hasked : (node.askAround answer).Refused ↔ _ := @askAround_refused node.me
    (fun member addr => answer member addr node.store.applied.followedUpto) 32 node.candidates
    ⟨none, ⟨0, 0, 0⟩, node.sources, ∅⟩ rfl
  rw [and_iff_right rfl, or_iff_right (lt_irrefl 0)] at hasked
  rw [fetchLog_refused, hasked, Node.toAsk]

/-- A pass that is refused leaves the store as it is. -/
theorem fetchLog_refused_store
    (h : (node.fetchLogFromCoreNodes sig answer fate).1 = .refused) :
    (node.fetchLogFromCoreNodes sig answer fate).2.store = node.store := by
  refine (fetchLog_of_no_page sig fate ?_).1
  rw [Node.page, (fetchLog_refused.mp h).1]
  rfl

end Pass

/-! ## The verdict -/

section Verdict

variable {sig : Signing} {following : Following} {me : MemberId}
  {nodes : MemberId → NodeAddr → Option (CoreNode postcard log)} {fate : Fate}

/-- How whoever stands at an address answers: nobody, somebody who does not admit the one
who asks, or somebody who does. -/
theorem peer_answer {cursor : ℕ} (stands : Option (CoreNode postcard log)) :
    let said := (CoreNode.peer sig me stands).answer sig cursor
    (said = .error .unreachable ↔ stands = none) ∧
      (said = .error .refused ↔ ∃ node, stands = some node ∧ node.admits sig me = false) := by
  rcases stands with _ | node
  · exact ⟨iff_of_true rfl rfl, iff_of_false (fun heq => by cases heq)
      fun ⟨node, hnode, _⟩ => by cases hnode⟩
  · by_cases hadmits : node.admits sig me = true
    · have hsaid : ∀ failure, failure ≠ .undecodable →
          (CoreNode.peer sig me (some node)).answer sig cursor ≠ .error failure := by
        intro failure hreads
        rw [CoreNode.peer, if_pos hadmits]
        cases node.serving with
        | entries limits => exact fun heq => by cases heq
        | redirects => exact fun heq => by cases heq
        | undecodable => exact fun heq => hreads (Except.error.inj heq).symm
      refine ⟨iff_of_false (hsaid _ fun heq => by cases heq) (fun hnone => by cases hnone),
        iff_of_false (hsaid _ fun heq => by cases heq) ?_⟩
      rintro ⟨other, hother, hrefuses⟩
      obtain rfl := Option.some.inj hother
      rw [hadmits] at hrefuses
      cases hrefuses
    · have hsaid : (CoreNode.peer sig me (some node)).answer sig cursor = .error .refused := by
        rw [CoreNode.peer, if_neg hadmits]
        rfl
      dsimp only
      rw [hsaid]
      exact ⟨iff_of_false (fun heq => by cases heq) (fun hnone => by cases hnone),
        iff_of_true rfl ⟨node, rfl, Bool.eq_false_iff.mpr hadmits⟩⟩

/-- The pass tells the node that it was expelled. -/
def Following.ToldExpelled (sig : Signing) (following : Following)
    (nodes : MemberId → NodeAddr → Option (CoreNode postcard log)) (fate : Fate) : Prop :=
  following.stopped = none ∧ (following.step sig (.pass nodes fate)).stopped = some .expelled

/-- The node has held the log, its group speaks a protocol of its own, and it still asks. -/
def Following.Asks (following : Following) : Prop :=
  following.stopped = none ∧ following.world.node.store.applied.state.group.isSome = true ∧
    following.world.node.store.applied.state.protocol ≤ following.world.node.protocolMax

/-- Nobody that is reached has applied a part of the log in which the node is a member. -/
def Node.Unvouched (sig : Signing) (node : Node)
    (nodes : MemberId → NodeAddr → Option (CoreNode postcard log)) : Prop :=
  (∃ c ∈ node.toAsk, nodes c.1 c.2 ≠ none) ∧
    ∀ c ∈ node.toAsk, ∀ coreNode, nodes c.1 c.2 = some coreNode → coreNode.admits sig node.me = false

/-- **When the verdict is drawn**: somebody of those a pass asks is reached, and nobody that
is reached has applied the node's admission. -/
theorem toldExpelled_iff :
    following.ToldExpelled sig nodes fate ↔
      following.Asks ∧ following.world.node.Unvouched sig nodes := by
  set node := following.world.node with hnode
  have hrefused : (node.fetchLogFromCoreNodes sig (answers sig (node.peers sig nodes)) fate).1 =
      .refused ↔ node.Unvouched sig nodes := by
    rw [fetchLog_refused_iff, Node.Unvouched]
    simp only [answers, Node.peers, (peer_answer _).1, (peer_answer _).2]
    constructor
    · rintro ⟨hall, c, hc, coreNode, hstands, -⟩
      refine ⟨⟨c, hc, by rw [hstands]; simp⟩, ?_⟩
      intro other hother another hanother
      rcases hall other hother with ⟨_, hsame, hrefuses⟩ | hnone
      · obtain rfl := Option.some.inj (hanother.symm.trans hsame)
        exact hrefuses
      · rw [hnone] at hanother
        cases hanother
    · rintro ⟨⟨c, hc, hreached⟩, hall⟩
      refine ⟨fun other hother => ?_, c, hc, ?_⟩
      · rcases hstands : nodes other.1 other.2 with _ | coreNode
        · exact Or.inr rfl
        · exact Or.inl ⟨coreNode, rfl, hall other hother coreNode hstands⟩
      · obtain ⟨coreNode, hstands⟩ := Option.ne_none_iff_exists'.mp hreached
        exact ⟨coreNode, hstands, hall c hc coreNode hstands⟩
  have hbuild := (@fetchLog_frame sig node (answers sig (node.peers sig nodes)) fate).1
  rw [Following.ToldExpelled, Following.Asks, Following.step]
  constructor
  · rintro ⟨hnone, htold⟩
    rw [if_neg (by rw [hnone]; simp)] at htold
    dsimp only [World.step, Node.stops] at htold
    rw [← hnode] at htold
    split at htold
    · cases htold
    · rename_i hwithin
      split at htold
      · cases htold
      · rename_i hprogress
        split at htold
        · rename_i hgroup
          rw [fetchLog_refused_store hprogress] at hgroup hwithin
          rw [hbuild] at hwithin
          exact ⟨⟨hnone, hgroup, UInt32.not_lt.mp hwithin⟩, hrefused.mp hprogress⟩
        · cases htold
      · cases htold
  · rintro ⟨⟨hnone, hgroup, hwithin⟩, hunvouched⟩
    have hprogress := hrefused.mpr hunvouched
    refine ⟨hnone, ?_⟩
    rw [if_neg (by rw [hnone]; simp)]
    dsimp only [World.step, Node.stops]
    rw [← hnode, fetchLog_refused_store hprogress, hbuild, if_neg (UInt32.not_lt.mpr hwithin),
      hprogress]
    exact if_pos hgroup

end Verdict

/-! ## Whether it is right -/

/-- Whether `member` is in the group after the first `count` entries of the log. -/
def memberAt (sig : Signing) (log : CommittedLog) (member : MemberId) (count : ℕ) : Bool :=
  (Applied.reached sig log count).state.isMember member

/-- Some committed entry expelled `member`, and none has admitted it since. -/
def ExpelledIn (sig : Signing) (log : CommittedLog) (member : MemberId) : Prop :=
  ∃ count < log.entries.length, memberAt sig log member count = true ∧
    ∀ later, count < later → later ≤ log.entries.length → memberAt sig log member later = false

/-- Some part of the log has `member` in the group. -/
def Admitted (sig : Signing) (log : CommittedLog) (member : MemberId) : Prop :=
  ∃ count ≤ log.entries.length, memberAt sig log member count = true

/-- What held at some point and holds no more stopped holding at a last one. -/
theorem exists_last_true {f : ℕ → Bool} {n : ℕ} (hn : f n = false) :
    ∀ {k : ℕ}, k ≤ n → f k = true →
      ∃ last < n, f last = true ∧ ∀ later, last < later → later ≤ n → f later = false := by
  induction n with
  | zero =>
    intro k hk htrue
    obtain rfl := Nat.le_zero.mp hk
    rw [hn] at htrue
    cases htrue
  | succ n ih =>
    intro k hk htrue
    rcases hbefore : f n with _ | _
    · have hlt : k ≤ n := Nat.le_of_lt_succ (lt_of_le_of_ne hk fun heq => by
        rw [heq, hn] at htrue
        cases htrue)
      obtain ⟨last, hlast, hheld, hnever⟩ := ih hbefore hlt htrue
      refine ⟨last, Nat.lt_succ_of_lt hlast, hheld, fun later hlater hle => ?_⟩
      rcases Nat.le_succ_iff.mp hle with hle | rfl
      · exact hnever later hlater hle
      · exact hn
    · refine ⟨n, Nat.lt_succ_self n, hbefore, fun later hlater hle => ?_⟩
      rw [Nat.le_antisymm hle hlater]
      exact hn

section Right

variable {sig : Signing} {following : Following} {me : MemberId}
  {nodes : MemberId → NodeAddr → Option (CoreNode postcard log)} {fate : Fate}

/-- Whoever was in the group was expelled exactly when it is not in the group now. -/
theorem expelledIn_iff (hadmitted : Admitted sig log me) :
    ExpelledIn sig log me ↔ memberAt sig log me log.entries.length = false := by
  constructor
  · rintro ⟨count, hcount, -, hnever⟩
    exact hnever _ hcount le_rfl
  · intro hout
    obtain ⟨count, hcount, hmember⟩ := hadmitted
    exact exists_last_true hout hcount hmember

/-- Nobody who has the log is somebody the group never had: of either copy, in memory and on
disk, nothing is known or the node has been a member. -/
structure Following.Known (sig : Signing) (log : CommittedLog) (me : MemberId)
    (following : Following) : Prop where
  named : following.world.node.me = me
  admitted : Admitted sig log me ∨
    following.world.node.store.applied.state.group = none ∧
      (following.world.node.store.durable.getD .empty).state.group = none

/-- A page is handed over only by somebody who admits the node. -/
theorem admitted_of_page {node : Node} {page : Page}
    (h : node.page (answers sig (node.peers sig nodes)) = some page) : Admitted sig log node.me := by
  obtain ⟨member, addr, source, hanswer⟩ := askAround_page rfl (Option.filter_eq_some_iff.mp h).1
  rw [answers, Node.peers] at hanswer
  rcases hstands : nodes member addr with _ | coreNode
  · rw [hstands] at hanswer
    cases hanswer
  · by_cases hadmits : coreNode.admits sig node.me = true
    · exact ⟨coreNode.voter.count, coreNode.voter.counted, hadmits⟩
    · rw [hstands, CoreNode.peer, if_neg hadmits] at hanswer
      cases hanswer

theorem Following.Known.step (h : following.Known sig log me) (turn : Turn postcard log) :
    (following.step sig turn).Known sig log me := by
  cases turn with
  | pass nodes fate =>
    rw [Following.step]
    split
    · exact h
    · refine ⟨fetchLog_frame.2.trans h.named, ?_⟩
      rcases hpage : following.world.node.page
          (answers sig (following.world.node.peers sig nodes)) with _ | page
      · have hstore := (fetchLog_of_no_page sig fate hpage).1
        dsimp only [World.step]
        rw [hstore]
        exact h.admitted
      · exact Or.inl (h.named ▸ admitted_of_page hpage)
  | restart protocolMax sources =>
    refine ⟨h.named, h.admitted.imp_right ?_⟩
    rintro ⟨-, hdisk⟩
    dsimp only [Following.step, World.step]
    rw [StateMachineStore.fromDatabase_applied, StateMachineStore.fromDatabase_durable]
    exact ⟨hdisk, hdisk⟩

theorem known_exec (me : MemberId) (protocolMax : UInt32) (sources : Source)
    (turns : List (Turn postcard log)) :
    (exec (Following.step sig) (.start me protocolMax sources) turns).Known sig log me :=
  exec_invariant (fun _ turn h => h.step turn) turns ⟨rfl, Or.inr ⟨rfl, rfl⟩⟩

end Right

/-- **Told so only if it is so**, whatever the log committed so far, and whatever passes and
restarts a follower has been through, answered by core nodes that have each applied any part
of it: the loop tells the node that it was expelled only if an entry after its last
admission did so, exactly when one of those that a member in good standing asks has applied
a part of the log in which it is a member, or nobody it asks is reached. -/
theorem expelled_only_if_expelled_iff (sig : Signing) (postcard : Postcard) (log : CommittedLog)
    (me : MemberId) (protocolMax : UInt32) (sources : Source) (turns : List (Turn postcard log))
    (nodes : MemberId → NodeAddr → Option (CoreNode postcard log)) (fate : Fate) :
    let following := exec (Following.step sig) (.start me protocolMax sources) turns
    (following.ToldExpelled sig nodes fate → ExpelledIn sig log me) ↔
      (following.Asks → memberAt sig log me log.entries.length = true →
        ¬following.world.node.Unvouched sig nodes) := by
  intro following
  have hknown : following.Known sig log me := known_exec me protocolMax sources turns
  rw [toldExpelled_iff]
  constructor
  · intro hright hasks hmember hunvouched
    obtain ⟨count, hcount, -, hnever⟩ := hright ⟨hasks, hunvouched⟩
    rw [hnever _ hcount le_rfl] at hmember
    cases hmember
  · rintro hvouched ⟨hasks, hunvouched⟩
    have hadmitted : Admitted sig log me := by
      refine hknown.admitted.resolve_right fun hnothing => ?_
      have hgroup := hasks.2.1
      rw [hnothing.1] at hgroup
      cases hgroup
    refine (expelledIn_iff hadmitted).mpr (Bool.eq_false_iff.mpr fun hmember => ?_)
    exact hvouched hasks hmember hunvouched

namespace Sample

/-- A group of two voters, one of whom admits bob. -/
def admittedLog : CommittedLog where
  entries :=
    [⟨⟨1, alice, 0⟩, .membership ⟨[{alice, carol}], ∅⟩⟩,
     ⟨⟨1, alice, 1⟩, .normal (.signedBy alice 0 (.groupFounded ⟨9⟩
        [(⟨alice, "alice"⟩, default), (⟨carol, "carol"⟩, default)] default))⟩,
     ⟨⟨1, alice, 2⟩, .normal (.signedBy alice 1 (.memberAdded ⟨bob, "bob"⟩))⟩]
  placed := by decide
  configured := by decide
  bounded := by decide

/-- An encoding that writes an entry's index, and reads it back off the log. -/
def admittedCode : Postcard where
  encode entry := [UInt8.ofNat entry.logId.index]
  decode bytes :=
    match bytes.head?.bind fun index => admittedLog.entries[index.toNat]? with
    | some entry => .ok entry
    | none => .error "Hit the end of buffer"

/-- A core node that has applied `count` entries of the log, and holds all of it. -/
def coreNodeAt (count : ℕ) (h : count ≤ 3) : CoreNode admittedCode admittedLog where
  voter :=
    { store := LogStore.append admittedCode ⟨∅⟩ admittedLog.entries
      count := count
      counted := h
      holds := fun i entry hi =>
        LogStore.holds_append admittedCode ⟨∅⟩ admittedLog i entry (hi.trans_le h) }
  source := ⟨[(alice, default), (carol, default)], some alice⟩
  serving := .entries .perFetch

/-- Both core nodes are up, and alice has applied bob's admission. -/
def bothUp (member : MemberId) (_ : NodeAddr) : Option (CoreNode admittedCode admittedLog) :=
  if member = alice then some (coreNodeAt 3 le_rfl)
  else if member = carol then some (coreNodeAt 2 (by decide))
  else none

/-- Alice is down. -/
def carolUp (member : MemberId) (_ : NodeAddr) : Option (CoreNode admittedCode admittedLog) :=
  if member = carol then some (coreNodeAt 2 (by decide)) else none

/-- Bob, who has read all of the log from alice. -/
def caughtUp : Following :=
  exec (Following.step .accepting) (.start bob PROTOCOL_MAX ⟨[(alice, default), (carol, default)], none⟩)
    [.pass bothUp .stored]

/-- **Bob is told he was expelled**: he is a member, alice is down, and carol has stored his
admission but not applied it. -/
theorem bob_told_expelled :
    ¬(caughtUp.ToldExpelled .accepting carolUp .stored → ExpelledIn .accepting admittedLog bob) := by
  intro hright
  have htold : caughtUp.ToldExpelled .accepting carolUp .stored :=
    ⟨by decide +kernel, by decide +kernel⟩
  obtain ⟨count, hcount, -, hnever⟩ := hright htold
  have hmember : memberAt .accepting admittedLog bob 3 = true := by decide +kernel
  have hout : memberAt .accepting admittedLog bob 3 = false := hnever 3 hcount (by decide)
  rw [hmember] at hout
  cases hout

end Sample

end Follower

end Distlib
