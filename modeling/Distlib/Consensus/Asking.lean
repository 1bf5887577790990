import Distlib.Consensus.Follower
import Distlib.Lib.Looping

/-!
# Asking for the log

`Follower` takes a pass as a recursion that counts down from 32. The source has no
such count: its loop runs while there is anybody in a queue, an answer may put any
number of members into it, known ones and made up ones, and whoever was asked before
is passed over without counting. What ends it is that each turn either takes one out
of the queue and nothing in, or makes the set of those asked larger, which may not
have more than 32 in it.

This module has the loop as it is written, turn by turn, with all it does to the
outside on record: whom it asks and what it applies. What somebody answers may depend
on all that was done before, so nothing is assumed of those asked. `fetchLog_of_ends`
says that the recursion of `Follower` is that loop, and `asking_ends` that it ends.
-/

namespace Distlib

open Looping Memberlog

namespace Follower

/-! ## The loop -/

/-- Something a pass does to the outside. -/
inductive Deed : Type where
  | asked (member : MemberId) (addr : NodeAddr)
  | applied (page : Page)

/-- Whom a pass asked, first to last. -/
def membersAsked (done : List Deed) : List MemberId :=
  done.filterMap fun deed => match deed with
    | .asked member _ => some member
    | .applied _ => none

/-- The pages a pass applied. -/
def pagesApplied (done : List Deed) : List Page :=
  done.filterMap fun deed => match deed with
    | .asked _ _ => none
    | .applied page => some page

/-- A pass at the top of its loop. -/
structure Pass where
  cursor : ℕ
  candidates : List (MemberId × NodeAddr)
  visited : Finset MemberId
  answers : Answers
  node : Node
  done : List Deed

/-- How a pass ended. -/
structure Ended where
  progress : Progress
  node : Node
  done : List Deed

/-- What a member says when it is asked, after all that was done before. -/
abbrev Saying : Type := List Deed → MemberId → NodeAddr → ℕ → Except Failure Fetched

/-- A pass asks a candidate it took off the queue. -/
def Pass.ask (pass : Pass) (member : MemberId) (addr : NodeAddr)
    (candidates : List (MemberId × NodeAddr)) : Pass :=
  { pass with
    candidates
    visited := insert member pass.visited
    done := pass.done ++ [.asked member addr] }

/-- What a pass makes of an answer. -/
def Pass.hear (sig : Signing) (fate : Fate) (pass : Pass) :
    Except Failure Fetched → Pass ⊕ Ended
  | .ok (.entries upTo events more source) =>
    -- the new view of the group is taken before the page is
    let node := { pass.node with sources := source }
    if upTo ≤ pass.cursor then .inr ⟨.upToDate, node, pass.done⟩
    else
      let done := pass.done ++ [.applied ⟨upTo, events, more⟩]
      match node.store.applyFollowed sig node.protocolMax upTo events fate with
      | (.error _, store) => .inr ⟨.notStored, { node with store }, done⟩
      | (.ok _, store) => .inr ⟨.fetched more, { node with store }, done⟩
  | .ok (.redirect source) =>
    .inl { pass with
      answers := { pass.answers with otherwise := pass.answers.otherwise + 1 }
      candidates := pass.candidates ++ source.candidates pass.node.me
      node := { pass.node with sources := source } }
  | .ok .noGroup =>
    .inl { pass with answers := { pass.answers with otherwise := pass.answers.otherwise + 1 } }
  | .error .undecodable =>
    .inl { pass with
      answers :=
        { pass.answers with
          otherwise := pass.answers.otherwise + 1
          undecodable := pass.answers.undecodable + 1 } }
  | .error .refused =>
    .inl { pass with answers := { pass.answers with refusals := pass.answers.refusals + 1 } }
  | .error .unreachable => .inl pass

/-- One turn of the loop. -/
def Pass.turn (sig : Signing) (answer : Saying) (fate : Fate) (pass : Pass) : Pass ⊕ Ended :=
  match pass.candidates with
  | [] => .inr ⟨pass.answers.progress, pass.node, pass.done⟩
  | (member, addr) :: candidates =>
    -- referral chains are bounded, cycles and dishonest fresh ids included
    if pass.visited.card ≥ 32 then .inr ⟨pass.answers.progress, pass.node, pass.done⟩
    else if member = pass.node.me ∨ member ∈ pass.visited then .inl { pass with candidates }
    else
      (pass.ask member addr candidates).hear sig fate (answer pass.done member addr pass.cursor)

/-- A pass before its first turn. -/
def Node.pass (node : Node) : Pass where
  cursor := node.store.applied.followedUpto
  candidates := node.candidates
  visited := ∅
  answers := ⟨0, 0, 0⟩
  node := node
  done := []

/-- A node that tries its known sources ends so. -/
def Node.FetchEnds (sig : Signing) (answer : Saying) (fate : Fate) (node : Node) (ended : Ended) :
    Prop :=
  if node.candidates.isEmpty then ended = ⟨.noSources, node, []⟩
  else Ends (Pass.turn sig answer fate) node.pass ended

/-! ## What a turn does -/

section Turns

variable {sig : Signing} {answer : Saying} {fate : Fate} {pass next : Pass} {ended : Ended}

/-- An answer after which a pass goes on lengthens the queue, and has nothing
applied. -/
theorem hear_goes_on {said : Except Failure Fetched} (h : pass.hear sig fate said = .inl next) :
    next.visited = pass.visited ∧ next.done = pass.done ∧ next.node.me = pass.node.me ∧
      next.cursor = pass.cursor ∧ next.node.store = pass.node.store := by
  rcases said with (_ | _ | _) | (⟨upTo, events, more, source⟩ | _ | source)
  case ok.entries =>
    rw [Pass.hear] at h
    dsimp only at h
    split at h
    · cases h
    · split at h <;> cases h
  all_goals
    cases h
    exact ⟨rfl, rfl, rfl, rfl, rfl⟩

/-- An answer that ends a pass has one page applied, or none. -/
theorem hear_ends {said : Except Failure Fetched} (h : pass.hear sig fate said = .inr ended) :
    membersAsked ended.done = membersAsked pass.done ∧
      (pagesApplied ended.done = pagesApplied pass.done ∨
        ∃ page, pagesApplied ended.done = pagesApplied pass.done ++ [page]) := by
  rcases said with (_ | _ | _) | (⟨upTo, events, more, source⟩ | _ | source)
  case ok.entries =>
    rw [Pass.hear] at h
    dsimp only at h
    split at h
    · cases h
      exact ⟨rfl, Or.inl rfl⟩
    · split at h
      · cases h
        exact ⟨by simp [membersAsked], Or.inr ⟨_, List.filterMap_append ..⟩⟩
      · cases h
        exact ⟨by simp [membersAsked], Or.inr ⟨_, List.filterMap_append ..⟩⟩
  all_goals cases h

/-- What holds at the top of the loop: the set of those asked is those asked, nobody
twice and never the node itself, and nothing was applied. -/
structure Pass.Sound (me : MemberId) (pass : Pass) : Prop where
  mine : pass.node.me = me
  asked : pass.visited = (membersAsked pass.done).toFinset
  nodup : (membersAsked pass.done).Nodup
  notMe : me ∉ membersAsked pass.done
  few : pass.visited.card ≤ 32
  nothing : pagesApplied pass.done = []

theorem sound_pass (node : Node) : node.pass.Sound node.me :=
  ⟨rfl, rfl, List.nodup_nil, List.not_mem_nil, Nat.zero_le _, rfl⟩

/-- Whoever is asked now has not been asked before. -/
theorem Pass.Sound.ask {me member : MemberId} (h : pass.Sound me)
    (hfew : ¬pass.visited.card ≥ 32) (hnew : ¬(member = pass.node.me ∨ member ∈ pass.visited))
    (addr : NodeAddr) (candidates : List (MemberId × NodeAddr)) :
    (pass.ask member addr candidates).Sound me := by
  obtain ⟨hnotMe, hnotAsked⟩ := not_or.mp hnew
  have hasked : membersAsked (pass.ask member addr candidates).done =
      membersAsked pass.done ++ [member] := List.filterMap_append ..
  refine ⟨h.mine, ?_, ?_, ?_, ?_, ?_⟩
  · rw [hasked, Pass.ask, h.asked]
    ext other
    simp
  · rw [hasked, List.nodup_append_comm, List.singleton_append, List.nodup_cons]
    exact ⟨fun hmem => hnotAsked (h.asked ▸ List.mem_toFinset.mpr hmem), h.nodup⟩
  · rw [hasked, List.mem_append, List.mem_singleton]
    rintro (hmem | rfl)
    · exact h.notMe hmem
    · exact hnotMe h.mine.symm
  · exact (Finset.card_insert_le _ _).trans (by omega)
  · exact (List.filterMap_append ..).trans (by rw [← pagesApplied, h.nothing]; rfl)

/-- What one turn is: the end, with nobody left or enough asked; passing over one who is
not to be asked; or asking one. -/
theorem turn_cases (sig : Signing) (answer : Saying) (fate : Fate) (pass : Pass) :
    (pass.candidates = [] ∨ pass.visited.card ≥ 32) ∧
        pass.turn sig answer fate = .inr ⟨pass.answers.progress, pass.node, pass.done⟩ ∨
      ∃ member addr candidates, pass.candidates = (member, addr) :: candidates ∧
        ¬pass.visited.card ≥ 32 ∧
        ((member = pass.node.me ∨ member ∈ pass.visited) ∧
            pass.turn sig answer fate = .inl { pass with candidates } ∨
          ¬(member = pass.node.me ∨ member ∈ pass.visited) ∧
            pass.turn sig answer fate = (pass.ask member addr candidates).hear sig fate
              (answer pass.done member addr pass.cursor)) := by
  rw [Pass.turn]
  rcases pass.candidates with _ | ⟨⟨member, addr⟩, candidates⟩
  · exact Or.inl ⟨Or.inl rfl, rfl⟩
  · by_cases hfew : pass.visited.card ≥ 32
    · exact Or.inl ⟨Or.inr hfew, if_pos hfew⟩
    · refine Or.inr ⟨member, addr, candidates, rfl, hfew, ?_⟩
      dsimp only
      rw [if_neg hfew]
      by_cases hknown : member = pass.node.me ∨ member ∈ pass.visited
      · exact Or.inl ⟨hknown, if_pos hknown⟩
      · exact Or.inr ⟨hknown, if_neg hknown⟩

/-- What must become smaller: how many may still be asked, and then the queue. -/
def Pass.left (pass : Pass) : ℕ ×ₗ ℕ := toLex (32 - pass.visited.card, pass.candidates.length)

/-- **A turn that goes on** leaves fewer to ask, or as many and a shorter queue, however
many the answer names. -/
theorem turn_goes_on {me : MemberId} (h : pass.Sound me)
    (hturn : pass.turn sig answer fate = .inl next) : next.Sound me ∧ next.left < pass.left := by
  rcases turn_cases sig answer fate pass with ⟨-, heq⟩ | ⟨member, addr, candidates, hqueue, hfew, hone⟩
  · rw [heq] at hturn
    cases hturn
  · rcases hone with ⟨-, heq⟩ | ⟨hnew, heq⟩
    · rw [heq] at hturn
      cases hturn
      refine ⟨⟨h.mine, h.asked, h.nodup, h.notMe, h.few, h.nothing⟩, ?_⟩
      refine Prod.Lex.toLex_lt_toLex.mpr (Or.inr ⟨rfl, ?_⟩)
      rw [hqueue]
      exact Nat.lt_succ_self _
    · rw [heq] at hturn
      obtain ⟨hvisited, hdone, hme, -⟩ := hear_goes_on hturn
      have hask := h.ask hfew hnew addr candidates
      refine ⟨⟨hme.trans hask.mine, ?_, ?_, ?_, ?_, ?_⟩, ?_⟩
      · rw [hvisited, hdone, hask.asked]
      · exact hdone ▸ hask.nodup
      · exact hdone ▸ hask.notMe
      · exact hvisited ▸ hask.few
      · exact hdone ▸ hask.nothing
      · refine Prod.Lex.toLex_lt_toLex.mpr (Or.inl ?_)
        have hmore : next.visited.card = pass.visited.card + 1 :=
          hvisited ▸ Finset.card_insert_of_notMem (not_or.mp hnew).2
        dsimp only
        omega

/-- What a whole pass may do to the outside. -/
structure Ended.Modest (me : MemberId) (ended : Ended) : Prop where
  nodup : (membersAsked ended.done).Nodup
  few : (membersAsked ended.done).length ≤ 32
  notMe : me ∉ membersAsked ended.done
  page : (pagesApplied ended.done).length ≤ 1

/-- The turn that ends a pass has one page applied, or none. -/
theorem turn_ends {me : MemberId} (h : pass.Sound me)
    (hturn : pass.turn sig answer fate = .inr ended) : ended.Modest me := by
  have hcount : ∀ {pass : Pass}, pass.Sound me → (membersAsked pass.done).length ≤ 32 := by
    intro pass h
    rw [← List.toFinset_card_of_nodup h.nodup, ← h.asked]
    exact h.few
  rcases turn_cases sig answer fate pass with ⟨-, heq⟩ | ⟨member, addr, candidates, -, hfew, hone⟩
  · rw [heq] at hturn
    cases hturn
    exact ⟨h.nodup, hcount h, h.notMe, by rw [h.nothing]; exact Nat.zero_le _⟩
  · rcases hone with ⟨-, heq⟩ | ⟨hnew, heq⟩
    · rw [heq] at hturn
      cases hturn
    · rw [heq] at hturn
      obtain ⟨hasked, hpages⟩ := hear_ends hturn
      have hask := h.ask hfew hnew addr candidates
      refine ⟨hasked ▸ hask.nodup, hasked ▸ hcount hask, hasked ▸ hask.notMe, ?_⟩
      rw [hask.nothing] at hpages
      rcases hpages with hnone | ⟨page, hone⟩
      · rw [hnone]
        exact Nat.zero_le _
      · rw [hone]
        exact le_rfl

end Turns

/-! ## The recursion that counts -/

section Counting

variable {sig : Signing} {answer : MemberId → NodeAddr → ℕ → Except Failure Fetched} {fate : Fate}
  {pass next : Pass} {ended : Ended}

/-- What a pass comes to, once asking around ended so. -/
def Node.comesTo (sig : Signing) (fate : Fate) (cursor : ℕ) (node : Node) (asked : Asked) :
    Progress × Node :=
  let node := { node with sources := asked.sources }
  match asked.page with
  | none => (asked.answers.progress, node)
  | some page =>
    if page.upTo ≤ cursor then (.upToDate, node)
    else
      match node.store.applyFollowed sig node.protocolMax page.upTo page.events fate with
      | (.error _, store) => (.notStored, { node with store })
      | (.ok _, store) => (.fetched page.more, { node with store })

/-- What asking around has heard, at the top of the loop. -/
def Pass.heard (pass : Pass) : Asked := ⟨none, pass.answers, pass.node.sources, pass.visited⟩

/-- What the recursion makes of the rest of a pass. -/
def Pass.counted (sig : Signing) (answer : MemberId → NodeAddr → ℕ → Except Failure Fetched)
    (fate : Fate) (pass : Pass) : Progress × Node :=
  pass.node.comesTo sig fate pass.cursor
    (askAround pass.node.me (fun member addr => answer member addr pass.cursor)
      (32 - pass.visited.card) pass.candidates pass.heard)

/-- Nobody left to ask, or enough asked. -/
theorem counted_of_over (h : pass.candidates = [] ∨ pass.visited.card ≥ 32) :
    pass.counted sig answer fate = (pass.answers.progress, pass.node) := by
  have hasked : askAround pass.node.me (fun member addr => answer member addr pass.cursor)
      (32 - pass.visited.card) pass.candidates pass.heard = pass.heard := by
    rcases h with hnobody | henough
    · rw [hnobody]
      cases 32 - pass.visited.card <;> rfl
    · rw [Nat.sub_eq_zero_of_le henough]
      rfl
  rw [Pass.counted, hasked]
  rfl

/-- Whoever is not to be asked is passed over. -/
theorem counted_of_known {member : MemberId} {addr : NodeAddr}
    {candidates : List (MemberId × NodeAddr)} (hqueue : pass.candidates = (member, addr) :: candidates)
    (hknown : member = pass.node.me ∨ member ∈ pass.visited) :
    pass.counted sig answer fate = { pass with candidates : Pass }.counted sig answer fate := by
  rw [Pass.counted, Pass.counted, hqueue]
  congr 1
  dsimp only
  rcases 32 - pass.visited.card with _ | left
  · rfl
  · have hpassed : decide ((member, addr).1 = pass.node.me ∨ (member, addr).1 ∈ pass.heard.visited) =
        true := decide_eq_true hknown
    rw [askAround, askAround, List.dropWhile_cons, if_pos hpassed]
    rfl

/-- A page ends a pass with what it comes to. -/
theorem hear_entries (sig : Signing) (fate : Fate) (pass : Pass) (page : Page) (source : Source)
    (answers : Answers) (visited : Finset MemberId) :
    ∃ ended, pass.hear sig fate (.ok (.entries page.upTo page.events page.more source)) = .inr ended ∧
      pass.node.comesTo sig fate pass.cursor ⟨some page, answers, source, visited⟩ =
        (ended.progress, ended.node) := by
  rw [Pass.hear, Node.comesTo]
  dsimp only
  split
  · exact ⟨_, rfl, rfl⟩
  · rcases pass.node.store.applyFollowed sig pass.node.protocolMax page.upTo page.events fate with
      ⟨_ | _, store⟩
    · exact ⟨_, rfl, rfl⟩
    · exact ⟨_, rfl, rfl⟩

/-- One is asked, and what is said decides the rest. -/
theorem counted_of_new {member : MemberId} {addr : NodeAddr}
    {candidates : List (MemberId × NodeAddr)} (hqueue : pass.candidates = (member, addr) :: candidates)
    (hfew : ¬pass.visited.card ≥ 32) (hnew : ¬(member = pass.node.me ∨ member ∈ pass.visited)) :
    (∀ ended, (pass.ask member addr candidates).hear sig fate (answer member addr pass.cursor) =
        .inr ended → pass.counted sig answer fate = (ended.progress, ended.node)) ∧
      ∀ next, (pass.ask member addr candidates).hear sig fate (answer member addr pass.cursor) =
        .inl next → pass.counted sig answer fate = next.counted sig answer fate := by
  have hleft : 32 - pass.visited.card = 32 - (insert member pass.visited).card + 1 := by
    rw [Finset.card_insert_of_notMem (not_or.mp hnew).2]
    omega
  have hround : pass.counted sig answer fate = pass.node.comesTo sig fate pass.cursor
      (let heard := pass.heard.hear pass.node.me member (answer member addr pass.cursor)
      if heard.1.page.isSome then heard.1
      else askAround pass.node.me (fun member addr => answer member addr pass.cursor)
        (32 - (insert member pass.visited).card) (candidates ++ heard.2) heard.1) := by
    have hasked : ¬decide ((member, addr).1 = pass.node.me ∨ (member, addr).1 ∈ pass.heard.visited) =
        true := fun hknown => hnew (of_decide_eq_true hknown)
    rw [Pass.counted, hleft, hqueue, askAround, List.dropWhile_cons, if_neg hasked]
  rw [hround]
  rcases answer member addr pass.cursor with (_ | _ | _) | (⟨upTo, events, more, source⟩ | _ | source)
  case ok.entries =>
    obtain ⟨ended, hends, hcomes⟩ := hear_entries sig fate (pass.ask member addr candidates)
      ⟨upTo, events, more⟩ source pass.answers (insert member pass.visited)
    rw [hends]
    refine ⟨fun ended' h => ?_, fun next h => (by cases h)⟩
    cases h
    exact hcomes
  case ok.redirect =>
    refine ⟨fun ended h => (by cases h), fun next h => ?_⟩
    cases h
    rfl
  all_goals
    refine ⟨fun ended h => (by cases h), fun next h => ?_⟩
    cases h
    dsimp only [Asked.hear]
    rw [List.append_nil]
    rfl

/-- **The recursion is the loop.** Where nobody's answer depends on what was done
before, the pass that counts down from 32 comes to what the loop ends with. -/
theorem fetchLog_of_ends {node : Node} (h : node.FetchEnds sig (fun _ => answer) fate ended) :
    node.fetchLogFromCoreNodes sig answer fate = (ended.progress, ended.node) := by
  rw [Node.FetchEnds] at h
  rw [Node.fetchLogFromCoreNodes]
  split at h
  case isTrue hnobody => rw [if_pos hnobody, h]
  case isFalse hsome =>
    rw [if_neg hsome]
    refine h.eq_of_unchanged (Pass.counted sig answer fate)
      (fun ended => (ended.progress, ended.node)) (fun pass next hturn => ?_)
      (fun pass ended hturn => ?_)
    · rcases turn_cases sig (fun _ => answer) fate pass with
        ⟨-, heq⟩ | ⟨member, addr, candidates, hqueue, hfew, ⟨hknown, heq⟩ | ⟨hnew, heq⟩⟩
      · rw [heq] at hturn
        cases hturn
      · rw [heq] at hturn
        cases hturn
        exact counted_of_known hqueue hknown
      · exact (counted_of_new hqueue hfew hnew).2 _ (heq.symm.trans hturn)
    · rcases turn_cases sig (fun _ => answer) fate pass with
        ⟨hover, heq⟩ | ⟨member, addr, candidates, hqueue, hfew, ⟨hknown, heq⟩ | ⟨hnew, heq⟩⟩
      · rw [heq] at hturn
        cases hturn
        exact counted_of_over hover
      · rw [heq] at hturn
        cases hturn
      · exact (counted_of_new hqueue hfew hnew).1 _ (heq.symm.trans hturn)

end Counting

/-! ## Asking ends -/

/-- **Asking for the log ends**, whoever a pass starts from and whatever those it asks
answer, referrals to any number of members included: it ends, and when it does, it has
asked no more than 32 members, none of them twice and never the node itself, and has
applied one page or none. -/
theorem asking_ends (sig : Signing) (answer : Saying) (fate : Fate) (node : Node) :
    (∃ ended, node.FetchEnds sig answer fate ended) ∧
      ∀ ended, node.FetchEnds sig answer fate ended →
        (membersAsked ended.done).Nodup ∧ (membersAsked ended.done).length ≤ 32 ∧
          node.me ∉ membersAsked ended.done ∧ (pagesApplied ended.done).length ≤ 1 := by
  constructor
  · by_cases hnobody : node.candidates.isEmpty
    · exact ⟨_, (if_pos hnobody).mpr rfl⟩
    · obtain ⟨ended, hends⟩ := ends_of_smaller Pass.left (fun _ _ h => turn_goes_on h)
        (sound_pass node)
      exact ⟨ended, (if_neg hnobody).mpr hends⟩
  · intro ended hends
    rw [Node.FetchEnds] at hends
    split at hends
    · rw [hends]
      exact ⟨List.nodup_nil, Nat.zero_le _, List.not_mem_nil, Nat.zero_le _⟩
    · have hmodest : ended.Modest node.me :=
        hends.meets (fun _ _ h hturn => (turn_goes_on h hturn).1) (fun _ _ => turn_ends)
          (sound_pass node)
      exact ⟨hmodest.nodup, hmodest.few, hmodest.notMe, hmodest.page⟩

end Follower

end Distlib
