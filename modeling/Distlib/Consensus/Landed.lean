import Distlib.Consensus.Promise

/-!
# Where an answered index stands

Whether a call keeps its promise depends on the answers that reach it on the way. One thing
depends on nothing. The index that it waits for, and then answers with, it has from a
verdict; a verdict is the log's, on a copy; and a copy is of the call's own event. So in
every run, whatever is lost and whoever else writes in between, what a call answers with is
an index at which its event was accepted (`submittedAt_of_answered`).
-/

namespace Distlib

open IndexedLog GuardedRun MembershipState

namespace Propose

namespace World

variable {sig : Signing} {call : Call} {world later : World}

/-- What a stage says of where the event is, whatever was answered before. -/
def Places (sig : Signing) (call : Call) (world : World) : Stage → Prop
  | .submitting round _ | .waiting round _ =>
    round.signed.payload = call.event ∧ round.signed.changedAt ≤ (world.log.membership sig).changedAt
  | .committed index | .answered (.ok index) => index ∈ world.effects sig
  | _ => True

/-- The invariant of every call. -/
structure Landed (sig : Signing) (call : Call) (world : World) : Prop where
  sound : world.AllSound sig call
  stage : world.Places sig call world.stage

theorem Places.onward {stage : Stage} (h : world.Places sig call stage)
    (honward : Onward sig world later) : later.Places sig call stage := by
  cases stage with
  | submitting round way => exact ⟨h.1, h.2.trans honward.past⟩
  | waiting round way => exact ⟨h.1, h.2.trans honward.past⟩
  | committed index => exact honward.effects index h
  | answered result =>
    rcases result with error | index
    · trivial
    · exact honward.effects index h
  | _ => trivial

theorem Landed.around (h : world.Landed sig call) (haround : Around sig call world later) :
    later.Landed sig call where
  sound := haround.sound
  stage := by
    rw [haround.stage]
    exact h.stage.onward haround.toOnward

/-! ## Steps of the call -/

/-- A failure says nothing of where the event is. -/
theorem error_places (again : Bool) (error : NodeError) :
    world.Places sig call (call.proposeAndRetry again (.error error)) := by
  cases error with
  | event error =>
    cases error with
    | staleProposal seen current =>
      simp only [Call.proposeAndRetry]
      split
      · trivial
      · trivial
    | _ => trivial
  | _ => trivial

/-! ### The stages a call can come to

Each rule takes what is shown of every stage that a part of the call can lead to. -/

theorem nextAttempt_cases {P : Stage → Prop} {round : Round}
    (asks : ∀ way, P (.submitting round way))
    (fails : ∀ error, P (call.proposeAndRetry round.again (.error error))) (left : ℕ)
    (unreached : Option (MemberId × ProposeError)) : P (call.nextAttempt round left unreached) := by
  rcases left with _ | left
  · rcases unreached with _ | ⟨leader, source⟩
    · exact fails .noLeader
    · exact fails (.forward leader source)
  · exact asks _

theorem nextCandidate_cases {P : Stage → Prop} {round : Round}
    (asks : ∀ way, P (.submitting round way))
    (fails : ∀ error, P (call.proposeAndRetry round.again (.error error)))
    (candidates : List (MemberId × NodeAddr)) (unreached : Option (MemberId × ProposeError)) :
    P (call.nextCandidate round candidates unreached) := by
  rcases candidates with _ | ⟨candidate, rest⟩
  · rcases unreached with _ | ⟨member, source⟩
    · exact fails .noLeader
    · exact fails (.forward member source)
  · exact asks _

/-- A call signs against the membership it holds, or fails. -/
theorem proposeOnce_cases {P : Stage → Prop} {membership : MembershipState} {again : Bool}
    (signs : ∀ signed : SignedEvent, signed.payload = call.event →
      signed.changedAt = membership.changedAt → ∀ way, P (.submitting ⟨again, signed⟩ way))
    (fails : ∀ error, P (call.proposeAndRetry again (.error error))) (seat : Seat)
    (now : Timestamp) : P (call.proposeOnce sig membership again seat now) := by
  rw [Call.proposeOnce]
  split
  · exact fails _
  · split
    · exact fails _
    · rename_i signed hsigned
      obtain ⟨hevent, hchangedAt⟩ := SignedEvent.sign_eq_ok hsigned
      have hasks := signs signed hevent hchangedAt
      rcases seat with _ | sources
      · exact nextAttempt_cases hasks fails _ _
      · exact nextCandidate_cases hasks fails _ _

/-- **One answer**: the round goes on, or fails, or the answer is the verdict on a copy. -/
theorem hear_cases {P : Stage → Prop} {round : Round} {way : Way} {answer : Answer}
    (waits : P (.waiting round way)) (asks : ∀ way, P (.submitting round way))
    (lands : ∀ index, world.written sig answer = some (.ok index) → P (.committed index))
    (fails : ∀ error, P (call.proposeAndRetry round.again (.error error))) :
    P (world.hear sig call round way answer) := by
  cases way with
  | core left unreached =>
    simp only [hear]
    split
    · exact lands _ (by assumption)
    · exact fails _
    · exact asks _
    · exact nextAttempt_cases asks fails _ _
    · exact fails _
    · exact fails _
    · exact waits
  | leader leader left =>
    simp only [hear]
    split
    · rename_i index hexchanged
      exact lands _ ((written_of_exchanged hexchanged).1 index rfl)
    · exact fails _
    · exact nextAttempt_cases asks fails _ _
    · exact waits
  | candidate member rest =>
    simp only [hear]
    split
    · rename_i index hexchanged
      exact lands _ ((written_of_exchanged hexchanged).1 index rfl)
    · exact fails _
    · exact nextCandidate_cases asks fails _ _
    · exact waits

theorem proposeOnce_places (world : World) (again : Bool) (seat : Seat) (now : Timestamp) :
    world.Places sig call (call.proposeOnce sig (world.membership sig) again seat now) := by
  refine proposeOnce_cases ?_ (error_places again) seat now
  intro signed hevent hchangedAt way
  exact ⟨hevent, hchangedAt.trans_le (GroupLog.changedAt_take_le sig world.log world.held)⟩

/-- An index is passed on only from the verdict on a copy. -/
theorem hear_places {round : Round} {way : Way} (h : world.Places sig call (.waiting round way))
    (answer : Answer) : world.Places sig call (world.hear sig call round way answer) :=
  hear_cases h (fun _ => h) (fun _ hwritten => mem_effects_of_written hwritten)
    (error_places round.again)

/-- The call goes to another stage, and nothing else changes. -/
theorem Landed.restage (h : world.Landed sig call) {stage : Stage}
    (hplaces : world.Places sig call stage) : ({ world with stage } : World).Landed sig call where
  sound := h.sound
  stage := hplaces.onward (onward_of_same rfl rfl)

theorem Landed.submit (h : world.Landed sig call) : (world.step sig call .submit).Landed sig call := by
  have hplaces := h.stage
  simp only [World.step]
  split
  · rename_i round way hstage
    rw [hstage] at hplaces
    refine ⟨?_, hplaces⟩
    intro copy hcopy
    rcases List.mem_append.mp hcopy with hold | hnew
    · exact h.sound copy hold
    · rw [List.mem_singleton.mp hnew]
      exact ⟨hplaces.1, hplaces.2, fun position hfate => by cases hfate⟩
  · exact h

/-- A wait ends, one way or the other. -/
theorem Landed.waited (h : world.Landed sig call) {step : Step}
    (hstep : step = .caughtUp ∨ step = .timedOut) : (world.step sig call step).Landed sig call := by
  have hplaces := h.stage
  rcases hstep with rfl | rfl
  · simp only [World.step]
    split
    · split
      · exact h.restage trivial
      · exact h
    · rename_i hstage
      rw [hstage] at hplaces
      split
      · exact h.restage hplaces
      · exact h
    · exact h
  · simp only [World.step]
    split
    · exact h.restage trivial
    · exact h.restage trivial
    · exact h

/-- **One step**, of the call or around it. -/
theorem Landed.step (h : world.Landed sig call) (step : Step) :
    (world.step sig call step).Landed sig call := by
  cases step with
  | entry index signed => exact h.around (around_entry h.sound index signed)
  | hold held => exact ⟨h.sound, h.stage.onward (onward_of_same rfl rfl)⟩
  | commit i index => exact h.around (around_commit h.sound i index)
  | lose i => exact h.around (around_lose h.sound i)
  | handOn i => exact h.around (around_handOn h.sound i)
  | proposeOnce seat now =>
    simp only [World.step]
    split
    · exact h.restage (proposeOnce_places world _ seat now)
    · exact h
  | submit => exact h.submit
  | hear answer =>
    have hplaces := h.stage
    simp only [World.step]
    split
    · rename_i round way hstage
      rw [hstage] at hplaces
      exact h.restage (hear_places hplaces answer)
    · exact h
  | caughtUp => exact h.waited (Or.inl rfl)
  | timedOut => exact h.waited (Or.inr rfl)

theorem landed_start (sig : Signing) (call : Call) (log : GroupLog) (held : ℕ) :
    (start log held).Landed sig call where
  sound := by
    intro copy hcopy
    cases hcopy
  stage := trivial

/-- Where a copy has taken effect, its event was accepted. -/
theorem submittedAt_of_effect {index : ℕ} (hsound : world.AllSound sig call)
    (heffect : index ∈ world.effects sig) : SubmittedAt sig world.log.entries index call.event := by
  obtain ⟨copy, hcopy, heffect⟩ := mem_effects.mp heffect
  rw [Copy.effect_eq_some, Copy.verdict] at heffect
  rcases hfate : copy.fate with _ | position | _ <;> rw [hfate] at heffect
  · cases heffect
  · change world.log.verdictAt sig position = some (.ok index) at heffect
    obtain ⟨entryIndex, hentry⟩ := (hsound copy hcopy).placed position hfate
    have hok := GroupLog.accepted_of_verdictAt hentry heffect
    obtain rfl : entryIndex = index := by
      rw [GroupLog.verdictAt, hentry, Option.map_some, hok] at heffect
      exact Except.ok.inj (Option.some.inj heffect)
    refine ⟨copy.signed, ⟨world.log.entries.take position, world.log.entries.drop (position + 1), ?_,
      hok⟩, (hsound copy hcopy).event⟩
    obtain ⟨hlt, hget⟩ := List.getElem?_eq_some_iff.mp hentry
    rw [← hget, ← List.drop_eq_getElem_cons hlt, List.take_append_drop]
  · cases heffect

/-- **What a call answers with** is an index at which its own event was accepted. -/
theorem submittedAt_of_answered (sig : Signing) (call : Call) (log : GroupLog) (held : ℕ)
    (steps : List Step) {index : ℕ}
    (hanswered : (exec (World.step sig call) (start log held) steps).stage = .answered (.ok index)) :
    SubmittedAt sig (exec (World.step sig call) (start log held) steps).log.entries index
      call.event := by
  have hlanded : (exec (World.step sig call) (start log held) steps).Landed sig call :=
    exec_invariant (I := Landed sig call) (fun _ step h => h.step step) steps (landed_start sig call log held)
  have hplaces := hlanded.stage
  rw [hanswered] at hplaces
  exact submittedAt_of_effect hlanded.sound hplaces

end World

end Propose

end Distlib
