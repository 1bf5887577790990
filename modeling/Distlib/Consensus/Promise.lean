import Distlib.Lib.GuardedRun
import Distlib.Consensus.Propose

/-!
# What a proposal's answer is worth

Handing the same signed event to several nodes is safe: it takes effect at most once.
What is not safe is to believe the refusal that the second copy comes back with. When it
was the call's own first copy that made the second one stale, the retry makes the event
take effect twice; and a refusal that is not tried again is answered although the event
took effect: `lost_answer_readmits_carol`.

It takes an answer that was lost after its copy was committed, or given up before. The
condition (`World.Delivered`) is on the network alone and says that there is none: the call
submits again only while no copy of that signing is committed, and a copy that it does not
await any more is not committed later. Of the rules it says nothing. So what took effect is
the copy the call awaits, and nothing else can: that is the invariant (`Upheld.quiet`), and
since there is one such copy at most, a call takes effect at most once. A refusal that
reaches it is then of the copy it awaits, or of an event that no rule accepts, so nothing
took effect, and what is signed next is the first that can (`settled_of_refused`). The main
result is `proposed_at_most_once`.
-/

namespace Distlib

open IndexedLog GuardedRun MembershipState

namespace Propose

open Memberlog

/-! ## What can still take effect -/

section Copies

variable {sig : Signing} {call : Call} {log : GroupLog} {copy : Copy} {index : ℕ}
  {other : SignedEvent}

/-- A copy is of the call's event, signed against a membership the group has been at, and
stands in the log where it says. -/
structure Copy.Sound (sig : Signing) (call : Call) (log : GroupLog) (copy : Copy) : Prop where
  event : copy.signed.payload = call.event
  past : copy.signed.changedAt ≤ (log.membership sig).changedAt
  placed : ∀ position, copy.fate = .committed position →
    ∃ index, log.entries[position]? = some (index, copy.signed)

theorem Copy.effect_eq_some {copy : Copy} {index : ℕ} :
    copy.effect sig log = some index ↔ copy.verdict sig log = some (.ok index) := by
  rw [Copy.effect]
  rcases copy.verdict sig log with _ | error | effect
  · simp
  · simp
  · simp

theorem Copy.effect_of_underWay (h : copy.fate = .underWay) : copy.effect sig log = none := by
  rw [Copy.effect, Copy.verdict, h]

/-- What is spent has not taken effect. -/
theorem Copy.Spent.effect (h : copy.Spent sig log) : copy.effect sig log = none := by
  rw [Copy.Spent] at h
  rcases hfate : copy.fate with _ | position | _ <;> rw [hfate] at h
  · exact effect_of_underWay hfate
  · exact h
  · exact h

theorem Copy.spent_of_lost (h : copy.fate = .lost) : copy.Spent sig log := by
  simp only [Copy.Spent, h, Copy.effect, Copy.verdict]

/-- Only what is committed takes effect. -/
theorem Copy.effect_of_uncommitted (h : copy.isCommitted = false) : copy.effect sig log = none := by
  rw [Copy.isCommitted] at h
  rw [Copy.effect, Copy.verdict]
  rcases hfate : copy.fate with _ | position | _
  · rfl
  · rw [hfate] at h
    cases h
  · rfl

theorem Copy.Sound.verdict_append (hsound : copy.Sound sig call log) (h : log.Next index) :
    copy.verdict sig (log.append index other h) = copy.verdict sig log := by
  rw [Copy.verdict, Copy.verdict]
  rcases hfate : copy.fate with _ | position | _
  · rfl
  · obtain ⟨entryIndex, hentry⟩ := hsound.placed position hfate
    exact GroupLog.verdictAt_append h (List.getElem?_eq_some_iff.mp hentry).1
  · rfl

theorem Copy.Sound.effect_append (hsound : copy.Sound sig call log) (h : log.Next index) :
    copy.effect sig (log.append index other h) = copy.effect sig log := by
  rw [Copy.effect, Copy.effect, hsound.verdict_append h]

theorem Copy.Sound.append (hsound : copy.Sound sig call log) (h : log.Next index) :
    copy.Sound sig call (log.append index other h) where
  event := hsound.event
  past := hsound.past.trans (GroupLog.changedAt_append_le h)
  placed := by
    intro position hfate
    obtain ⟨entryIndex, hentry⟩ := hsound.placed position hfate
    refine ⟨entryIndex, ?_⟩
    rw [GroupLog.append, List.getElem?_append_left (List.getElem?_eq_some_iff.mp hentry).1]
    exact hentry

/-- What is spent stays so, whatever is committed. -/
theorem Copy.Spent.append (hspent : copy.Spent sig log) (hsound : copy.Sound sig call log)
    (h : log.Next index) : copy.Spent sig (log.append index other h) := by
  rw [Copy.Spent] at hspent ⊢
  rcases hfate : copy.fate with _ | position | _ <;> rw [hfate] at hspent
  · exact GroupLog.Refuses.append hspent hsound.past h
  · exact (hsound.effect_append h).trans hspent
  · exact (hsound.effect_append h).trans hspent

theorem Copy.verdict_commit (h : log.Next index) :
    (copy.commit log).verdict sig (log.append index copy.signed h) =
      some (((log.membership sig).apply sig index copy.signed).1.map fun () => index) :=
  GroupLog.verdictAt_last h

theorem Copy.Sound.commit (hsound : copy.Sound sig call log) (h : log.Next index) :
    (copy.commit log).Sound sig call (log.append index copy.signed h) where
  event := hsound.event
  past := hsound.past.trans (GroupLog.changedAt_append_le h)
  placed := by
    intro position hfate
    obtain rfl : log.entries.length = position := Fate.committed.inj hfate
    exact ⟨index, List.getElem?_concat_length ..⟩

/-- A spent copy that is committed is refused. -/
theorem Copy.Spent.commit (hspent : copy.Spent sig log) (hfate : copy.fate = .underWay)
    (h : log.Next index) : (copy.commit log).Spent sig (log.append index copy.signed h) := by
  rw [Copy.Spent, hfate] at hspent
  change (copy.commit log).effect sig (log.append index copy.signed h) = none
  rw [Copy.effect, Copy.verdict_commit]
  rcases hverdict : ((log.membership sig).apply sig index copy.signed).1 with error | ⟨⟩
  · rfl
  · exact absurd hverdict (hspent index h)

end Copies

/-! ## While the call goes on -/

namespace World

variable {sig : Signing} {call : Call} {world later : World}

/-- What the call awaits has not taken effect, and never will. -/
def Settled (sig : Signing) (world : World) : Prop :=
  ∀ i copy, world.copies[i]? = some copy → world.Awaits i → copy.Spent sig world.log

/-- Of what the call awaits, nothing but what this round has signed can take effect. -/
structure InRound (sig : Signing) (call : Call) (world : World) (round : Round) : Prop where
  event : round.signed.payload = call.event
  limits : call.event.withinLimits = .ok ()
  past : round.signed.changedAt ≤ (world.log.membership sig).changedAt
  awaited : ∀ i copy, world.copies[i]? = some copy → world.Awaits i →
    copy.signed = round.signed ∨ copy.Spent sig world.log

/-- The last submission is of this signing. -/
def Submitted (world : World) (signed : SignedEvent) : Prop :=
  ∀ copy ∈ world.copies, copy.submission = world.submissions → copy.signed = signed

/-- What a stage of the call says of what it has submitted. -/
def Keeps (sig : Signing) (call : Call) (world : World) : Stage → Prop
  | .proposing _ | .catchingUp _ | .answered (.error (.event _)) => world.Settled sig
  | .submitting round _ => world.InRound sig call round
  | .waiting round _ => world.InRound sig call round ∧ world.Submitted round.signed
  | .committed index | .answered (.ok index) | .answered (.error (.notYetApplied index)) =>
    index ∈ world.effects sig
  | .answered (.error _) => True

/-- The invariant of a call. -/
structure Upheld (sig : Signing) (call : Call) (world : World) : Prop where
  sound : ∀ copy ∈ world.copies, copy.Sound sig call world.log
  numbered : ∀ copy ∈ world.copies, copy.submission ≤ world.submissions
  /-- what was handed on of the last submission is not committed -/
  handedOn : ∀ i copy, world.copies[i]? = some copy → copy.submission = world.submissions →
    ¬world.Awaits i → copy.isCommitted = false
  /-- what the call does not await has not taken effect -/
  quiet : ∀ i copy, world.copies[i]? = some copy → ¬world.Awaits i →
    copy.effect sig world.log = none
  stage : world.Keeps sig call world.stage

theorem mem_effects {index : ℕ} :
    index ∈ world.effects sig ↔ ∃ copy ∈ world.copies, copy.effect sig world.log = some index := by
  rw [effects, List.mem_filterMap]

theorem Awaits.submission {i : ℕ} {copy : Copy} (h : world.Awaits i)
    (hget : world.copies[i]? = some copy) : copy.submission = world.submissions := by
  have hlast := h.1
  rw [List.getElem?_map, hget, Option.map_some, Option.some_inj] at hlast
  exact hlast

/-- Where the submissions are what they were, so is what the call awaits. -/
theorem awaits_congr (hsubmissions : later.submissions = world.submissions)
    (hcopies : later.copies.map Copy.submission = world.copies.map Copy.submission) (i : ℕ) :
    later.Awaits i ↔ world.Awaits i := by
  rw [Awaits, Awaits, hsubmissions, hcopies]

/-! ### Steps around the call -/

/-- The log has moved on, and what can take effect is no more than before. -/
structure Onward (sig : Signing) (world later : World) : Prop where
  past : (world.log.membership sig).changedAt ≤ (later.log.membership sig).changedAt
  copies : ∀ copy ∈ later.copies, ∃ before ∈ world.copies,
    copy.signed = before.signed ∧ (before.Spent sig world.log → copy.Spent sig later.log)
  effects : ∀ index ∈ world.effects sig, index ∈ later.effects sig

/-- Where the log and the copies are what they were, so is everything said of them. -/
theorem onward_of_same (hlog : later.log = world.log) (hcopies : later.copies = world.copies) :
    Onward sig world later where
  past := by rw [hlog]
  copies := by
    rw [hcopies, hlog]
    exact fun copy hcopy => ⟨copy, hcopy, rfl, id⟩
  effects := by
    rw [World.effects, World.effects, hcopies, hlog]
    exact fun _ heffect => heffect

/-- Every copy is of the call's event, and stands where it says. -/
def AllSound (sig : Signing) (call : Call) (world : World) : Prop :=
  ∀ copy ∈ world.copies, copy.Sound sig call world.log

/-- What a step around the call does: the call is where it was. -/
structure Around (sig : Signing) (call : Call) (world later : World) : Prop
    extends Onward sig world later where
  stage : later.stage = world.stage
  sound : later.AllSound sig call

theorem around_self (h : world.AllSound sig call) : Around sig call world world where
  toOnward := onward_of_same rfl rfl
  stage := rfl
  sound := h

/-- Somebody else's entry. -/
theorem around_entry (h : world.AllSound sig call) (index : ℕ) (signed : SignedEvent) :
    Around sig call world (world.step sig call (.entry index signed)) := by
  simp only [step]
  split
  · rename_i hnext
    refine ⟨⟨GroupLog.changedAt_append_le hnext, ?_, ?_⟩, rfl, ?_⟩
    · intro copy hcopy
      exact ⟨copy, hcopy, rfl, fun hspent => hspent.append (h copy hcopy) hnext⟩
    · intro effect heffect
      obtain ⟨copy, hcopy, heffect⟩ := mem_effects.mp heffect
      exact mem_effects.mpr ⟨copy, hcopy, ((h copy hcopy).effect_append hnext).trans heffect⟩
    · intro copy hcopy
      exact (h copy hcopy).append hnext
  · exact around_self h

/-- What has taken effect is not what is under way, and stays when that is replaced. -/
theorem mem_set_of_effect {i effect : ℕ} {copy old new : Copy} (hget : world.copies[i]? = some copy)
    (hunder : copy.fate = .underWay) (hold : old ∈ world.copies)
    (heffect : old.effect sig world.log = some effect) : old ∈ world.copies.set i new := by
  obtain ⟨j, hj⟩ := List.mem_iff_getElem?.mp hold
  have hne : i ≠ j := by
    rintro rfl
    rw [hget, Option.some.injEq] at hj
    rw [← hj, Copy.effect_of_underWay hunder] at heffect
    cases heffect
  refine List.mem_of_getElem? (i := j) ?_
  rw [List.getElem?_set_ne hne]
  exact hj

/-- A copy is committed. -/
theorem around_commit (h : world.AllSound sig call) (i index : ℕ) :
    Around sig call world (world.step sig call (.commit i index)) := by
  simp only [step]
  split
  · exact around_self h
  rename_i copy hget
  split
  swap
  · exact around_self h
  rename_i hcommits
  obtain ⟨⟨hunder, -⟩, hnext⟩ := hcommits
  have hcopy := List.mem_of_getElem? hget
  refine ⟨⟨GroupLog.changedAt_append_le hnext, ?_, ?_⟩, rfl, ?_⟩
  · intro later hlater
    rcases List.mem_or_eq_of_mem_set hlater with hold | rfl
    · exact ⟨later, hold, rfl, fun hspent => hspent.append (h later hold) hnext⟩
    · exact ⟨copy, hcopy, rfl, fun hwas => hwas.commit hunder hnext⟩
  · intro effect heffect
    obtain ⟨old, hold, heffect⟩ := mem_effects.mp heffect
    exact mem_effects.mpr ⟨old, mem_set_of_effect hget hunder hold heffect,
      ((h old hold).effect_append hnext).trans heffect⟩
  · intro later hlater
    rcases List.mem_or_eq_of_mem_set hlater with hold | rfl
    · exact (h later hold).append hnext
    · exact (h copy hcopy).commit hnext

/-- A copy is lost. -/
theorem around_lose (h : world.AllSound sig call) (i : ℕ) :
    Around sig call world (world.step sig call (.lose i)) := by
  simp only [step]
  split
  · exact around_self h
  rename_i copy hget
  split
  swap
  · exact around_self h
  rename_i hunder
  have hcopy := List.mem_of_getElem? hget
  refine ⟨⟨le_rfl, ?_, ?_⟩, rfl, ?_⟩
  · intro later hlater
    rcases List.mem_or_eq_of_mem_set hlater with hold | rfl
    · exact ⟨later, hold, rfl, id⟩
    · exact ⟨copy, hcopy, rfl, fun _ => Copy.spent_of_lost rfl⟩
  · intro effect heffect
    obtain ⟨old, hold, heffect⟩ := mem_effects.mp heffect
    exact mem_effects.mpr ⟨old, mem_set_of_effect hget hunder hold heffect, heffect⟩
  · intro later hlater
    rcases List.mem_or_eq_of_mem_set hlater with hold | rfl
    · exact h later hold
    · exact ⟨(h copy hcopy).event, (h copy hcopy).past, fun position hfate => by cases hfate⟩

/-- Handed on, a copy can take effect only if the first can. -/
theorem Copy.Spent.handedOn {copy : Copy} (hunder : copy.fate = .underWay)
    (h : copy.Spent sig world.log) : Copy.Spent sig world.log { copy with place := .handedOn } := by
  rwa [Copy.Spent, hunder] at h ⊢

/-- A copy is handed on. -/
theorem around_handOn (h : world.AllSound sig call) (i : ℕ) :
    Around sig call world (world.step sig call (.handOn i)) := by
  simp only [step]
  split
  · exact around_self h
  rename_i copy hget
  split
  swap
  · exact around_self h
  rename_i hhands
  have hcopy := List.mem_of_getElem? hget
  refine ⟨⟨le_rfl, ?_, ?_⟩, rfl, ?_⟩
  · intro later hlater
    rcases List.mem_append.mp hlater with hold | hnew
    · exact ⟨later, hold, rfl, id⟩
    · rw [List.mem_singleton.mp hnew]
      exact ⟨copy, hcopy, rfl, Copy.Spent.handedOn hhands.1⟩
  · intro effect heffect
    obtain ⟨old, hold, heffect⟩ := mem_effects.mp heffect
    exact mem_effects.mpr ⟨old, List.mem_append_left _ hold, heffect⟩
  · intro later hlater
    rcases List.mem_append.mp hlater with hold | hnew
    · exact h later hold
    · rw [List.mem_singleton.mp hnew]
      exact ⟨(h copy hcopy).event, (h copy hcopy).past, (h copy hcopy).placed⟩

/-- What a step beside the call makes of its copies: the one it awaits is the one it awaited,
or one that was handed on in its place, and of the others none takes effect by it. -/
structure Beside (sig : Signing) (world later : World) : Prop where
  submissions : later.submissions = world.submissions
  copies : ∀ copy ∈ later.copies, ∃ before ∈ world.copies,
    copy.signed = before.signed ∧ copy.submission = before.submission
  awaited : ∀ i copy, later.copies[i]? = some copy → later.Awaits i →
    ∃ j before, world.copies[j]? = some before ∧ world.Awaits j ∧
      copy.signed = before.signed ∧ (before.Spent sig world.log → copy.Spent sig later.log)
  others : ∀ i copy, later.copies[i]? = some copy → ¬later.Awaits i →
    copy.isCommitted = false ∨
      ∃ before, world.copies[i]? = some before ∧ ¬world.Awaits i ∧
        copy.submission = before.submission ∧
        (before.isCommitted = false → copy.isCommitted = false) ∧
        (before.effect sig world.log = none → copy.effect sig later.log = none)

/-- A step that leaves every copy at its place. -/
theorem beside_of_places (hsubmissions : later.submissions = world.submissions)
    (hplaces : later.copies.map Copy.submission = world.copies.map Copy.submission)
    (hcopies : ∀ i copy, later.copies[i]? = some copy → ∃ before, world.copies[i]? = some before ∧
      copy.signed = before.signed ∧ (before.Spent sig world.log → copy.Spent sig later.log) ∧
      (¬world.Awaits i → (before.isCommitted = false → copy.isCommitted = false) ∧
        (before.effect sig world.log = none → copy.effect sig later.log = none))) :
    Beside sig world later := by
  have hawaits := awaits_congr hsubmissions hplaces
  have hsame : ∀ (i : ℕ) (copy before : Copy), later.copies[i]? = some copy →
      world.copies[i]? = some before → copy.submission = before.submission := by
    intro i copy before hget hbefore
    have hplace := congrArg (fun places => places[i]?) hplaces
    simp only [List.getElem?_map, hget, hbefore, Option.map_some, Option.some_inj] at hplace
    exact hplace
  refine ⟨hsubmissions, ?_, ?_, ?_⟩
  · intro copy hcopy
    obtain ⟨i, hget⟩ := List.mem_iff_getElem?.mp hcopy
    obtain ⟨before, hbefore, hsigned, -⟩ := hcopies i copy hget
    exact ⟨before, List.mem_of_getElem? hbefore, hsigned, hsame i copy before hget hbefore⟩
  · intro i copy hget hawaited
    obtain ⟨before, hbefore, hsigned, hspent, -⟩ := hcopies i copy hget
    exact ⟨i, before, hbefore, (hawaits i).mp hawaited, hsigned, hspent⟩
  · intro i copy hget hnot
    rw [hawaits i] at hnot
    obtain ⟨before, hbefore, -, -, hother⟩ := hcopies i copy hget
    obtain ⟨hcommitted, heffect⟩ := hother hnot
    exact Or.inr ⟨before, hbefore, hnot, hsame i copy before hget hbefore, hcommitted, heffect⟩

theorem beside_of_same (hlog : later.log = world.log) (hcopies : later.copies = world.copies)
    (hsubmissions : later.submissions = world.submissions) : Beside sig world later := by
  refine beside_of_places hsubmissions (by rw [hcopies]) fun i copy hget => ?_
  rw [hcopies] at hget
  rw [hlog]
  exact ⟨copy, hget, rfl, id, fun _ => ⟨id, id⟩⟩

theorem Settled.beside (h : world.Settled sig) (hbeside : Beside sig world later) :
    later.Settled sig := by
  intro i copy hget hawaited
  obtain ⟨j, before, hbefore, hwas, -, hspent⟩ := hbeside.awaited i copy hget hawaited
  exact hspent (h j before hbefore hwas)

theorem InRound.beside {round : Round} (h : world.InRound sig call round)
    (honward : Onward sig world later) (hbeside : Beside sig world later) :
    later.InRound sig call round where
  event := h.event
  limits := h.limits
  past := h.past.trans honward.past
  awaited := by
    intro i copy hget hawaited
    obtain ⟨j, before, hbefore, hwas, hsame, hspent⟩ := hbeside.awaited i copy hget hawaited
    rw [hsame]
    exact (h.awaited j before hbefore hwas).imp id hspent

theorem Submitted.beside {signed : SignedEvent} (h : world.Submitted signed)
    (hbeside : Beside sig world later) : later.Submitted signed := by
  intro copy hcopy hsubmission
  obtain ⟨before, hbefore, hsigned, hsame⟩ := hbeside.copies copy hcopy
  rw [hsigned]
  exact h before hbefore (by rw [← hsame, hsubmission, hbeside.submissions])

theorem Keeps.beside {stage : Stage} (h : world.Keeps sig call stage)
    (honward : Onward sig world later) (hbeside : Beside sig world later) :
    later.Keeps sig call stage := by
  cases stage with
  | proposing again => exact Settled.beside h hbeside
  | submitting round way => exact InRound.beside h honward hbeside
  | waiting round way => exact ⟨InRound.beside h.1 honward hbeside, Submitted.beside h.2 hbeside⟩
  | catchingUp current => exact Settled.beside h hbeside
  | committed index => exact honward.effects index h
  | answered result =>
    rcases result with error | index
    · cases error with
      | event error => exact Settled.beside h hbeside
      | notYetApplied index => exact honward.effects index h
      | _ => trivial
    · exact honward.effects index h

/-- **A step beside the call** keeps what the call keeps. -/
theorem Upheld.beside (h : world.Upheld sig call) (haround : Around sig call world later)
    (hbeside : Beside sig world later) : later.Upheld sig call where
  sound := haround.sound
  numbered := by
    intro copy hcopy
    obtain ⟨before, hbefore, -, hsame⟩ := hbeside.copies copy hcopy
    rw [hsame, hbeside.submissions]
    exact h.numbered before hbefore
  handedOn := by
    intro i copy hget hsubmission hnot
    rcases hbeside.others i copy hget hnot with
      huncommitted | ⟨before, hbefore, hwas, hsame, hcommitted, -⟩
    · exact huncommitted
    · refine hcommitted (h.handedOn i before hbefore ?_ hwas)
      rw [← hsame, hsubmission, hbeside.submissions]
  quiet := by
    intro i copy hget hnot
    rcases hbeside.others i copy hget hnot with
      huncommitted | ⟨before, hbefore, hwas, -, -, heffect⟩
    · exact Copy.effect_of_uncommitted huncommitted
    · exact heffect (h.quiet i before hbefore hwas)
  stage := by
    rw [haround.stage]
    exact h.stage.beside haround.toOnward hbeside

theorem Upheld.entry (h : world.Upheld sig call) (index : ℕ) (signed : SignedEvent) :
    (world.step sig call (.entry index signed)).Upheld sig call := by
  refine h.beside (around_entry h.sound index signed) ?_
  simp only [step]
  split
  · rename_i hnext
    refine beside_of_places rfl rfl fun i copy hget => ?_
    have hsound := h.sound copy (List.mem_of_getElem? hget)
    exact ⟨copy, hget, rfl, fun hspent => hspent.append hsound hnext,
      fun _ => ⟨id, fun hnone => (hsound.effect_append hnext).trans hnone⟩⟩
  · exact beside_of_same rfl rfl rfl

/-- A replaced copy leaves the places of the submissions alone. -/
theorem map_submission_set {i : ℕ} {copy new : Copy} (hget : world.copies[i]? = some copy)
    (hsame : new.submission = copy.submission) :
    (world.copies.set i new).map Copy.submission = world.copies.map Copy.submission := by
  have hplace : (world.copies.map Copy.submission)[i]? = some new.submission := by
    rw [List.getElem?_map, hget, Option.map_some, hsame]
  obtain ⟨hlt, hsubmission⟩ := List.getElem?_eq_some_iff.mp hplace
  rw [List.map_set, ← hsubmission, List.set_getElem_self]

/-- The copy that is committed is the one the call awaits; whether it takes effect or not,
nothing else does. -/
theorem Upheld.commit (h : world.Upheld sig call) (i index : ℕ) (hawaited : world.Awaits i) :
    (world.step sig call (.commit i index)).Upheld sig call := by
  refine h.beside (around_commit h.sound i index) ?_
  rcases hget : world.copies[i]? with _ | copy
  · simp only [step, hget]
    exact beside_of_same rfl rfl rfl
  simp only [step, hget]
  split
  swap
  · exact beside_of_same rfl rfl rfl
  rename_i hcommits
  obtain ⟨⟨hunder, -⟩, hnext⟩ := hcommits
  refine beside_of_places rfl (map_submission_set hget rfl) fun j later hlater => ?_
  rcases eq_or_ne i j with rfl | hne
  · rw [List.getElem?_set_self (List.getElem?_eq_some_iff.mp hget).1, Option.some_inj] at hlater
    subst hlater
    exact ⟨copy, hget, rfl, fun hspent => hspent.commit hunder hnext,
      fun hnot => absurd hawaited hnot⟩
  · rw [List.getElem?_set_ne hne] at hlater
    have hsound := h.sound later (List.mem_of_getElem? hlater)
    exact ⟨later, hlater, rfl, fun hspent => hspent.append hsound hnext,
      fun _ => ⟨id, fun hnone => (hsound.effect_append hnext).trans hnone⟩⟩

theorem Upheld.lose (h : world.Upheld sig call) (i : ℕ) :
    (world.step sig call (.lose i)).Upheld sig call := by
  refine h.beside (around_lose h.sound i) ?_
  rcases hget : world.copies[i]? with _ | copy
  · simp only [step, hget]
    exact beside_of_same rfl rfl rfl
  simp only [step, hget]
  split
  swap
  · exact beside_of_same rfl rfl rfl
  refine beside_of_places rfl (map_submission_set hget rfl) fun j later hlater => ?_
  rcases eq_or_ne i j with rfl | hne
  · rw [List.getElem?_set_self (List.getElem?_eq_some_iff.mp hget).1, Option.some_inj] at hlater
    subst hlater
    exact ⟨copy, hget, rfl, fun _ => Copy.spent_of_lost rfl,
      fun _ => ⟨fun _ => rfl, fun _ => Copy.effect_of_uncommitted rfl⟩⟩
  · rw [List.getElem?_set_ne hne] at hlater
    exact ⟨later, hlater, rfl, id, fun _ => ⟨id, id⟩⟩

/-- What is under way is not committed. -/
theorem isCommitted_of_underWay {copy : Copy} (h : copy.fate = .underWay) :
    copy.isCommitted = false := by
  rw [Copy.isCommitted, h]

/-- A copy is handed on. If the call awaited it, it now awaits the new one, which can take
effect only if the first could. -/
theorem Upheld.handOn (h : world.Upheld sig call) (i : ℕ)
    (hdelivered : world.Delivered (.handOn i)) :
    (world.step sig call (.handOn i)).Upheld sig call := by
  refine h.beside (around_handOn h.sound i) ?_
  rcases hget : world.copies[i]? with _ | copy
  · simp only [step, hget]
    exact beside_of_same rfl rfl rfl
  simp only [step, hget]
  split
  swap
  · exact beside_of_same rfl rfl rfl
  rename_i hhands
  have hplaces : (world.copies ++ [{ copy with place := .handedOn }]).map Copy.submission =
      world.copies.map Copy.submission ++ [copy.submission] := by simp
  have huncommitted := isCommitted_of_underWay hhands.1
  refine ⟨rfl, ?_, ?_, ?_⟩
  · intro later hlater
    rcases List.mem_append.mp hlater with hold | hnew
    · exact ⟨later, hold, rfl, rfl⟩
    · rw [List.mem_singleton.mp hnew]
      exact ⟨copy, List.mem_of_getElem? hget, rfl, rfl⟩
  · intro j later hlater hawaited
    rw [Awaits, hplaces] at hawaited
    by_cases hlast : copy.submission = world.submissions
    · -- the new one, in the place of the first
      rw [hlast, lastOf_concat_self, List.length_map] at hawaited
      rw [hawaited, List.getElem?_concat_length, Option.some_inj] at hlater
      subst hlater
      exact ⟨i, copy, hget, hdelivered copy hget hlast, rfl, Copy.Spent.handedOn hhands.1⟩
    · rw [lastOf_concat_of_ne hlast] at hawaited
      have hlt : j < world.copies.length := by
        have hplace := (List.getElem?_eq_some_iff.mp hawaited.1).1
        rwa [List.length_map] at hplace
      rw [List.getElem?_append_left hlt] at hlater
      exact ⟨j, later, hlater, hawaited, rfl, id⟩
  · intro j later hlater hnot
    rcases Nat.lt_or_ge j world.copies.length with hlt | hge
    · rw [List.getElem?_append_left hlt] at hlater
      by_cases hwas : world.Awaits j
      · -- the one that was handed on
        left
        by_cases hlast : copy.submission = world.submissions
        · obtain rfl := hwas.unique (hdelivered copy hget hlast)
          rw [hget, Option.some_inj] at hlater
          rw [← hlater]
          exact huncommitted
        · refine absurd ?_ hnot
          rw [Awaits, hplaces, lastOf_concat_of_ne hlast]
          exact hwas
      · exact Or.inr ⟨later, hlater, hwas, rfl, id, id⟩
    · left
      rw [List.getElem?_append_right hge] at hlater
      obtain rfl := List.mem_singleton.mp (List.mem_of_getElem? hlater)
      exact huncommitted

/-! ### Steps of the call -/

theorem keeps_refused {again : Bool} {refused : ConsensusError} (h : world.Settled sig) :
    world.Keeps sig call (call.proposeAndRetry again (.error (.event refused))) := by
  cases refused with
  | staleProposal seen current =>
    simp only [Call.proposeAndRetry]
    split
    · exact h
    · exact h
  | _ => exact h

theorem nextAttempt_keeps {round : Round} (h : world.InRound sig call round) (left : ℕ)
    (unreached : Option (MemberId × ProposeError)) :
    world.Keeps sig call (call.nextAttempt round left unreached) := by
  rcases left with _ | left
  · rcases unreached with _ | ⟨leader, source⟩
    · trivial
    · trivial
  · exact h

theorem nextCandidate_keeps {round : Round} (h : world.InRound sig call round)
    (candidates : List (MemberId × NodeAddr)) (unreached : Option (MemberId × ProposeError)) :
    world.Keeps sig call (call.nextCandidate round candidates unreached) := by
  rcases candidates with _ | ⟨candidate, rest⟩
  · rcases unreached with _ | ⟨member, source⟩
    · trivial
    · trivial
  · exact h

/-- A round begins when what was submitted before it is spent. -/
theorem proposeOnce_keeps (h : world.Settled sig) (again : Bool) (seat : Seat) (now : Timestamp) :
    world.Keeps sig call (call.proposeOnce sig (world.membership sig) again seat now) := by
  rw [Call.proposeOnce]
  split
  · exact keeps_refused h
  · rename_i hlimits
    split
    · exact keeps_refused h
    · rename_i signed hsigned
      obtain ⟨hevent, hchangedAt⟩ := SignedEvent.sign_eq_ok hsigned
      have hround : world.InRound sig call ⟨again, signed⟩ :=
        { event := hevent
          limits := hlimits
          past := hchangedAt.trans_le (GroupLog.changedAt_take_le sig world.log world.held)
          awaited := fun i copy hget hawaited => Or.inr (h i copy hget hawaited) }
      rcases seat with _ | sources
      · exact nextAttempt_keeps hround _ _
      · exact nextCandidate_keeps hround _ _

/-- The call has checked the event, so a core node's check of it is of the signature. -/
theorem checks_of_verified {copy : Copy} (hsound : copy.Sound sig call world.log)
    (hlimits : call.event.withinLimits = .ok ()) (hverified : copy.signed.verify sig = .ok ()) :
    checks sig copy.signed = .ok () := by
  rw [checks, SignedEvent.event, hverified]
  change copy.signed.payload.withinLimits = _
  rw [hsound.event, hlimits]

/-- What a core node's check refuses the rules refuse too. -/
theorem spent_of_unchecked {copy : Copy} {refused : ConsensusError}
    (hsound : copy.Sound sig call world.log) (hlimits : call.event.withinLimits = .ok ())
    (hchecks : checks sig copy.signed = .error refused) : copy.Spent sig world.log := by
  have hunverified : copy.signed.verify sig ≠ .ok () := by
    intro hverified
    rw [checks_of_verified hsound hlimits hverified] at hchecks
    cases hchecks
  have hno : ∀ {log : GroupLog} {index : ℕ},
      ((log.membership sig).apply sig index copy.signed).1 ≠ .ok () := by
    intro log index hok
    obtain ⟨u, hu⟩ := succeeds_of_apply hok
    exact hunverified hu.verified
  rcases hfate : copy.fate with _ | position | _
  · rw [Copy.Spent, hfate]
    intro index _
    exact hno
  · obtain ⟨index, hentry⟩ := hsound.placed position hfate
    rw [Copy.Spent, hfate]
    change copy.effect sig world.log = none
    by_contra heffect
    obtain ⟨effect, heffect⟩ := Option.ne_none_iff_exists'.mp heffect
    rw [Copy.effect_eq_some, Copy.verdict, hfate] at heffect
    exact hno (GroupLog.accepted_of_verdictAt hentry heffect)
  · exact Copy.spent_of_lost hfate

/-- A verdict that reaches the call is the log's on a copy of its last submission, or a core
node's refusal to submit one. -/
theorem written_cases {answer : Answer} {result : Except ConsensusError ℕ}
    (hwritten : world.written sig answer = some result) :
    ∃ (i : ℕ) (copy : Copy), world.copies[i]? = some copy ∧
      copy.submission = world.submissions ∧ (copy.verdict sig world.log = some result ∨
        ∃ refused, checks sig copy.signed = .error refused ∧ result = .error refused) := by
  cases answer with
  | verdict i =>
    simp only [written] at hwritten
    split at hwritten
    · rename_i copy hget
      split at hwritten
      · exact ⟨i, copy, hget, ‹_›, Or.inl hwritten⟩
      · cases hwritten
    · cases hwritten
  | refused i =>
    simp only [written] at hwritten
    split at hwritten
    · rename_i copy hget
      split at hwritten
      · rename_i hlast
        split at hwritten
        · rename_i refused hchecks
          exact ⟨i, copy, hget, hlast.1, Or.inr ⟨refused, hchecks, (Option.some.inj hwritten).symm⟩⟩
        · cases hwritten
      · cases hwritten
    · cases hwritten
  | _ => cases hwritten

/-- **A refusal settles the round**: it is of the copy the call awaits, since nothing else of
the last submission is committed, or of an event no rule accepts. -/
theorem Upheld.settled_of_refused (h : world.Upheld sig call) {round : Round}
    (hround : world.InRound sig call round) (hsubmitted : world.Submitted round.signed)
    {answer : Answer} {refused : ConsensusError}
    (hwritten : world.written sig answer = some (.error refused)) : world.Settled sig := by
  obtain ⟨i, copy, hget, hlast, hverdict | ⟨unchecked, hchecks, -⟩⟩ := written_cases hwritten
  · intro j awaited hj hawaited
    have hwhich : world.Awaits i := by
      by_contra hnot
      have huncommitted := h.handedOn i copy hget hlast hnot
      rw [Copy.isCommitted] at huncommitted
      rw [Copy.verdict] at hverdict
      rcases hfate : copy.fate with _ | position | _
      · rw [hfate] at hverdict
        cases hverdict
      · rw [hfate] at huncommitted
        cases huncommitted
      · rw [hfate] at hverdict
        cases hverdict
    obtain rfl := hwhich.unique hawaited
    rw [hget, Option.some_inj] at hj
    subst hj
    have heffect : copy.effect sig world.log = none := by rw [Copy.effect, hverdict]
    rcases hfate : copy.fate with _ | position | _
    · rw [Copy.verdict, hfate] at hverdict
      cases hverdict
    · rw [Copy.Spent, hfate]
      exact heffect
    · exact Copy.spent_of_lost hfate
  · intro j awaited hj hawaited
    have hin := List.mem_of_getElem? hj
    rw [hsubmitted copy (List.mem_of_getElem? hget) hlast,
      ← hsubmitted awaited hin (hawaited.submission hj)] at hchecks
    exact spent_of_unchecked (h.sound awaited hin) hround.limits hchecks

/-- A success is of a copy that has taken effect. -/
theorem mem_effects_of_written {answer : Answer} {index : ℕ}
    (hwritten : world.written sig answer = some (.ok index)) : index ∈ world.effects sig := by
  obtain ⟨i, copy, hget, -, hverdict | ⟨refused, -, hrefused⟩⟩ := written_cases hwritten
  · exact mem_effects.mpr ⟨copy, List.mem_of_getElem? hget, Copy.effect_eq_some.mpr hverdict⟩
  · cases hrefused

/-- An exchange reports a verdict when, and as, the rules gave it. -/
theorem written_of_exchanged {answer : Answer} {member : MemberId} {result : Except ProposeError ℕ}
    (h : (world.exchanged sig answer).map (propose member) = some result) :
    (∀ index, result = .ok index → world.written sig answer = some (.ok index)) ∧
      ∀ refused, result = .error (.rejected refused) →
        world.written sig answer = some (.error refused) := by
  simp only [exchanged] at h
  rcases hwritten : world.written sig answer with _ | refused | index <;> simp only [hwritten] at h
  · cases answer <;> simp [propose] at h <;> subst h <;> simp
  · obtain rfl := Option.some.inj h
    simp [propose, ProposeOutcome.ofWritten]
  · obtain rfl := Option.some.inj h
    simp [propose, ProposeOutcome.ofWritten]

/-- **One answer.** A verdict is passed on, in one of the two ways there are; everything
else goes on with the round, or says nothing of the event. -/
theorem hear_keeps {round : Round} (h : world.InRound sig call round)
    (hsubmitted : world.Submitted round.signed) (way : Way) {answer : Answer}
    (hrefused : ∀ refused, world.written sig answer = some (.error refused) → world.Settled sig) :
    world.Keeps sig call (world.hear sig call round way answer) := by
  cases way with
  | core left unreached =>
    simp only [hear]
    split
    · exact mem_effects_of_written (by assumption)
    · exact keeps_refused (hrefused _ (by assumption))
    · exact h
    · exact nextAttempt_keeps h _ _
    · trivial
    · trivial
    · exact ⟨h, hsubmitted⟩
  | leader leader left =>
    simp only [hear]
    split
    · rename_i index hexchanged
      exact mem_effects_of_written ((written_of_exchanged hexchanged).1 index rfl)
    · rename_i refused hexchanged
      exact keeps_refused (hrefused refused ((written_of_exchanged hexchanged).2 refused rfl))
    · exact nextAttempt_keeps h _ _
    · exact ⟨h, hsubmitted⟩
  | candidate member rest =>
    simp only [hear]
    split
    · rename_i index hexchanged
      exact mem_effects_of_written ((written_of_exchanged hexchanged).1 index rfl)
    · rename_i refused hexchanged
      exact keeps_refused (hrefused refused ((written_of_exchanged hexchanged).2 refused rfl))
    · exact nextCandidate_keeps h _ _
    · exact ⟨h, hsubmitted⟩

/-- The call goes to another stage, and nothing else changes. -/
theorem Upheld.restage (h : world.Upheld sig call) {stage : Stage}
    (hkeeps : world.Keeps sig call stage) : ({ world with stage } : World).Upheld sig call where
  sound := h.sound
  numbered := h.numbered
  handedOn := h.handedOn
  quiet := h.quiet
  stage := hkeeps.beside (onward_of_same rfl rfl) (beside_of_same rfl rfl rfl)

/-- **One submission more**: what the call awaited cannot have taken effect, since nothing of
this signing is committed, and what is of an earlier one is spent. -/
theorem Upheld.submit (h : world.Upheld sig call) (hdelivered : world.Delivered .submit) :
    (world.step sig call .submit).Upheld sig call := by
  simp only [step]
  split
  swap
  · exact h
  rename_i round way hstage
  have hround : world.InRound sig call round := by
    have hkeeps := h.stage
    rw [hstage] at hkeeps
    exact hkeeps
  have hfresh : ∀ copy ∈ world.copies, copy.signed = round.signed → copy.isCommitted = false :=
    hdelivered round.signed (by rw [hstage]; rfl)
  have hawaits : ∀ i, World.Awaits
      { world with
        copies := world.copies ++ [⟨round.signed, world.submissions + 1, way.place, .underWay⟩]
        submissions := world.submissions + 1
        stage := .waiting round way } i ↔ i = world.copies.length := by
    intro i
    rw [Awaits, List.map_append, List.map_singleton, lastOf_concat_self, List.length_map]
  -- what is not the new copy is of before
  have hold : ∀ {i : ℕ} {copy : Copy},
      (world.copies ++ [⟨round.signed, world.submissions + 1, way.place, .underWay⟩])[i]? =
        some copy → i ≠ world.copies.length → world.copies[i]? = some copy := by
    intro i copy hget hne
    have hlt := (List.getElem?_eq_some_iff.mp hget).1
    rw [List.length_append, List.length_singleton] at hlt
    rwa [List.getElem?_append_left (by omega)] at hget
  refine ⟨?_, ?_, ?_, ?_, ⟨⟨hround.event, hround.limits, hround.past, ?_⟩, ?_⟩⟩
  · intro copy hcopy
    rcases List.mem_append.mp hcopy with hbefore | hnew
    · exact h.sound copy hbefore
    · rw [List.mem_singleton.mp hnew]
      exact ⟨hround.event, hround.past, fun position hfate => by cases hfate⟩
  · intro copy hcopy
    rcases List.mem_append.mp hcopy with hbefore | hnew
    · exact (h.numbered copy hbefore).trans (Nat.le_succ _)
    · rw [List.mem_singleton.mp hnew]
  · intro i copy hget hsubmission hnot
    rw [hawaits] at hnot
    have hle := h.numbered copy (List.mem_of_getElem? (hold hget hnot))
    rw [hsubmission] at hle
    exact absurd hle (Nat.not_succ_le_self _)
  · intro i copy hget hnot
    rw [hawaits] at hnot
    have hbefore := hold hget hnot
    by_cases hawaited : world.Awaits i
    · rcases hround.awaited i copy hbefore hawaited with hsigned | hspent
      · exact Copy.effect_of_uncommitted (hfresh copy (List.mem_of_getElem? hbefore) hsigned)
      · exact hspent.effect
    · exact h.quiet i copy hbefore hawaited
  · intro i copy hget hawaited
    rw [hawaits] at hawaited
    rw [hawaited, List.getElem?_concat_length, Option.some_inj] at hget
    exact Or.inl (by rw [← hget])
  · intro copy hcopy hsubmission
    rcases List.mem_append.mp hcopy with hbefore | hnew
    · have hle := h.numbered copy hbefore
      rw [hsubmission] at hle
      exact absurd hle (Nat.not_succ_le_self _)
    · rw [List.mem_singleton.mp hnew]

theorem Upheld.hear (h : world.Upheld sig call) (answer : Answer) :
    (world.step sig call (.hear answer)).Upheld sig call := by
  simp only [step]
  split
  · rename_i round way hstage
    have hkeeps := h.stage
    rw [hstage] at hkeeps
    obtain ⟨hround, hsubmitted⟩ := hkeeps
    exact h.restage (hear_keeps hround hsubmitted way
      fun refused hwritten => h.settled_of_refused hround hsubmitted hwritten)
  · exact h

/-- A wait ends, one way or the other. -/
theorem Upheld.waited (h : world.Upheld sig call) {step : Step}
    (hstep : step = .caughtUp ∨ step = .timedOut) : (world.step sig call step).Upheld sig call := by
  have hkeeps := h.stage
  rcases hstep with rfl | rfl
  · simp only [World.step]
    split
    · rename_i hstage
      rw [hstage] at hkeeps
      split
      · exact h.restage hkeeps
      · exact h
    · rename_i hstage
      rw [hstage] at hkeeps
      split
      · exact h.restage hkeeps
      · exact h
    · exact h
  · simp only [World.step]
    split
    · exact h.restage trivial
    · rename_i hstage
      rw [hstage] at hkeeps
      exact h.restage hkeeps
    · exact h

/-- **One step**, of the call or around it. -/
theorem Upheld.step (h : world.Upheld sig call) (step : Step) (hdelivered : world.Delivered step) :
    (world.step sig call step).Upheld sig call := by
  cases step with
  | entry index signed => exact h.entry index signed
  | hold held =>
    exact ⟨h.sound, h.numbered, h.handedOn, h.quiet,
      h.stage.beside (onward_of_same rfl rfl) (beside_of_same rfl rfl rfl)⟩
  | commit i index => exact h.commit i index hdelivered
  | lose i => exact h.lose i
  | handOn i => exact h.handOn i hdelivered
  | proposeOnce seat now =>
    simp only [World.step]
    split
    · rename_i again hstage
      have hkeeps := h.stage
      rw [hstage] at hkeeps
      exact h.restage (proposeOnce_keeps hkeeps again seat now)
    · exact h
  | submit => exact h.submit hdelivered
  | hear answer => exact h.hear answer
  | caughtUp => exact h.waited (Or.inl rfl)
  | timedOut => exact h.waited (Or.inr rfl)

theorem upheld_start (sig : Signing) (call : Call) (log : GroupLog) (held : ℕ) :
    (start log held).Upheld sig call := by
  have hnone : ∀ (i : ℕ) (copy : Copy), (start log held).copies[i]? ≠ some copy := by
    intro i copy hget
    rw [start, List.getElem?_nil] at hget
    cases hget
  exact ⟨fun copy hcopy => absurd hcopy List.not_mem_nil,
    fun copy hcopy => absurd hcopy List.not_mem_nil,
    fun i copy hget => absurd hget (hnone i copy), fun i copy hget => absurd hget (hnone i copy),
    fun i copy hget => absurd hget (hnone i copy)⟩

/-- What is not awaited has no effect, and only one copy is awaited. -/
theorem Upheld.length_effects_le (h : world.Upheld sig call) : (world.effects sig).length ≤ 1 := by
  by_cases hsome : ∃ i, world.Awaits i
  · obtain ⟨i, hawaited⟩ := hsome
    exact length_filterMap_le_one (i := i) fun j copy hget hne =>
      h.quiet j copy hget fun hother => hne (hother.unique hawaited)
  · rw [not_exists] at hsome
    exact length_filterMap_le_one (i := 0) fun j copy hget _ => h.quiet j copy hget (hsome j)

theorem Upheld.effects_of_settled (h : world.Upheld sig call) (hsettled : world.Settled sig) :
    world.effects sig = [] := by
  rw [World.effects, List.filterMap_eq_nil_iff]
  intro copy hcopy
  obtain ⟨i, hget⟩ := List.mem_iff_getElem?.mp hcopy
  by_cases hawaited : world.Awaits i
  · exact (hsettled i copy hget hawaited).effect
  · exact h.quiet i copy hget hawaited

theorem Upheld.honest (h : world.Upheld sig call) : world.Honest sig := by
  have hkeeps := h.stage
  refine ⟨h.length_effects_le, ?_, ?_⟩
  · intro error hstage
    rw [hstage] at hkeeps
    exact h.effects_of_settled hkeeps
  · intro index hstage
    rw [hstage] at hkeeps
    change index ∈ world.effects sig at hkeeps
    obtain ⟨effect, heffects⟩ :=
      List.length_eq_one_iff.mp (le_antisymm h.length_effects_le (List.length_pos_of_mem hkeeps))
    rw [heffects, List.mem_singleton] at hkeeps
    rw [heffects, hkeeps]

end World

/-! ## Every run -/

open World

/-- **A proposal happens at most once and is answered honestly**, as long as no answer is
given up of a copy that is committed: wherever copies are committed and lost, whatever the
rules make of them, and whatever others propose in between. -/
theorem proposed_at_most_once (sig : Signing) (call : Call) (log : GroupLog) (held : ℕ)
    (steps : List Step)
    (hdelivered : Along (World.step sig call) World.Delivered (start log held) steps) :
    (exec (World.step sig call) (start log held) steps).Honest sig :=
  (hdelivered.invariant (fun _ step h hok => h.step step hok)
    (upheld_start sig call log held)).honest

/-! ## Two calls

The group is alice's and bob's, and alice's node calls. Its own Raft names bob the leader,
for each submission. -/

def foundedLog : GroupLog where
  entries :=
    [(1, .signedBy alice 0
        (.groupFounded ⟨9⟩ [(⟨alice, "alice"⟩, default), (⟨bob, "bob"⟩, default)] default))]
  ascending := by decide
  positive := by decide

def aliceKey : SecretKey := ⟨alice, fun _ => ⟨0⟩⟩

def admitCarol : Call := ⟨alice, .memberAdded ⟨carol, "carol"⟩, aliceKey⟩

def moveBob : Call := ⟨alice, .coreGroupChanged [(alice, default), (bob, ⟨some "relay", ∅⟩)], aliceKey⟩

/-- Alice's Raft names bob, and bob is asked; `copy` is the copy her Raft never took. -/
def askBob (copy : ℕ) : List Step := [.submit, .hear (.forwardToLeader bob), .lose copy, .submit]

/-- Bob's node commits the first copy and its answer is lost; bob expels carol; and the
second copy comes back as stale. -/
def answerLost : List Step := List.flatten
  [[.proposeOnce .core ⟨0⟩], askBob 0, [.commit 1 2, .hear (.unreachable "no answer within 45s"),
    .entry 3 (.signedBy bob 2 (.memberExpelled carol "left"))], askBob 2,
    [.commit 3 4, .hear (.verdict 3)]]

/-- The request is lost instead; bob changes the membership; and the second copy comes back
as stale. -/
def requestLost : List Step := List.flatten
  [[.proposeOnce .core ⟨0⟩], askBob 0, [.lose 1, .hear (.unreachable "no answer within 45s"),
    .entry 3 (.signedBy bob 1 (.protocolSupported bob 1))], askBob 2,
    [.commit 3 4, .hear (.verdict 3)]]

/-- Caught up, the call asks bob again. -/
def askedAgain : List Step := List.flatten
  [[.hold 4, .caughtUp, .proposeOnce .core ⟨0⟩], askBob 4,
    [.commit 5 5, .hear (.verdict 5), .hold 5, .caughtUp]]

def called (call : Call) (steps : List Step) : World :=
  exec (World.step .accepting call) (start foundedLog 1) steps

/-- **An answer that is lost readmits carol.** Her admission takes effect, she is expelled,
and the same call takes effect again; nor does it take two effects for a lie: a change of
the core group that was made is answered with a refusal. -/
theorem lost_answer_readmits_carol :
    (called admitCarol (answerLost ++ askedAgain)).stage = .answered (.ok 5) ∧
      (called admitCarol (answerLost ++ askedAgain)).effects .accepting = [2, 5] ∧
      ((called admitCarol answerLost).log.membership .accepting).isMember carol = false ∧
      ((called admitCarol (answerLost ++ askedAgain)).log.membership .accepting).isMember carol ∧
      (called moveBob answerLost).stage = .answered (.error (.event (.staleProposal 1 2))) ∧
      (called moveBob answerLost).effects .accepting = [2] ∧
      ¬(called admitCarol (answerLost ++ askedAgain)).Honest .accepting ∧
      ¬(called moveBob answerLost).Honest .accepting := by
  have htwice : (called admitCarol (answerLost ++ askedAgain)).effects .accepting = [2, 5] := by
    decide +kernel
  have hrefused : (called moveBob answerLost).stage =
      .answered (.error (.event (.staleProposal 1 2))) := by decide +kernel
  have hmoved : (called moveBob answerLost).effects .accepting = [2] := by decide +kernel
  refine ⟨by decide +kernel, htwice, by decide +kernel, by decide +kernel, hrefused, hmoved, ?_, ?_⟩
  · intro hhonest
    have hone := hhonest.1
    rw [htwice] at hone
    exact absurd hone (by decide)
  · intro hhonest
    have hnone := hhonest.2.1 _ hrefused
    rw [hmoved] at hnone
    cases hnone

/-- Where it was the request that was lost, the call takes effect once, at its second
signing. -/
theorem proposed_at_most_once_request_lost :
    (called admitCarol (requestLost ++ askedAgain)).Honest .accepting ∧
      (called admitCarol (requestLost ++ askedAgain)).effects .accepting = [5] :=
  ⟨proposed_at_most_once .accepting admitCarol foundedLog 1 (requestLost ++ askedAgain)
      (by decide +kernel),
    by decide +kernel⟩

end Propose

end Distlib
