import Distlib.Lib.GuardedRun
import Distlib.Lib.Overflow
import Distlib.Sync.Document

/-!
# What probes leave on record

A custodian that fails a probe is recorded in the catalogue, with how many it failed in a row;
one that passes is cleared. The prober keeps its own failures in memory, as it last read or
wrote them, and reads the catalogue once a process, so everything rests on memory and
catalogue saying the same.

A failure is written and then remembered. A pass is forgotten and then cleared: when the
clearing fails, the failure is still in the catalogue and no longer in memory, and the next
pass finds nothing to clear. A failure that could not be written is not counted, so the next
one that can be is written as one less in a row than there were.

`followed_iff` says which runs of probes the records follow: those in which every custodian
that passes is cleared at once, and every failure that is written follows failures that were.
-/

namespace Distlib

open GuardedRun OrdMap

/-! ## The failures in the catalogue -/

/-- What `me` no longer has recorded of `custodian`. -/
def clearProbeFailure (me custodian : MemberId) (entries : List RecordedFailure) :
    List RecordedFailure :=
  entries.filter fun entry => ¬(entry.custodian = custodian ∧ entry.prober = me)

/-- The latest failure `me` records of `custodian`, in place of the one before. -/
def recordProbeFailure (me custodian : MemberId) (failure : ProbeFailure) (now : UInt64)
    (entries : List RecordedFailure) : List RecordedFailure :=
  clearProbeFailure me custodian entries ++ [⟨custodian, me, failure, now⟩]

/-- The failures `me` has recorded, by custodian. -/
def myFailures (me : MemberId) (entries : List RecordedFailure) : OrdMap MemberId ProbeFailure :=
  .ofList ((entries.filter fun entry => entry.prober = me).map
    fun entry => (entry.custodian, entry.failure)) compare

/-- What there is once the other members' entries are `others`. -/
def syncFailures (me : MemberId) (others entries : List RecordedFailure) : List RecordedFailure :=
  (entries.filter fun entry => entry.prober = me) ++ others.filter fun entry => entry.prober ≠ me

section Entries

variable (me custodian : MemberId) (entries : List RecordedFailure)

theorem myFailures_clear :
    myFailures me (clearProbeFailure me custodian entries) =
      (myFailures me entries).erase custodian := by
  have hmine : (clearProbeFailure me custodian entries).filter (fun entry => entry.prober = me) =
      (entries.filter fun entry => entry.prober = me).filter
        fun entry => entry.custodian ≠ custodian := by
    rw [clearProbeFailure, List.filter_filter, List.filter_filter]
    refine List.filter_congr fun entry _ => ?_
    by_cases hprober : entry.prober = me <;> simp [hprober]
  rw [myFailures, hmine, myFailures, ← ofList_filter_ne, List.filter_map]
  rfl

theorem myFailures_record (failure : ProbeFailure) (now : UInt64) :
    myFailures me (recordProbeFailure me custodian failure now entries) =
      (myFailures me entries).insert custodian failure := by
  have hlast : myFailures me (recordProbeFailure me custodian failure now entries) =
      (myFailures me (clearProbeFailure me custodian entries)).insert custodian failure := by
    rw [myFailures, myFailures, ← ofList_concat, recordProbeFailure, List.filter_append,
      List.map_append, List.filter_cons_of_pos (by simp)]
    rfl
  rw [hlast, myFailures_clear, erase_insert]

/-- What others record is not this node's. -/
theorem myFailures_sync (others : List RecordedFailure) :
    myFailures me (syncFailures me others entries) = myFailures me entries := by
  have hothers : (others.filter fun entry => entry.prober ≠ me).filter
      (fun entry => entry.prober = me) = [] := by
    rw [List.filter_filter, List.filter_eq_nil_iff]
    intro entry _
    simp
  rw [myFailures, syncFailures, List.filter_append, hothers, List.append_nil, List.filter_filter]
  simp only [Bool.and_self]
  rfl

end Entries

/-! ## A probe -/

/-- How a probe came out. -/
inductive Probed : Type where
  | passed
  | failed
  | unreachable
  deriving DecidableEq

/-- How the probes made since the start came out. -/
structure ProbeCounts where
  passed : ℕ
  failed : ℕ
  skipped : ℕ

/-- What one probe asks `custodian` for: `chunk` of `blob`, a content file of `item`. -/
structure Target where
  custodian : MemberId
  item : ItemId
  blob : ContentHash
  chunk : UInt64

/-- Why an outcome is not recorded. -/
inductive Unrecorded : Type where
  | sync
  | panicked

/-- What a call leaves: this node's failures in memory, those in the catalogue, and how the call
came out. -/
structure Recording where
  mine : OrdMap MemberId ProbeFailure
  entries : List RecordedFailure
  result : Except Unrecorded Unit

/-- Records how probing `target` came out, with a catalogue that takes a write or does not. -/
def record (checks : OverflowChecks) (me : MemberId) (writes : Bool) (now : UInt64)
    (entries : List RecordedFailure) (mine : OrdMap MemberId ProbeFailure) (target : Target) :
    Probed → Recording
  | .passed =>
    -- forgotten first, whatever comes of the clearing
    if (mine[target.custodian]?).isSome then
      if writes then
        ⟨mine.erase target.custodian, clearProbeFailure me target.custodian entries, .ok ()⟩
      else ⟨mine.erase target.custodian, entries, .error .sync⟩
    else ⟨mine.erase target.custodian, entries, .ok ()⟩
  | .failed =>
    match (mine[target.custodian]?).elim (some 1) fun before =>
        (checks.add 32 before.inARow.toNat 1).map UInt32.ofNat with
    | none => ⟨mine, entries, .error .panicked⟩
    | some inARow =>
      let failure : ProbeFailure := ⟨target.item, target.blob, target.chunk, inARow⟩
      -- written first, and remembered if that went well
      if writes then
        ⟨mine.insert target.custodian failure,
          recordProbeFailure me target.custodian failure now entries, .ok ()⟩
      else ⟨mine, entries, .error .sync⟩
  | .unreachable => ⟨mine, entries, .ok ()⟩

/-- What a process has of its probes; its own failures from the first probe on. -/
structure Prober.Inner where
  mine : Option (OrdMap MemberId ProbeFailure)
  counts : ProbeCounts

def Prober.Inner.new : Prober.Inner := ⟨none, ⟨0, 0, 0⟩⟩

/-- This node's own failures, read from the catalogue the first time. -/
def Prober.Inner.loaded (inner : Prober.Inner) (me : MemberId) (entries : List RecordedFailure) :
    OrdMap MemberId ProbeFailure :=
  inner.mine.getD (myFailures me entries)

def ProbeCounts.count (counts : ProbeCounts) : Probed → ProbeCounts
  | .passed => { counts with passed := counts.passed + 1 }
  | .failed => { counts with failed := counts.failed + 1 }
  | .unreachable => { counts with skipped := counts.skipped + 1 }

/-- A probe that has come out: counted, and recorded. -/
def Prober.Inner.make (checks : OverflowChecks) (me : MemberId) (writes : Bool) (now : UInt64)
    (entries : List RecordedFailure) (inner : Prober.Inner) (target : Target) (probed : Probed) :
    Prober.Inner × List RecordedFailure × Except Unrecorded Probed :=
  let recording := record checks me writes now entries (inner.loaded me entries) target probed
  (⟨some recording.mine, inner.counts.count probed⟩, recording.entries,
    recording.result.map fun _ => probed)

/-! ## The prober and its catalogue -/

namespace Prober

/-- Of one custodian, for the record only: its failures since its last pass, and how many of
them could be written. -/
structure Tally where
  failures : ℕ
  written : ℕ

def Tally.next (tally : Tally) (writes : Bool) : Probed → Tally
  | .passed => ⟨0, 0⟩
  | .failed => ⟨tally.failures + 1, if writes then tally.written + 1 else tally.written⟩
  | .unreachable => tally

structure World where
  inner : Inner
  entries : List RecordedFailure
  since : MemberId → Tally

/-- A process starts, with what earlier ones have recorded. -/
def World.started (me : MemberId) (entries : List RecordedFailure) : World where
  inner := .new
  entries := entries
  since custodian :=
    let inARow := ((myFailures me entries)[custodian]?).elim 0 fun failure => failure.inARow.toNat
    ⟨inARow, inARow⟩

inductive Event : Type where
  /-- the process ends, and another starts -/
  | restarted
  /-- what other members have recorded arrives -/
  | synced (others : List RecordedFailure)
  /-- a probe comes out, at a catalogue that takes a write or does not -/
  | made (target : Target) (probed : Probed) (writes : Bool) (now : UInt64)

variable (checks : OverflowChecks) (me : MemberId)

def World.step (world : World) : Event → World
  | .restarted => { world with inner := .new }
  | .synced others => { world with entries := syncFailures me others world.entries }
  | .made target probed writes now =>
    let made := world.inner.make checks me writes now world.entries target probed
    { inner := made.1
      entries := made.2.1
      since := Function.update world.since target.custodian
        ((world.since target.custodian).next writes probed) }

/-- What this node has recorded. -/
def World.recorded (world : World) : OrdMap MemberId ProbeFailure := myFailures me world.entries

/-- The records follow a probe: memory has what is recorded; a pass that can be written leaves
nothing recorded, and a failure that can be is recorded with how many there were since the last
pass. -/
def Followed (world : World) : Event → Prop
  | .made target probed writes now =>
    let next := world.step checks me (.made target probed writes now)
    next.inner.mine = some (next.recorded me) ∧
      match probed with
      | .passed => writes = true → (next.recorded me)[target.custodian]? = none
      | .failed => writes = true →
          ((next.recorded me)[target.custodian]?).map (fun failure => failure.inARow.toNat) =
            some ((world.since target.custodian).failures + 1)
      | .unreachable => True
  | _ => True

/-- A pass of a custodian with a failure recorded can be written; so could every failure before
one that can, since the last pass, and they are not too many to count. -/
def Holds (world : World) : Event → Prop
  | .made target .passed writes _ =>
    (world.recorded me)[target.custodian]? ≠ none → writes = true
  | .made target .failed writes _ =>
    writes = true →
      (world.since target.custodian).written = (world.since target.custodian).failures ∧
        (world.since target.custodian).failures + 1 < 2 ^ 32
  | _ => True

/-! ## Probe by probe -/

/-- Memory, if there is any, has what is recorded, and as many failures are recorded in a row as
could be written. -/
structure Good (world : World) : Prop where
  mine : ∀ mine, world.inner.mine = some mine → mine = world.recorded me
  written : ∀ custodian,
    (((world.recorded me)[custodian]?).elim 0 fun failure => failure.inARow.toNat) =
      (world.since custodian).written
  among : ∀ custodian, (world.since custodian).written ≤ (world.since custodian).failures

variable {checks me} {world : World}

theorem good_started (me : MemberId) (entries : List RecordedFailure) :
    Good me (.started me entries) :=
  ⟨fun mine hmine => (by cases hmine), fun _ => rfl, fun _ => le_refl _⟩

theorem Good.loaded (h : Good me world) :
    world.inner.loaded me world.entries = world.recorded me := by
  rw [Inner.loaded]
  rcases hmine : world.inner.mine with _ | mine
  · rfl
  · exact h.mine mine hmine

/-- How many in a row the next failure of a custodian is written as. -/
theorem Good.nextInARow (h : Good me world) (checks : OverflowChecks) (custodian : MemberId) :
    (((world.recorded me)[custodian]?).elim (some 1) fun before =>
        (checks.add 32 before.inARow.toNat 1).map UInt32.ofNat) =
      (checks.fit 32 ((world.since custodian).written + 1)).map UInt32.ofNat := by
  have hwritten := h.written custodian
  rcases hget : (world.recorded me)[custodian]? with _ | before
  · rw [hget] at hwritten
    rw [← hwritten, OverflowChecks.fit_of_lt (by simp)]
    rfl
  · rw [hget] at hwritten
    rw [← hwritten]
    rfl

/-- A number that fits is the number written, and one that does not is written as less. -/
theorem toNat_of_fit {checks : OverflowChecks} {count : ℕ} {inARow : UInt32}
    (h : (checks.fit 32 count).map UInt32.ofNat = some inARow) :
    inARow.toNat ≤ count ∧ (inARow.toNat = count ↔ count < 2 ^ 32) := by
  by_cases hfits : count < 2 ^ 32
  · rw [OverflowChecks.fit_of_lt hfits, Option.map_some, Option.some.injEq] at h
    subst h
    rw [UInt32.toNat_ofNat_of_lt' hfits]
    exact ⟨le_refl _, iff_of_true rfl hfits⟩
  · have hword := inARow.toNat_lt
    exact ⟨by omega, by omega⟩

/-- What a call of `record` leaves is what the step leaves. -/
theorem Good.made (h : Good me world) {target : Target} {probed : Probed} {writes : Bool}
    {now : UInt64} {recording : Recording}
    (hrecording : record checks me writes now world.entries (world.recorded me) target probed =
      recording) :
    let next := world.step checks me (.made target probed writes now)
    next.inner.mine = some recording.mine ∧
      next.recorded me = myFailures me recording.entries := by
  subst hrecording
  simp only [World.step, Inner.make, h.loaded]
  exact ⟨trivial, rfl⟩

/-- After a pass nothing is in memory of the custodian, and nothing is recorded unless a
clearing fails. -/
theorem Good.step_passed (h : Good me world) (checks : OverflowChecks) (target : Target)
    (writes : Bool) (now : UInt64) :
    let next := world.step checks me (.made target .passed writes now)
    next.inner.mine = some ((world.recorded me).erase target.custodian) ∧
      next.recorded me =
        if (world.recorded me)[target.custodian]? ≠ none ∧ writes = false then world.recorded me
        else (world.recorded me).erase target.custodian := by
  rcases hget : (world.recorded me)[target.custodian]? with _ | before
  · have hrecording : record checks me writes now world.entries (world.recorded me) target .passed =
        ⟨(world.recorded me).erase target.custodian, world.entries, .ok ()⟩ := by
      rw [record, hget]
      rfl
    obtain ⟨hmine, hrecorded⟩ := h.made hrecording
    rw [if_neg (by simp), erase_eq_self hget]
    exact ⟨hmine.trans (congrArg some (erase_eq_self hget)), hrecorded⟩
  · cases writes with
    | true =>
      have hrecording : record checks me true now world.entries (world.recorded me) target .passed =
          ⟨(world.recorded me).erase target.custodian,
            clearProbeFailure me target.custodian world.entries, .ok ()⟩ := by
        rw [record, hget]
        rfl
      obtain ⟨hmine, hrecorded⟩ := h.made hrecording
      rw [myFailures_clear] at hrecorded
      rw [if_neg (by simp)]
      exact ⟨hmine, hrecorded⟩
    | false =>
      have hrecording : record checks me false now world.entries (world.recorded me) target
          .passed = ⟨(world.recorded me).erase target.custodian, world.entries, .error .sync⟩ := by
        rw [record, hget]
        rfl
      rw [if_pos (by simp)]
      exact h.made hrecording

/-- After a failure memory has what is recorded, and the catalogue has one more in a row, if it
took the write. -/
theorem Good.step_failed (h : Good me world) (checks : OverflowChecks) (target : Target)
    (writes : Bool) (now : UInt64) :
    let next := world.step checks me (.made target .failed writes now)
    next.inner.mine = some (next.recorded me) ∧
      next.recorded me =
        match (checks.fit 32 ((world.since target.custodian).written + 1)).map UInt32.ofNat with
        | some inARow =>
          if writes then (world.recorded me).insert target.custodian
            ⟨target.item, target.blob, target.chunk, inARow⟩
          else world.recorded me
        | none => world.recorded me := by
  have hcount := h.nextInARow checks target.custodian
  rcases hfit : (checks.fit 32 ((world.since target.custodian).written + 1)).map UInt32.ofNat with
    _ | inARow
  · rw [hfit] at hcount
    have hrecording : record checks me writes now world.entries (world.recorded me) target .failed =
        ⟨world.recorded me, world.entries, .error .panicked⟩ := by
      rw [record, hcount]
    obtain ⟨hmine, hrecorded⟩ := h.made hrecording
    exact ⟨hmine.trans (congrArg some hrecorded.symm), hrecorded⟩
  · rw [hfit] at hcount
    cases writes with
    | true =>
      have hrecording : record checks me true now world.entries (world.recorded me) target .failed =
          ⟨(world.recorded me).insert target.custodian
              ⟨target.item, target.blob, target.chunk, inARow⟩,
            recordProbeFailure me target.custodian ⟨target.item, target.blob, target.chunk, inARow⟩
              now world.entries, .ok ()⟩ := by
        rw [record, hcount]
        rfl
      obtain ⟨hmine, hrecorded⟩ := h.made hrecording
      rw [myFailures_record] at hrecorded
      exact ⟨hmine.trans (congrArg some hrecorded.symm), hrecorded⟩
    | false =>
      have hrecording : record checks me false now world.entries (world.recorded me) target
          .failed = ⟨world.recorded me, world.entries, .error .sync⟩ := by
        rw [record, hcount]
        rfl
      obtain ⟨hmine, hrecorded⟩ := h.made hrecording
      exact ⟨hmine.trans (congrArg some hrecorded.symm), hrecorded⟩

/-- A custodian that could not be reached is recorded as it was. -/
theorem Good.step_unreachable (h : Good me world) (checks : OverflowChecks) (target : Target)
    (writes : Bool) (now : UInt64) :
    let next := world.step checks me (.made target .unreachable writes now)
    next.inner.mine = some (world.recorded me) ∧ next.recorded me = world.recorded me :=
  h.made rfl

/-- **One probe** is followed exactly if it is one the records can follow. -/
theorem Good.followed_iff_holds (h : Good me world) (checks : OverflowChecks) (event : Event) :
    Followed checks me world event ↔ Holds me world event := by
  cases event with
  | restarted => exact Iff.rfl
  | synced others => exact Iff.rfl
  | made target probed writes now =>
    cases probed with
    | passed =>
      obtain ⟨hmine, hrecorded⟩ := h.step_passed checks target writes now
      rw [Followed, Holds, hmine, hrecorded]
      by_cases hleft : (world.recorded me)[target.custodian]? ≠ none ∧ writes = false
      · rw [if_pos hleft]
        obtain ⟨hget, hwrites⟩ := hleft
        refine iff_of_false (fun hfollowed => hget ?_) fun hholds => ?_
        · -- memory without the failure is not the record with it
          rw [← Option.some.inj hfollowed.1]
          simp
        · rw [hholds hget] at hwrites
          cases hwrites
      · rw [if_neg hleft]
        refine iff_of_true ⟨rfl, fun _ => by simp⟩ fun hget => ?_
        by_contra hwrites
        exact hleft ⟨hget, Bool.eq_false_of_not_eq_true hwrites⟩
    | failed =>
      obtain ⟨hmine, hrecorded⟩ := h.step_failed checks target writes now
      rw [Followed, Holds]
      refine (and_iff_right hmine).trans (imp_congr_right fun hwrites => ?_)
      subst hwrites
      rw [hrecorded]
      have hamong := h.among target.custodian
      rcases hfit : (checks.fit 32 ((world.since target.custodian).written + 1)).map UInt32.ofNat
        with _ | inARow
      · have hover : ¬(world.since target.custodian).written + 1 < 2 ^ 32 := by
          intro hfits
          rw [OverflowChecks.fit_of_lt hfits] at hfit
          cases hfit
        refine iff_of_false (fun hget => ?_) fun hboth => by omega
        have hwritten := h.written target.custodian
        obtain ⟨failure, hfailure, htoNat⟩ := Option.map_eq_some_iff.mp hget
        dsimp only at hfailure
        rw [hfailure, Option.elim_some] at hwritten
        have hword := failure.inARow.toNat_lt
        omega
      · obtain ⟨hle, hiff⟩ := toNat_of_fit hfit
        dsimp only
        rw [if_pos rfl, Std.ExtTreeMap.getElem?_insert_self, Option.map_some, Option.some.injEq]
        change inARow.toNat = _ ↔ _
        constructor
        · intro heq
          have hsame : (world.since target.custodian).written =
              (world.since target.custodian).failures := by omega
          exact ⟨hsame, by rw [← hsame]; exact hiff.mp (by omega)⟩
        · rintro ⟨hsame, hfits⟩
          rw [← hsame]
          exact hiff.mpr (by omega)
    | unreachable =>
      obtain ⟨hmine, hrecorded⟩ := h.step_unreachable checks target writes now
      exact iff_of_true ⟨hmine.trans (congrArg some hrecorded.symm), trivial⟩ trivial

/-- A probe of one custodian changes nothing of another. -/
theorem Good.recorded_other (h : Good me world) (checks : OverflowChecks) (target : Target)
    (probed : Probed) (writes : Bool) (now : UInt64) {other : MemberId}
    (hother : other ≠ target.custodian) :
    ((world.step checks me (.made target probed writes now)).recorded me)[other]? =
      (world.recorded me)[other]? := by
  have hkey : compare target.custodian other ≠ .eq := by
    rw [ne_eq, Std.LawfulEqCmp.compare_eq_iff_eq]
    exact hother.symm
  cases probed with
  | passed =>
    rw [(h.step_passed checks target writes now).2]
    split
    · rfl
    · rw [Std.ExtTreeMap.getElem?_erase, if_neg hkey]
  | failed =>
    rw [(h.step_failed checks target writes now).2]
    split
    · split
      · rw [Std.ExtTreeMap.getElem?_insert, if_neg hkey]
      · rfl
    · rfl
  | unreachable => rw [(h.step_unreachable checks target writes now).2]

/-- A probe that is followed leaves as many failures of its custodian recorded in a row as could
be written. -/
theorem Good.recorded_target (h : Good me world) {target : Target} {probed : Probed}
    {writes : Bool} {now : UInt64}
    (hfollowed : Followed checks me world (.made target probed writes now)) :
    (((world.step checks me (.made target probed writes now)).recorded
        me)[target.custodian]?).elim 0 (fun failure => failure.inARow.toNat) =
      ((world.since target.custodian).next writes probed).written := by
  have hholds := (h.followed_iff_holds checks _).mp hfollowed
  have hwritten := h.written target.custodian
  cases probed with
  | passed =>
    rw [(h.step_passed checks target writes now).2, if_neg, Std.ExtTreeMap.getElem?_erase_self]
    · rfl
    · rintro ⟨hget, hwrites⟩
      rw [hholds hget] at hwrites
      cases hwrites
  | failed =>
    cases writes with
    | true =>
      obtain ⟨failure, hget, htoNat⟩ := Option.map_eq_some_iff.mp (hfollowed.2 rfl)
      rw [hget, Option.elim_some, htoNat, ← (hholds rfl).1]
      rfl
    | false =>
      rw [(h.step_failed checks target false now).2]
      split <;> exact hwritten
  | unreachable => rw [(h.step_unreachable checks target writes now).2]; exact hwritten

/-- A probe that is followed leaves what is recorded as good as it was. -/
theorem Good.step (h : Good me world) {event : Event} (hfollowed : Followed checks me world event) :
    Good me (world.step checks me event) := by
  cases event with
  | restarted => exact ⟨fun mine hmine => (by cases hmine), h.written, h.among⟩
  | synced others =>
    have hsame : (world.step checks me (.synced others)).recorded me = world.recorded me :=
      myFailures_sync me world.entries others
    exact ⟨fun mine hmine => (h.mine mine hmine).trans hsame.symm,
      fun custodian => (by rw [hsame]; exact h.written custodian), h.among⟩
  | made target probed writes now =>
    have htarget := h.recorded_target hfollowed
    have hsince : ∀ custodian, (world.step checks me (.made target probed writes now)).since
        custodian = if custodian = target.custodian
          then (world.since target.custodian).next writes probed else world.since custodian := by
      intro custodian
      exact Function.update_apply ..
    refine ⟨fun mine hin => Option.some.inj (hin.symm.trans hfollowed.1), fun custodian => ?_,
      fun custodian => ?_⟩
    · rw [hsince]
      by_cases hcustodian : custodian = target.custodian
      · obtain rfl := hcustodian
        rw [if_pos rfl]
        exact htarget
      · rw [if_neg hcustodian, h.recorded_other checks target probed writes now hcustodian]
        exact h.written custodian
    · rw [hsince]
      have hamong := h.among target.custodian
      split
      · cases probed with
        | passed => exact le_refl _
        | failed =>
          rw [Tally.next]
          dsimp only
          split <;> omega
        | unreachable => exact hamong
      · exact h.among custodian

/-- **The records follow the probes** exactly when every custodian that passes is cleared at
once, and every failure that is written follows failures that were: in every run of a prober,
over any catalogue, with any other members' entries and any restarts. -/
theorem followed_iff (checks : OverflowChecks) (me : MemberId) (entries : List RecordedFailure)
    (events : List Event) :
    Along (World.step checks me) (Followed checks me) (.started me entries) events ↔
      Along (World.step checks me) (Holds me) (.started me entries) events :=
  along_iff (I := fun _ => True) (P := Good me) (fun _ _ _ => trivial)
    (fun _ event _ h => h.followed_iff_holds checks event) (fun _ _ h hfollowed => h.step hfollowed)
    events trivial (good_started me entries)

namespace Uncleared

/-- Two members: this node, and a custodian of some item. -/
def here : MemberId := ⟨1⟩

def custodian : MemberId := ⟨2⟩

def target : Target := ⟨custodian, ⟨1⟩, ⟨1⟩, 0⟩

/-- The custodian fails a probe and is recorded; it passes, but the clearing fails; it passes
twice more, and the catalogue takes every write. -/
def cleared : List Event :=
  [.made target .failed true 10, .made target .passed false 20, .made target .passed true 30,
    .made target .passed true 40]

/-- The custodian fails twice in a row, and the catalogue takes the second write only. -/
def counted : List Event := [.made target .failed false 10, .made target .failed true 20]

/-- The one failure is in the catalogue still, and the two are one. -/
theorem uncleared_stays :
    ¬Along (World.step .on here) (Followed .on here) (.started here []) cleared ∧
      (((exec (World.step .on here) (.started here []) cleared).recorded here)[custodian]?).map
        (fun failure => failure.inARow) = some 1 ∧
      (((exec (World.step .on here) (.started here []) counted).recorded here)[custodian]?).map
        (fun failure => failure.inARow) = some 1 := by
  refine ⟨fun hfollowed => ?_, by decide +kernel, by decide +kernel⟩
  have hpassed := hfollowed.2.2.1.2 rfl
  exact absurd hpassed (by decide +kernel)

end Uncleared

end Prober

end Distlib
